/-!
# JavaScript strings and their UTF-8 form

A JavaScript string is its list of UTF-16 code units. `toCStringLen` and `newStringLen` are the two
directions in which the engine crosses to bytes (`JS_ToCStringLen`, `JS_NewStringLen`), over
`unicode_to_utf8` and `unicode_from_utf8` of `cutils.c`.
-/

namespace BeamJS

/-- A JavaScript string, as its UTF-16 code units. -/
abbrev JsString := List UInt16

/-- The content of a binary, or of a C buffer with its length. -/
abbrev Bytes := List UInt8

instance : LawfulBEq JsString := inferInstance

instance : LawfulBEq Bytes := inferInstance

/-- The JavaScript string written by an ASCII literal. -/
def js (s : String) : JsString := s.toList.map fun c => UInt16.ofNat c.toNat

/-- The bytes of an ASCII literal. -/
def bytes (s : String) : Bytes := s.toList.map fun c => UInt8.ofNat c.toNat

theorem bytes_append (s t : String) : bytes (s ++ t) = bytes s ++ bytes t := by
  rw [bytes, String.toList_append, List.map_append]
  rfl

namespace Utf8

/-- `(c & 0x3f) | 0x80`. -/
def tail (c : Nat) : UInt8 := UInt8.ofNat ((c &&& 0x3f) ||| 0x80)

/-- `unicode_to_utf8`. -/
def unicodeToUtf8 (c : Nat) : Bytes :=
  if c < 0x80 then [UInt8.ofNat c]
  else if c < 0x800 then [UInt8.ofNat ((c >>> 6) ||| 0xc0), tail c]
  else if c < 0x10000 then [UInt8.ofNat ((c >>> 12) ||| 0xe0), tail (c >>> 6), tail c]
  else if c < 0x200000 then
    [UInt8.ofNat ((c >>> 18) ||| 0xf0), tail (c >>> 12), tail (c >>> 6), tail c]
  else if c < 0x4000000 then
    [UInt8.ofNat ((c >>> 24) ||| 0xf8), tail (c >>> 18), tail (c >>> 12), tail (c >>> 6), tail c]
  else if c < 0x80000000 then
    [UInt8.ofNat ((c >>> 30) ||| 0xfc), tail (c >>> 24), tail (c >>> 18), tail (c >>> 12),
      tail (c >>> 6), tail c]
  else []

/-- The number of bytes that follow a first byte from 0x80 on: the `switch` of
`unicode_from_utf8`. -/
def followers (b : Nat) : Option Nat :=
  if b < 0xc0 then none
  else if b < 0xe0 then some 1
  else if b < 0xf0 then some 2
  else if b < 0xf8 then some 3
  else if b < 0xfc then some 4
  else if b < 0xfe then some 5
  else none

/-- `utf8_first_code_mask[l - 1]`. -/
def firstCodeMask : Nat → Nat
  | 1 => 0x1f | 2 => 0xf | 3 => 0x7 | 4 => 0x3 | _ => 0x1

/-- `utf8_min_code[l - 1]`. -/
def minCode : Nat → Nat
  | 1 => 0x80 | 2 => 0x800 | 3 => 0x10000 | 4 => 0x200000 | _ => 0x4000000

/-- The loop of `unicode_from_utf8` over the `l` following bytes. -/
def readTail : Nat → Nat → Bytes → Option (Nat × Bytes)
  | 0, c, p => some (c, p)
  | _ + 1, _, [] => none
  | l + 1, c, b :: p =>
    if b.toNat < 0x80 ∨ 0xc0 ≤ b.toNat then none
    else readTail l ((c <<< 6) ||| (b.toNat &&& 0x3f)) p

/-- `unicode_from_utf8`: the code point and the bytes left, or `none` for an error. -/
def unicodeFromUtf8 : Bytes → Option (Nat × Bytes)
  | [] => none
  | b :: p =>
    if b.toNat < 0x80 then some (b.toNat, p)
    else
      match followers b.toNat with
      | none => none
      | some l =>
        if p.length < l then none
        else
          match readTail l (b.toNat &&& firstCodeMask l) p with
          | none => none
          | some (c, rest) => if c < minCode l then none else some (c, rest)

/-- `*p >= 0x80 && *p < 0xc0`. -/
def isTail (b : UInt8) : Bool := 0x80 ≤ b.toNat && b.toNat < 0xc0

/-- The bytes `JS_NewStringLen` passes over for one invalid character. -/
def skipInvalid (p : Bytes) : Bytes :=
  match p.dropWhile isTail with
  | [] => []
  | _ :: q => q.dropWhile isTail

/-- The loop of `JS_NewStringLen`. Every round takes at least one byte, so as much fuel as there are
bytes reads them all. -/
def newStringLoop : Nat → Bytes → JsString
  | 0, _ => []
  | _ + 1, [] => []
  | fuel + 1, b :: p =>
    if b.toNat < 0x80 then UInt16.ofNat b.toNat :: newStringLoop fuel p
    else
      match unicodeFromUtf8 (b :: p) with
      | some (c, rest) =>
        if c < 0x10000 then UInt16.ofNat c :: newStringLoop fuel rest
        else if c ≤ 0x10ffff then
          UInt16.ofNat (((c - 0x10000) >>> 10) + 0xd800) ::
            UInt16.ofNat (((c - 0x10000) &&& 0x3ff) + 0xdc00) :: newStringLoop fuel rest
        else 0xfffd :: newStringLoop fuel (skipInvalid (b :: p))
      | none => 0xfffd :: newStringLoop fuel (skipInvalid (b :: p))

/-- `c >= 0xd800 && c < 0xdc00`. -/
def isHigh (c : UInt16) : Bool := 0xd800 ≤ c.toNat && c.toNat < 0xdc00

/-- `c >= 0xdc00 && c < 0xe000`. -/
def isLow (c : UInt16) : Bool := 0xdc00 ≤ c.toNat && c.toNat < 0xe000

/-- The code point of a surrogate pair. -/
def pairCode (c c1 : UInt16) : Nat :=
  (((c.toNat &&& 0x3ff) <<< 10) ||| (c1.toNat &&& 0x3ff)) + 0x10000

end Utf8

open Utf8

/-- `JS_NewStringLen`: the string of a buffer. -/
def newStringLen (buf : Bytes) : JsString := newStringLoop buf.length buf

/-- `JS_ToCStringLen` on a string: its bytes. An unmatched surrogate keeps its code point. -/
def toCStringLen : JsString → Bytes
  | [] => []
  | [c] => unicodeToUtf8 c.toNat
  | c :: c1 :: s =>
    if isHigh c && isLow c1 then unicodeToUtf8 (pairCode c c1) ++ toCStringLen s
    else unicodeToUtf8 c.toNat ++ toCStringLen (c1 :: s)

/-- The loop of `isUtf8`. Every round takes at least one byte. -/
def utf8Loop : Nat → Bytes → Bool
  | _, [] => true
  | 0, _ :: _ => false
  | fuel + 1, b :: p =>
    match unicodeFromUtf8 (b :: p) with
    | some (c, rest) => (c < 0xd800 || (0xe000 ≤ c && c ≤ 0x10ffff)) && utf8Loop fuel rest
    | none => false

/-- The bytes are UTF-8, which has no code points of surrogates. -/
def isUtf8 (b : Bytes) : Bool := utf8Loop b.length b

/-- What C code sees of a buffer that it measures with `strlen`: the bytes before the first NUL. -/
def cString (buf : Bytes) : Bytes := buf.takeWhile (· ≠ 0)

/-- A buffer read with one character for each byte (ISO 8859-1). -/
def latin1 (buf : Bytes) : JsString := buf.map fun b => UInt16.ofNat b.toNat

end BeamJS
