import BeamJS.Js.PlainData
import BeamJS.Nif.TermConvert

/-!
# What survives the two conversions

A payload travels as `erlTermToJs (jsValueToErl v)`. `Transportable` says which plain data arrives
as it was sent: no array of it is an iolist, and the receiving runtime reads every name of a
property back as that name.
-/

namespace BeamJS

open JsValue

/-- The receiver obtains a value deep-equal to `v`. -/
def Arrives (ord : MapOrder) (known : Atoms) (v : JsValue) : Prop :=
  ∃ t, jsValueToErl ord v = some t ∧ deepEq (erlTermToJs known t).1 v = true

/-- A whole number from 0 to 255. -/
def isByte (n : JsNumber) : Bool :=
  match n.toDouble with
  | .finite q => isWholeInt32 q && 0 ≤ truncate q && truncate q ≤ 255
  | _ => false

mutual

/-- Data that may stand in an iolist: a byte, a string, or an array of such data. -/
def isByteData : JsValue → Bool
  | .number n => isByte n
  | .string _ => true
  | .array elems => allByteData elems
  | _ => false

/-- An array with these elements is an iolist. The empty array is one. -/
def allByteData : List JsValue → Bool
  | [] => true
  | v :: vs => isByteData v && allByteData vs

end

mutual

/-- No array in the value is an iolist. -/
def keepsArrays : JsValue → Bool
  | .array elems => !allByteData elems && allKeepArrays elems
  | .object _ props => propsKeepArrays props
  | _ => true

/-- No array in the elements is an iolist. -/
def allKeepArrays : List JsValue → Bool
  | [] => true
  | v :: vs => keepsArrays v && allKeepArrays vs

/-- No array in the properties is an iolist. -/
def propsKeepArrays : List (JsString × JsValue) → Bool
  | [] => true
  | (_, v) :: props => keepsArrays v && propsKeepArrays props

end

mutual

/-- The names of the properties in the value, in the order in which the receiver reads them: the
maps in the order of their iteration, and a name after the value that it belongs to. -/
def readOrder (ord : MapOrder) : JsValue → List JsString
  | .array elems => readOrderElems ord elems
  | .object _ props => (ord.arrange (readOrderProps ord props)).flatMap Prod.snd
  | _ => []

/-- The names in the elements of an array. -/
def readOrderElems (ord : MapOrder) : List JsValue → List JsString
  | [] => []
  | v :: vs => readOrder ord v ++ readOrderElems ord vs

/-- The names in each property of an object. -/
def readOrderProps (ord : MapOrder) : List (JsString × JsValue) → List (Bytes × List JsString)
  | [] => []
  | (k, v) :: props => (toCStringLen k, readOrder ord v ++ [k]) :: readOrderProps ord props

end

/-- The name has a character outside ASCII, does not start with a digit, and the Latin-1 reading of
its UTF-8 form is known to the receiving runtime. -/
def Misread (known : Atoms) (k : JsString) : Prop :=
  (∃ c ∈ k, 0x80 ≤ c) ∧ startsWithDigit (toCStringLen k) = false ∧ latin1 (toCStringLen k) ∈ known

/-- A name that the receiver reads as itself and that makes a property of its own. -/
def NameKept (known : Atoms) (k : JsString) : Prop :=
  0 ∉ k ∧ k ≠ js "__proto__" ∧ ¬ Misread known k

/-- The names are kept when read one after another. -/
def NamesKept : Atoms → List JsString → Prop
  | _, [] => True
  | known, k :: ks => NameKept known k ∧ NamesKept (k :: known) ks

instance (known : Atoms) (k : JsString) : Decidable (Misread known k) :=
  inferInstanceAs (Decidable (_ ∧ _ ∧ _))

instance (known : Atoms) (k : JsString) : Decidable (NameKept known k) :=
  inferInstanceAs (Decidable (_ ∧ _ ∧ _))

instance decidableNamesKept : ∀ (known : Atoms) (ks : List JsString), Decidable (NamesKept known ks)
  | _, [] => isTrue trivial
  | known, k :: ks =>
    have := decidableNamesKept (k :: known) ks
    inferInstanceAs (Decidable (_ ∧ _))

/-- The value survives the transport to a runtime that knows the names `known`. -/
structure Transportable (ord : MapOrder) (known : Atoms) (v : JsValue) : Prop where
  /-- No array of it is taken for a string. -/
  arrays : keepsArrays v = true
  /-- Every name is kept. -/
  names : NamesKept known (readOrder ord v)

theorem transportable_iff {ord : MapOrder} {known : Atoms} {v : JsValue} :
    Transportable ord known v ↔ keepsArrays v = true ∧ NamesKept known (readOrder ord v) :=
  ⟨fun h => ⟨h.arrays, h.names⟩, fun h => ⟨h.1, h.2⟩⟩

instance (ord : MapOrder) (known : Atoms) (v : JsValue) : Decidable (Transportable ord known v) :=
  decidable_of_iff _ transportable_iff.symm

end BeamJS
