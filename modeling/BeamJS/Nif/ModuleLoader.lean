import BeamJS.Js.JsString
import BeamJS.Lib.LexPath

/-!
# Module names

`beamjs_module_normalize` and the lookup of `quickjs.c` by the name that it makes. Names and
specifiers are C strings, given by their bytes before the NUL.
-/

namespace BeamJS

open Lib

/-- `'/'`. -/
def slash : UInt8 := 47

/-- `name[0] == '.' && (name[1] == '/' || (name[1] == '.' && name[2] == '/'))`. -/
def isRelative : Bytes → Bool
  | 46 :: 47 :: _ => true
  | 46 :: 46 :: 47 :: _ => true
  | _ => false

/-- The first `dir_len` bytes of `base_name`: those before its last slash, and none where it has no
slash. -/
def dirText (base : Bytes) : Bytes := ((base.reverse.dropWhile (· ≠ slash)).drop 1).reverse

/-- What `beamjs_module_normalize` puts before a relative specifier. -/
def dirPrefix (base : Bytes) : Bytes :=
  if dirText base = [] then [] else dirText base ++ [slash]

/-- `beamjs_module_normalize`. -/
def moduleNormalize (base name : Bytes) : Bytes :=
  if (bytes "beamjs:").isPrefixOf name then name
  else if isRelative name then dirPrefix base ++ name
  else name

/-- A segment of a path. -/
abbrev Segment := Bytes

/-- `.` and `..` are no names. -/
def moveOf (s : Segment) : Move Segment :=
  if s = [46] then .stay else if s = [46, 46] then .up else .into s

/-- The moves of a text. -/
def moves (p : Bytes) : List (Move Segment) := (segments slash p).map moveOf

end BeamJS
