import BeamJS.Js.Json

/-!
# `expect(value).toEqual(expected)`

The matcher compares JSON texts. Where two values are deep-equal can be seen from three comparisons,
each made wherever both values have something at the same place: of what JSON shows, of what it
hides, and of the order in which it lists the properties.
-/

namespace BeamJS

open Lib

/-- `toEqual(expected)` of `expect(value)`: the message of its exception. -/
def toEqual (nt : NumberText) (value expected : JsValue) : Except JsString Unit :=
  match stringify nt value, stringify nt expected with
  | .error message, _ => .error message
  | .ok _, .error message => .error message
  | .ok got, .ok want =>
    if got = want then .ok ()
    else .error (js "Expected " ++ want.getD (js "undefined") ++ js ", got " ++
      got.getD (js "undefined"))

/-- The matcher decides deep equality of the two values. -/
def DecidesDeepEq (nt : NumberText) (value expected : JsValue) : Prop :=
  toEqual nt value expected = .ok () ↔ value.deepEq expected = true

namespace JsValue

mutual

/-- The test holds of the values, and of all elements and properties at the same place in both. -/
def everywhere (test : JsValue → JsValue → Bool) : JsValue → JsValue → Bool
  | .array xs, .array ys => test (.array xs) (.array ys) && everywhereElems test xs ys
  | .object p ps, .object q qs => test (.object p ps) (.object q qs) && everywhereProps test ps qs
  | v, w => test v w

/-- Elements are at the same place if they have the same index. -/
def everywhereElems (test : JsValue → JsValue → Bool) : List JsValue → List JsValue → Bool
  | x :: xs, y :: ys => everywhere test x y && everywhereElems test xs ys
  | _, _ => true

/-- Properties are at the same place if they have the same name. -/
def everywhereProps (test : JsValue → JsValue → Bool) :
    List (JsString × JsValue) → List (JsString × JsValue) → Bool
  | [], _ => true
  | (k, v) :: ps, qs =>
    (match qs.lookup k with
      | some w => everywhere test v w
      | none => true) && everywhereProps test ps qs

end

/-- The names of the properties that JSON shows, in order. -/
def shownNames (props : List (JsString × JsValue)) : List JsString :=
  Assoc.keys (props.filter fun e => e.2.isShown)

/-- The names of the properties that JSON leaves out. -/
def hiddenNames (props : List (JsString × JsValue)) : List JsString :=
  Assoc.keys (props.filter fun e => !e.2.isShown)

/-- The same names, in any order. -/
def sameNames (ks ls : List JsString) : Bool := ks.all (ls.contains ·) && ls.all (ks.contains ·)

/-- JSON has `null` for it in an array. -/
def showsNull : JsValue → Bool
  | .undefined | .null => true
  | .number n => !n.toDouble.isFinite
  | _ => false

/-- `+0` or `-0`. -/
def isZero (n : JsNumber) : Bool := n.toDouble == .negZero || n.toDouble == .finite .zero

/-- Two values show the same, up to the elements and properties of both. -/
def showsSame : JsValue → JsValue → Bool
  | .array xs, .array ys => xs.length == ys.length
  | .object _ ps, .object _ qs => sameNames (shownNames ps) (shownNames qs)
  | .bool b, .bool c => b == c
  | .string s, .string t => s == t
  | .number m, .number n =>
    m.toDouble == n.toDouble || (isZero m && isZero n) ||
      (!m.toDouble.isFinite && !n.toDouble.isFinite)
  | v, w => v.showsNull && w.showsNull

/-- Two values do not differ in what JSON hides: the kinds of `null`, the sign of zero, and the
properties with the value `undefined`. -/
def hidesSame : JsValue → JsValue → Bool
  | .object _ ps, .object _ qs => sameNames (hiddenNames ps) (hiddenNames qs)
  | .undefined, .undefined | .null, .null => true
  | .number m, .number n =>
    m.toDouble == n.toDouble || !((isZero m && isZero n) ||
      (!m.toDouble.isFinite && !n.toDouble.isFinite))
  | v, w => !(v.showsNull && w.showsNull)

/-- Two objects list their shown properties in the same order. -/
def listsSame : JsValue → JsValue → Bool
  | .object _ ps, .object _ qs => shownNames ps == shownNames qs
  | _, _ => true

/-- The values show the same in JSON, up to the order of properties. -/
def sameShown (a b : JsValue) : Bool := a.isShown == b.isShown && everywhere showsSame a b

/-- The values agree in what JSON hides. -/
def sameHidden (a b : JsValue) : Bool := everywhere hidesSame a b

/-- The values list what JSON shows in the same order. -/
def sameOrder (a b : JsValue) : Bool := everywhere listsSame a b

end JsValue

end BeamJS
