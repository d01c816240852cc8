import BeamJS.Stdlib.Match

/-!
# `match` of `beamjs:pipe`

`pipe.js` has its own copy of `matchPattern`, without the branches for `_`, guards and arrays: it
compares the first and takes the others as objects.
-/

namespace BeamJS

open Lib JsValue

section Pipe

variable (realm : Realm)

/-- A turn of the loop over `Object.keys(pattern)`. -/
def keyTurn (key : JsString) (test : JsValue → JsValue → Bool × JsValue)
    (next : JsValue → Bool × JsValue) (value bindings : JsValue) : Bool × JsValue :=
  match realm.get? key value with
  | none => (false, bindings)
  | some v =>
    match test v bindings with
    | (true, bindings) => next bindings
    | (false, bindings) => (false, bindings)

/-- The name of the element `i` of an array. -/
def indexKey (i : ℕ) : JsString := js (toString i)

mutual

/-- `matchPattern` of `pipe.js`. -/
def pipePattern (pattern : Pattern) (value bindings : JsValue) : Bool × JsValue :=
  match pattern with
  | .bind name => (true, bindings.setProp name value)
  | .wildcard => (value.strictEq wildcardSymbol, bindings)
  | .rest => (value.strictEq restSymbol, bindings)
  | .prim v => (value.strictEq v, bindings)
  | .guard id _ =>
    if value.typeofObject then
      keyTurn realm (js "__type") (fun v b => (v.strictEq (.string (js "guard")), b))
        (fun b => keyTurn realm (js "predicate") (fun v b => (v.strictEq (.func id), b))
          (fun b => (true, b)) value b) value bindings
    else (false, bindings)
  | .array elems => if value.typeofObject then pipeElems 0 elems value bindings else (false, bindings)
  | .object props => if value.typeofObject then pipeProps props value bindings else (false, bindings)

/-- The loop over the keys of an array pattern, from the element `i` on. -/
def pipeElems (i : ℕ) (elems : List Pattern) (value bindings : JsValue) : Bool × JsValue :=
  match elems with
  | [] => (true, bindings)
  | p :: elems =>
    keyTurn realm (indexKey i) (pipePattern p) (pipeElems (i + 1) elems value) value bindings

/-- The loop over the keys of an object pattern. -/
def pipeProps (props : List (JsString × Pattern)) (value bindings : JsValue) : Bool × JsValue :=
  match props with
  | [] => (true, bindings)
  | (key, p) :: props => keyTurn realm key (pipePattern p) (pipeProps props value) value bindings

end

/-- `Pipeline`. -/
structure Pipeline where
  value : JsValue

/-- `pipe(value)`. -/
def pipe (value : JsValue) : Pipeline := ⟨value⟩

/-- The `match` method of a `Pipeline`. -/
def Pipeline.matchClauses (pipeline : Pipeline)
    (clauses : List Clause) : Except JsString Pipeline :=
  (clauseLoop realm (pipePattern realm) (js "No matching clause in pipe for: ") pipeline.value 0
    clauses).result.map Pipeline.mk

/-- `pipe(value).match(clauses).value()` returns what `match(value, clauses)` returns, and throws
where that one throws. -/
def Agree (value : JsValue) (clauses : List Clause) : Prop :=
  (∀ r, ((pipe value).matchClauses realm clauses).map Pipeline.value = .ok r ↔
    (matchClauses realm value clauses).result = .ok r) ∧
  ((∃ m, (pipe value).matchClauses realm clauses = .error m) ↔
    ∃ m, (matchClauses realm value clauses).result = .error m)

/-! ## The pattern as `pipe.js` reads it -/

mutual

/-- `_` as a symbol to compare with, a guard and an array as objects with their properties. -/
def Pattern.inPipe : Pattern → Pattern
  | .wildcard => .prim wildcardSymbol
  | .rest => .rest
  | .bind name => .bind name
  | .guard id _ =>
    .object [(js "__type", .prim (.string (js "guard"))), (js "predicate", .prim (.func id))]
  | .prim v => .prim v
  | .array elems => .object (elemsInPipe 0 elems)
  | .object props => .object (propsInPipe props)

/-- The elements of an array pattern from `i` on. -/
def Pattern.elemsInPipe (i : ℕ) : List Pattern → List (JsString × Pattern)
  | [] => []
  | p :: elems => (indexKey i, Pattern.inPipe p) :: elemsInPipe (i + 1) elems

/-- The properties of an object pattern. -/
def Pattern.propsInPipe : List (JsString × Pattern) → List (JsString × Pattern)
  | [] => []
  | (key, p) :: props => (key, Pattern.inPipe p) :: propsInPipe props

end

/-- The value matches the pattern as it stands and as `pipe.js` reads it with the same bindings, or
neither of them. -/
def ReadAlike (value : JsValue) (p : Pattern) : Prop :=
  ∀ o, (∃ bs, Matches realm value p bs ∧ o = assigned bs) ↔
    ∃ bs, Matches realm value p.inPipe bs ∧ o = assigned bs

end Pipe

mutual

/-- Built from `bind`, `REST`, primitives and objects, which both copies know. -/
def Pattern.isShared : Pattern → Bool
  | .bind _ | .rest | .prim _ => true
  | .object props => propsShared props
  | _ => false

/-- All the properties of an object pattern. -/
def Pattern.propsShared : List (JsString × Pattern) → Bool
  | [] => true
  | (_, p) :: props => Pattern.isShared p && propsShared props

end

end BeamJS
