import BeamJS.Stdlib.Pipe
import BeamJS.Stdlib.Proofs.MatchProofs

/-!
# Proofs: `match` of `beamjs:pipe`

The copy of `matchPattern` in `pipe.js` matches a pattern as the one in `match.js` matches `inPipe`
of it. The two loops then agree, for all handlers and guards, on exactly the patterns that the value
reads alike.
-/

namespace BeamJS

open Lib JsValue

section Pipe

variable {realm : Realm} {value : JsValue}

/-- A turn over the keys is one of `matchProps` where the tests are the same. -/
theorem matchProps_cons (key : JsString) (p : Pattern) (props : List (JsString × Pattern))
    (v b : JsValue) :
    matchProps realm ((key, p) :: props) v b =
      keyTurn realm key (matchPattern realm p) (matchProps realm props v) v b := rfl

/-- `pipe.js` matches `p` as `match.js` matches the pattern it reads. -/
def ReadInPipe (realm : Realm) (p : Pattern) : Prop :=
  pipePattern realm p = matchPattern realm p.inPipe

theorem pipeElems_eq {elems : List Pattern} (ih : ∀ p ∈ elems, ReadInPipe realm p) (i : ℕ) :
    pipeElems realm i elems = matchProps realm (Pattern.elemsInPipe i elems) := by
  induction elems generalizing i with
  | nil => rfl
  | cons p elems ihs =>
    obtain ⟨hp, helems⟩ := List.forall_mem_cons.mp ih
    funext v b
    rw [Pattern.elemsInPipe, matchProps_cons, pipeElems, hp, ihs helems]

theorem pipeProps_eq {props : List (JsString × Pattern)} (ih : ∀ e ∈ props, ReadInPipe realm e.2) :
    pipeProps realm props = matchProps realm (Pattern.propsInPipe props) := by
  induction props with
  | nil => rfl
  | cons e props ihs =>
    obtain ⟨hp, hprops⟩ := List.forall_mem_cons.mp ih
    funext v b
    rw [Pattern.propsInPipe, matchProps_cons, pipeProps, hp, ihs hprops]

theorem pipePattern_eq (p : Pattern) : ReadInPipe realm p := by
  induction p using Pattern.induction_on with
  | wildcard | rest | bind | guard | prim => rfl
  | array elems ih =>
    funext v b
    rw [pipePattern, pipeElems_eq ih, Pattern.inPipe, matchPattern]
  | object props ih =>
    funext v b
    rw [pipePattern, pipeProps_eq ih, Pattern.inPipe, matchPattern]

/-! ## The two loops -/

section Loops

variable {test test' : Pattern → JsValue → JsValue → Bool × JsValue} {message message' : JsString}

/-- A clause that hands out its bindings. -/
def returning (p : Pattern) : Clause := ⟨p, id, none⟩

end Loops

/-! ## What the patterns decide -/

theorem readAlike_iff {p : Pattern} :
    ReadAlike realm value p ↔ ∀ o, pipePattern realm p value emptyObject = (true, o) ↔
      matchPattern realm p value emptyObject = (true, o) := by
  refine forall_congr' fun o => ?_
  rw [pipePattern_eq p, matchPattern_iff p, matchPattern_iff p.inPipe]
  exact ⟨Iff.symm, Iff.symm⟩

theorem propsInPipe_of_shared {props : List (JsString × Pattern)}
    (ih : ∀ e ∈ props, e.2.isShared = true → e.2.inPipe = e.2)
    (h : Pattern.propsShared props = true) : Pattern.propsInPipe props = props := by
  induction props with
  | nil => rfl
  | cons e props ihs =>
    obtain ⟨he, hprops⟩ := List.forall_mem_cons.mp ih
    obtain ⟨hp, hps⟩ := Bool.and_eq_true_iff.mp h
    rw [Pattern.propsInPipe, he hp, ihs hprops hps]

/-- Every value reads alike the patterns that both copies know. -/
theorem readAlike_of_shared {p : Pattern} (h : p.isShared = true) : ReadAlike realm value p := by
  have heq : p.inPipe = p := by
    induction p using Pattern.induction_on with
    | bind | rest | prim => rfl
    | object props ih => rw [Pattern.inPipe, propsInPipe_of_shared ih h]
    | wildcard | guard | array => cases h
  intro o
  rw [heq]

/-- Of all values, the symbol that stands for `_` is the only one to read `_` alike. -/
theorem readAlike_wildcard : ReadAlike realm value .wildcard ↔ value = wildcardSymbol := by
  rw [readAlike_iff]
  constructor
  · intro h
    have htest : value.strictEq wildcardSymbol = true :=
      congrArg Prod.fst ((h emptyObject).mpr rfl)
    cases value with
    | symbol i =>
      simp only [strictEq, wildcardSymbol, beq_iff_eq] at htest
      rw [htest, wildcardSymbol]
    | _ => simp [strictEq, wildcardSymbol] at htest
  · rintro rfl o
    exact Iff.rfl

end Pipe

end BeamJS
