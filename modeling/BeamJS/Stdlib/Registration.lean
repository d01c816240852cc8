import BeamJS.Lib.Stateful
import BeamJS.Stdlib.Test

/-!
# A test file without its nesting

What the calls of `describe`, `it` and `run` in a test file come to: a list of the statements in
them, each under the name of the innermost `describe` around it, and from it the functions that are
called.
-/

namespace BeamJS

open Lib

variable {σ : Type}

/-- A statement with no other statements in it. -/
inductive Leaf (σ : Type) where
  | it (name : JsString) (fn : σ → TestEnd × σ)
  | run
  | other (code : σ → Except EvalValue Unit × σ)

/-- A leaf, and the name of the innermost `describe` around it. -/
structure ScopedLeaf (σ : Type) where
  scope : Option JsString
  leaf : Leaf σ

mutual

/-- The leaves of a statement. The name of an outer `describe` does not count in an inner one. -/
def TestStmt.leaves (scope : Option JsString) : TestStmt σ → List (ScopedLeaf σ)
  | .it name fn => [⟨scope, .it name fn⟩]
  | .describe name body => leavesAll (some name) body
  | .run => [⟨scope, .run⟩]
  | .other code => [⟨scope, .other code⟩]

/-- The leaves of statements in order. -/
def TestStmt.leavesAll (scope : Option JsString) : List (TestStmt σ) → List (ScopedLeaf σ)
  | [] => []
  | s :: stmts => s.leaves scope ++ leavesAll scope stmts

end

/-- The test that a leaf registers. -/
def ScopedLeaf.test? (l : ScopedLeaf σ) : Option (TestCase σ) :=
  match l.leaf with
  | .it name fn => some ⟨fullName l.scope name, fn⟩
  | _ => none

/-- The tests that leaves register, in order. -/
def testsOf (leaves : List (ScopedLeaf σ)) : List (TestCase σ) :=
  leaves.filterMap ScopedLeaf.test?

/-- A call of the function of a test in `run`, or of other code. -/
inductive TestCall (σ : Type) where
  | test (t : TestCase σ)
  | code (f : σ → Except EvalValue Unit × σ)

/-- The calls of a leaf, with the tests `known`: a `run` calls each of them once. -/
def Leaf.calls (known : List (TestCase σ)) : Leaf σ → List (TestCall σ)
  | .it _ _ => []
  | .run => known.map .test
  | .other code => [.code code]

/-- The calls of leaves, from the tests `known` on. -/
def callsOf (known : List (TestCase σ)) : List (ScopedLeaf σ) → List (TestCall σ)
  | [] => []
  | l :: leaves => l.leaf.calls known ++ callsOf (known ++ testsOf [l]) leaves

/-- Whether the end of a test goes on out of `run`. -/
def TestEnd.passedOn : TestEnd → Except EvalValue Unit
  | .breaks exc => .error exc
  | _ => .ok ()

/-- One call, on the state and the ends of the tests so far. -/
def TestCall.perform (c : TestCall σ) : Stateful (σ × List TestEnd) EvalValue Unit := fun (s, log) =>
  match c with
  | .test t => ((t.fn s).1.passedOn, ((t.fn s).2, log ++ [(t.fn s).1]))
  | .code f => ((f s).1, ((f s).2, log))

/-- The calls in order, up to one that throws. -/
def performAll (calls : List (TestCall σ)) : Stateful (σ × List TestEnd) EvalValue Unit :=
  Stateful.forEach TestCall.perform calls

/-- The part of a world on which calls are performed. -/
def TestWorld.callState (w : TestWorld σ) : σ × List TestEnd := (w.state, w.log)

/-- From `w`, the leaves end as `r` does. They perform their calls. If no call throws, all their
tests are registered, and `_currentDescribe` is as before. If one does, it is in a leaf up to which
all tests are registered, and whose `describe` stays in `_currentDescribe`. -/
structure Unnests (w : TestWorld σ) (leaves : List (ScopedLeaf σ))
    (r : Except EvalValue Unit × TestWorld σ) : Prop where
  performs : performAll (callsOf w.suite.tests leaves) w.callState = (r.1, r.2.callState)
  returns : r.1 = .ok () → r.2.suite.tests = w.suite.tests ++ testsOf leaves ∧
    r.2.suite.currentDescribe = w.suite.currentDescribe
  throws : ∀ exc, r.1 = .error exc → ∃ before l after, leaves = before ++ l :: after ∧
    (performAll (callsOf w.suite.tests before) w.callState).1 = .ok () ∧
    r.2.suite.tests = w.suite.tests ++ testsOf before ∧ r.2.suite.currentDescribe = l.scope

end BeamJS
