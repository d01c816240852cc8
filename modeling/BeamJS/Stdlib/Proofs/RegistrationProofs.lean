import BeamJS.Stdlib.Registration
import BeamJS.Cli.Proofs.TestProofs

/-!
# Proofs: a test file without its nesting

The calls of a file are those of its leaves, up to the leaf that throws.
-/

namespace BeamJS

open Lib

variable {σ : Type} {w w' : TestWorld σ} {leaves rest : List (ScopedLeaf σ)}

/-! ## Calls -/

theorem testsOf_append (leaves rest : List (ScopedLeaf σ)) :
    testsOf (leaves ++ rest) = testsOf leaves ++ testsOf rest := List.filterMap_append

theorem callsOf_append (known : List (TestCase σ)) (leaves rest : List (ScopedLeaf σ)) :
    callsOf known (leaves ++ rest) =
      callsOf known leaves ++ callsOf (known ++ testsOf leaves) rest := by
  induction leaves generalizing known with
  | nil => simp [callsOf, testsOf]
  | cons l leaves ih =>
    rw [List.cons_append, callsOf, callsOf, ih, List.append_assoc, List.append_assoc,
      ← testsOf_append]
    rfl

theorem performAll_append (calls calls' : List (TestCall σ)) :
    performAll (calls ++ calls') = (do performAll calls; performAll calls') :=
  Stateful.forEach_append TestCall.perform calls calls'

/-! ## Leaves one after another -/

theorem unnests_nil (w : TestWorld σ) : Unnests w [] (.ok (), w) where
  performs := rfl
  returns _ := ⟨(List.append_nil _).symm, rfl⟩
  throws _ h := by cases h

/-- More leaves after some that do not throw. -/
theorem Unnests.append {r : Except EvalValue Unit × TestWorld σ} (h : Unnests w leaves (.ok (), w'))
    (hrest : Unnests w' rest r) : Unnests w (leaves ++ rest) r := by
  obtain ⟨htests, hscope⟩ := h.returns rfl
  have hcalls : ∀ ls : List (ScopedLeaf σ),
      performAll (callsOf w.suite.tests (leaves ++ ls)) w.callState =
        performAll (callsOf w'.suite.tests ls) w'.callState := by
    intro ls
    rw [callsOf_append, performAll_append, ← htests]
    exact Stateful.bind_ok h.performs
  refine ⟨(hcalls rest).trans hrest.performs, fun hr => ?_, fun exc hr => ?_⟩
  · obtain ⟨htests', hscope'⟩ := hrest.returns hr
    exact ⟨by rw [htests', htests, testsOf_append, List.append_assoc], hscope'.trans hscope⟩
  · obtain ⟨before, l, after, hsplit, hbefore, htests', hscope'⟩ := hrest.throws exc hr
    refine ⟨leaves ++ before, l, after, ?_, ?_, ?_, hscope'⟩
    · rw [hsplit, List.append_assoc]
    · rw [hcalls]
      exact hbefore
    · rw [htests', htests, testsOf_append, List.append_assoc]

/-- Leaves after one that throws are not reached. -/
theorem Unnests.stop {exc : EvalValue} (h : Unnests w leaves (.error exc, w')) :
    Unnests w (leaves ++ rest) (.error exc, w') := by
  refine ⟨?_, (fun hr => by cases hr), fun exc' hr => ?_⟩
  · rw [callsOf_append, performAll_append]
    exact Stateful.bind_error h.performs
  · obtain ⟨before, l, after, hsplit, hbefore⟩ := h.throws exc' hr
    exact ⟨before, l, after ++ rest, by simp [hsplit], hbefore⟩

/-! ## Statements -/

theorem unnests_it (w : TestWorld σ) (name : JsString) (fn : σ → TestEnd × σ) :
    Unnests w [⟨w.suite.currentDescribe, .it name fn⟩] (.ok (), w.it name fn) where
  performs := rfl
  returns _ := ⟨rfl, rfl⟩
  throws _ h := by cases h

/-- A leaf that registers nothing. -/
theorem unnests_single {l : Leaf σ} {r : Except EvalValue Unit × TestWorld σ}
    (hl : (ScopedLeaf.mk w.suite.currentDescribe l).test? = none)
    (hcalls : performAll (l.calls w.suite.tests) w.callState = (r.1, r.2.callState))
    (htests : r.2.suite.tests = w.suite.tests)
    (hscope : r.2.suite.currentDescribe = w.suite.currentDescribe) :
    Unnests w [⟨w.suite.currentDescribe, l⟩] r where
  performs := by
    rw [callsOf, callsOf, List.append_nil]
    exact hcalls
  returns _ := by
    rw [testsOf, List.filterMap_cons_none hl]
    exact ⟨by rw [htests, List.filterMap_nil, List.append_nil], hscope⟩
  throws _ _ := ⟨[], _, [], rfl, rfl, by rw [htests]; exact (List.append_nil _).symm, hscope⟩

/-- The loop of `run` calls the tests and leaves the registration alone. -/
theorem performAll_runTests (tests : List (TestCase σ)) (w : TestWorld σ) :
    performAll (tests.map .test) w.callState =
        ((w.runTests tests).1, (w.runTests tests).2.callState) ∧
      (w.runTests tests).2.suite.tests = w.suite.tests ∧
      (w.runTests tests).2.suite.currentDescribe = w.suite.currentDescribe := by
  induction tests generalizing w with
  | nil => exact ⟨rfl, rfl, rfl⟩
  | cons t tests ih =>
    have hturn : (TestCall.test t).perform w.callState =
          ((w.runTest t).1, (w.runTest t).2.callState) ∧
        (w.runTest t).2.suite.tests = w.suite.tests ∧
        (w.runTest t).2.suite.currentDescribe = w.suite.currentDescribe := by
      unfold TestWorld.runTest
      dsimp only [TestWorld.callState, TestCall.perform]
      cases (t.fn w.state).1 <;> exact ⟨rfl, rfl, rfl⟩
    obtain ⟨hcall, htests, hscope⟩ := hturn
    rw [TestWorld.runTests]
    rcases hrun : w.runTest t with ⟨ended, w₁⟩
    rw [hrun] at hcall htests hscope
    cases ended with
    | ok =>
      obtain ⟨hcalls, htests', hscope'⟩ := ih w₁
      exact ⟨(Stateful.bind_ok hcall).trans hcalls, htests'.trans htests, hscope'.trans hscope⟩
    | error exc => exact ⟨Stateful.bind_error hcall, htests, hscope⟩

theorem unnests_run (w : TestWorld σ) : Unnests w [⟨w.suite.currentDescribe, .run⟩] w.run := by
  have hloop := performAll_runTests w.suite.tests
    { w with suite := { w.suite with passed := 0, failed := 0, errors := [] } }
  have hrun : w.run.1 = (TestWorld.runTests
        { w with suite := { w.suite with passed := 0, failed := 0, errors := [] } }
        w.suite.tests).1 ∧
      w.run.2.callState = (TestWorld.runTests
        { w with suite := { w.suite with passed := 0, failed := 0, errors := [] } }
        w.suite.tests).2.callState ∧
      w.run.2.suite = (TestWorld.runTests
        { w with suite := { w.suite with passed := 0, failed := 0, errors := [] } }
        w.suite.tests).2.suite := by
    unfold TestWorld.run
    dsimp only
    split
    · rename_i w' heq
      exact ⟨by rw [heq], by rw [heq]; rfl, by rw [heq]⟩
    · rename_i exc w' heq
      exact ⟨by rw [heq], by rw [heq], by rw [heq]⟩
  obtain ⟨hended, hstate, hsuite⟩ := hrun
  obtain ⟨hcalls, htests, hscope⟩ := hloop
  refine unnests_single rfl ?_ (by rw [hsuite, htests]) (by rw [hsuite, hscope])
  rw [hended, hstate]
  exact hcalls

/-- A `describe` sets the name for its body, and sets it back if nothing is thrown. -/
theorem unnests_describe {name : JsString} {body : List (TestStmt σ)}
    (h : Unnests { w with suite := { w.suite with currentDescribe := some name } } leaves
      (TestStmt.execAll { w with suite := { w.suite with currentDescribe := some name } } body)) :
    Unnests w leaves (TestStmt.exec w (.describe name body)) := by
  rw [TestStmt.exec]
  dsimp only
  split
  · rename_i w' heq
    rw [heq] at h
    exact ⟨h.performs, fun _ => ⟨(h.returns rfl).1, rfl⟩, fun _ hr => by cases hr⟩
  · rename_i exc w' heq
    rw [heq] at h
    exact ⟨h.performs, (fun hr => by cases hr), h.throws⟩

theorem unnests_execAll {stmts : List (TestStmt σ)}
    (ih : ∀ s ∈ stmts, ∀ w : TestWorld σ,
      Unnests w (s.leaves w.suite.currentDescribe) (TestStmt.exec w s)) (w : TestWorld σ) :
    Unnests w (TestStmt.leavesAll w.suite.currentDescribe stmts) (TestStmt.execAll w stmts) := by
  induction stmts generalizing w with
  | nil => exact unnests_nil w
  | cons s stmts ihs =>
    obtain ⟨hs, hstmts⟩ := List.forall_mem_cons.mp ih
    have hstep := hs w
    rw [TestStmt.execAll, TestStmt.leavesAll]
    split
    · rename_i w' heq
      rw [heq] at hstep
      have hrest := ihs hstmts w'
      rw [(hstep.returns rfl).2] at hrest
      exact hstep.append hrest
    · rename_i exc w' heq
      rw [heq] at hstep
      exact hstep.stop

theorem unnests_exec (s : TestStmt σ) (w : TestWorld σ) :
    Unnests w (s.leaves w.suite.currentDescribe) (TestStmt.exec w s) := by
  induction s using TestStmt.induction_on generalizing w with
  | it name fn =>
    rw [TestStmt.leaves, TestStmt.exec]
    exact unnests_it w name fn
  | describe name body ih =>
    rw [TestStmt.leaves]
    exact unnests_describe (unnests_execAll ih
      { w with suite := { w.suite with currentDescribe := some name } })
  | run =>
    rw [TestStmt.leaves, TestStmt.exec]
    exact unnests_run w
  | other code =>
    rw [TestStmt.leaves, TestStmt.exec]
    refine unnests_single rfl ?_ rfl rfl
    rcases hrun : code w.state with ⟨ended, s⟩
    have hcall : (TestCall.code code).perform w.callState = (ended, (s, w.log)) := by
      simp [TestCall.perform, TestWorld.callState, hrun]
    cases ended with
    | ok => exact Stateful.bind_ok hcall
    | error exc => exact Stateful.bind_error hcall

/-- However the calls of `describe`, `it` and `run` are nested in a test file and wherever it
throws: the file performs the calls of its leaves in their order, each `run` calling once every test
that is registered by then, and each test has the name of the innermost `describe` around it. -/
theorem tests_unnest (stmts : List (TestStmt σ)) (w : TestWorld σ) :
    Unnests w (TestStmt.leavesAll w.suite.currentDescribe stmts) (TestStmt.execAll w stmts) :=
  unnests_execAll (fun s _ => unnests_exec s) w

example (f : σ → TestEnd × σ) : (testsOf (TestStmt.leavesAll none [.describe (js "a")
    [.describe (js "b") [.it (js "x") f], .it (js "y") f]])).map TestCase.name =
      [js "b > x", js "a > y"] := rfl

end BeamJS
