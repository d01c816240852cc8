import BeamJS.Stdlib.TestRun

/-!
# Proofs: tests that throw

The `catch` block survives exactly the values with a message to report. A run that meets no other
value goes through all tests and counts them.
-/

namespace BeamJS

/-! ## The `catch` block -/

/-- A reportable value is recorded as a failure. -/
theorem Thrown.caught_of_reportable {e : Thrown} (h : e.reportable = true) (stack : JsString) :
    ∃ message, e.caught stack = .fails message := by
  cases e with
  | undefined => cases h
  | null => cases h
  | object message printing =>
    cases message with
    | error exc => cases h
    | ok message =>
      cases printing with
      | some exc => cases h
      | none => exact ⟨message, rfl⟩
  | _ => exact ⟨.tree .undefined, rfl⟩

/-- Any other value makes the block throw. -/
theorem Thrown.caught_of_not_reportable {e : Thrown} (h : e.reportable = false)
    (stack : JsString) : ∃ exc, e.caught stack = .breaks exc := by
  cases e with
  | undefined => exact ⟨_, rfl⟩
  | null => exact ⟨_, rfl⟩
  | object message printing =>
    cases message with
    | error exc => exact ⟨exc, rfl⟩
    | ok message =>
      cases printing with
      | some exc => exact ⟨exc, rfl⟩
      | none => cases h
  | _ => cases h

section Tests

variable {σ : Type}

/-! ## The calls of the functions -/

theorem callEach_length (tests : List (JsTest σ)) (s : σ) :
    (callEach tests s).1.length = tests.length := by
  induction tests generalizing s with
  | nil => rfl
  | cons t tests ih => exact congrArg Nat.succ (ih (t.fn s).2)

/-- A test returns or throws. -/
theorem countP_isNone_add_isSome (ends : List (Option Thrown)) :
    ends.countP Option.isNone + ends.countP Option.isSome = ends.length := by
  induction ends with
  | nil => rfl
  | cons ended ends ih =>
    cases ended with
    | none => simp; omega
    | some e => simp; omega

/-- All values that are thrown can be reported. -/
def AllReportable (ends : List (Option Thrown)) : Prop :=
  ∀ e, some e ∈ ends → e.reportable = true

theorem allReportable_cons {ended : Option Thrown} {ends : List (Option Thrown)} :
    AllReportable (ended :: ends) ↔
      (∀ e, ended = some e → e.reportable = true) ∧ AllReportable ends := by
  constructor
  · intro h
    exact ⟨fun e he => h e (he ▸ List.mem_cons_self), fun e he => h e (List.mem_cons_of_mem _ he)⟩
  · rintro ⟨hhead, htail⟩ e he
    rcases List.mem_cons.mp he with he | he
    · exact hhead e he.symm
    · exact htail e he

/-! ## The loop -/

/-- The world `w'` is that after a loop over `tests` from `w` on which no exception has ended. -/
structure Ran (tests : List (JsTest σ)) (w w' : TestWorld σ) : Prop where
  state : w'.state = (callEach tests w.state).2
  registered : w'.suite.tests = w.suite.tests
  passed : w'.suite.passed = w.suite.passed + (callEach tests w.state).1.countP Option.isNone
  failed : w'.suite.failed = w.suite.failed + (callEach tests w.state).1.countP Option.isSome
  errors : w'.suite.errors.map Prod.fst =
    w.suite.errors.map Prod.fst ++ failedNames tests (callEach tests w.state).1

theorem Ran.nil (w : TestWorld σ) : Ran [] w w where
  state := rfl
  registered := rfl
  passed := rfl
  failed := rfl
  errors := (List.append_nil _).symm

/-- A turn of the loop that does not throw. -/
theorem ran_runTest (stack : JsString) (t : JsTest σ) (w : TestWorld σ)
    (h : ∀ e, (t.fn w.state).1 = some e → e.reportable = true) :
    ∃ w', w.runTest (t.toCase stack) = (.ok (), w') ∧ Ran [t] w w' := by
  rw [TestWorld.runTest, JsTest.toCase]
  dsimp only
  cases hend : t.fn w.state with
  | mk ended s =>
    rw [hend] at h
    cases ended with
    | none =>
      refine ⟨_, rfl, ?_, rfl, ?_, ?_, ?_⟩
      all_goals simp [callEach, hend, failedNames]
    | some e =>
      obtain ⟨message, hcaught⟩ := Thrown.caught_of_reportable (h e rfl) stack
      simp only [hcaught]
      refine ⟨_, rfl, ?_, rfl, ?_, ?_, ?_⟩
      all_goals simp [callEach, hend, failedNames]

/-- A turn of the loop on which a value is thrown that cannot be reported. -/
theorem runTest_throws (stack : JsString) (t : JsTest σ) (w : TestWorld σ) {e : Thrown}
    (he : (t.fn w.state).1 = some e) (h : e.reportable = false) :
    ∃ exc w', w.runTest (t.toCase stack) = (.error exc, w') := by
  obtain ⟨exc, hcaught⟩ := Thrown.caught_of_not_reportable h stack
  rw [TestWorld.runTest, JsTest.toCase]
  dsimp only
  cases hend : t.fn w.state with
  | mk ended s =>
    rw [hend] at he
    cases he
    simp only [hcaught]
    exact ⟨exc, _, rfl⟩

theorem Ran.cons {t : JsTest σ} {tests : List (JsTest σ)} {w w₁ w₂ : TestWorld σ}
    (hstep : Ran [t] w w₁) (hrest : Ran tests w₁ w₂) : Ran (t :: tests) w w₂ := by
  have hstate : w₁.state = (t.fn w.state).2 := hstep.state
  have hends : (callEach (t :: tests) w.state).1 =
      (t.fn w.state).1 :: (callEach tests w₁.state).1 := by rw [hstate]; rfl
  have hlast : (callEach (t :: tests) w.state).2 = (callEach tests w₁.state).2 := by
    rw [hstate]; rfl
  have hone : (callEach [t] w.state).1 = [(t.fn w.state).1] := rfl
  refine ⟨?_, ?_, ?_, ?_, ?_⟩
  · rw [hrest.state, hlast]
  · rw [hrest.registered, hstep.registered]
  · rw [hrest.passed, hstep.passed, hends, hone]
    simp only [List.countP_cons, List.countP_nil]
    omega
  · rw [hrest.failed, hstep.failed, hends, hone]
    simp only [List.countP_cons, List.countP_nil]
    omega
  · rw [hrest.errors, hstep.errors, hends, hone]
    cases (t.fn w.state).1 with
    | none => simp [failedNames]
    | some e => simp [failedNames]

/-- The loop goes through all tests if it meets no value that cannot be reported. -/
theorem ran_runTests (stack : JsString) {tests : List (JsTest σ)} {w : TestWorld σ}
    (h : AllReportable (callEach tests w.state).1) :
    ∃ w', w.runTests (tests.map (JsTest.toCase stack)) = (.ok (), w') ∧ Ran tests w w' := by
  induction tests generalizing w with
  | nil => exact ⟨w, rfl, .nil w⟩
  | cons t tests ih =>
    obtain ⟨hhead, htail⟩ := allReportable_cons.mp h
    obtain ⟨w₁, hrun₁, hran₁⟩ := ran_runTest stack t w hhead
    have hstate : w₁.state = (t.fn w.state).2 := hran₁.state
    obtain ⟨w₂, hrun₂, hran₂⟩ := ih (w := w₁) (by rw [hstate]; exact htail)
    refine ⟨w₂, ?_, hran₁.cons hran₂⟩
    rw [List.map_cons, TestWorld.runTests, hrun₁]
    exact hrun₂

/-- A loop that ends without an exception has met no other value. -/
theorem allReportable_of_runTests (stack : JsString) {tests : List (JsTest σ)} {w w' : TestWorld σ}
    (h : w.runTests (tests.map (JsTest.toCase stack)) = (.ok (), w')) :
    AllReportable (callEach tests w.state).1 := by
  induction tests generalizing w with
  | nil => exact fun e he => absurd he List.not_mem_nil
  | cons t tests ih =>
    have hhead : ∀ e, (t.fn w.state).1 = some e → e.reportable = true := by
      intro e he
      cases hrep : e.reportable with
      | true => rfl
      | false =>
        obtain ⟨exc, w₁, hrun⟩ := runTest_throws stack t w he hrep
        rw [List.map_cons, TestWorld.runTests, hrun] at h
        cases h
    obtain ⟨w₁, hrun₁, hran₁⟩ := ran_runTest stack t w hhead
    have hstate : w₁.state = (t.fn w.state).2 := hran₁.state
    rw [List.map_cons, TestWorld.runTests, hrun₁] at h
    have htail := ih h
    rw [hstate] at htail
    exact allReportable_cons.mpr ⟨hhead, htail⟩

/-! ## The run -/

/-- A run over values that can be reported accounts for every test. -/
theorem accounts_run {stack : JsString} {tests : List (JsTest σ)} {w : TestWorld σ}
    (htests : w.suite.tests = tests.map (JsTest.toCase stack))
    (h : AllReportable (callEach tests w.state).1) :
    ∃ w' summary, Accounts tests w w' summary ∧ w'.suite.tests = w.suite.tests := by
  obtain ⟨w', hrun, hran⟩ := ran_runTests stack
    (w := { w with suite := { w.suite with passed := 0, failed := 0, errors := [] } }) h
  have hpassed : w'.suite.passed = (callEach tests w.state).1.countP Option.isNone := by
    simpa using hran.passed
  have hfailed : w'.suite.failed = (callEach tests w.state).1.countP Option.isSome := by
    simpa using hran.failed
  have htotal : w'.suite.tests.length = tests.length := by
    rw [hran.registered]
    simp [htests]
  refine ⟨{ w' with summary := some w'.suite.summary }, w'.suite.summary,
    ⟨?_, rfl, hran.state, ⟨hpassed, hfailed, htotal, ?_, ?_⟩⟩, hran.registered⟩
  · rw [← htests] at hrun
    rw [TestWorld.run]
    dsimp only at hrun ⊢
    rw [hrun]
  · show w'.suite.passed + w'.suite.failed = w'.suite.tests.length
    rw [hpassed, hfailed, htotal, countP_isNone_add_isSome, callEach_length]
  · have herrors := hran.errors
    rw [List.map_nil, List.nil_append] at herrors
    exact herrors

/-- A run accounts for every test exactly if each value that is thrown has a message to report. -/
theorem accounts_for_all_iff (stack : JsString) (tests : List (JsTest σ)) (w : TestWorld σ) :
    AccountsForAll tests (w.registered stack tests) ↔
      AllReportable (callEach tests w.state).1 := by
  constructor
  · rintro ⟨w', summary, ⟨hrun, -⟩, -⟩
    rw [TestWorld.run] at hrun
    split at hrun
    · rename_i w₁ hloop
      have hall := allReportable_of_runTests stack hloop
      exact hall
    · cases hrun
  · intro h
    obtain ⟨w', summary, hfirst, htests⟩ := accounts_run (w := w.registered stack tests) rfl h
    refine ⟨w', summary, hfirst, fun hagain => ?_⟩
    have h' : AllReportable (callEach tests w'.state).1 := by rw [hagain]; exact h
    obtain ⟨w'', again, hsecond, -⟩ := accounts_run htests h'
    have htells := hsecond.2.2.2
    rw [hagain] at htells
    have htold := hfirst.2.2.2
    exact ⟨w'', again, hsecond, by rw [htells.passed, htold.passed],
      by rw [htells.failed, htold.failed], by rw [htells.total, htold.total]⟩

end Tests

/-- Two tests, of which the first one does `throw null`. They count their calls. -/
def nullTests : List (JsTest ℕ) :=
  [⟨js "first", fun n => (some .null, n + 1)⟩, ⟨js "second", fun n => (none, n + 1)⟩]

/-- The run throws, and the second test is not called. -/
theorem thrown_null_ends_run :
    ¬ AccountsForAll nullTests (TestWorld.registered [] nullTests ⟨.initial, 0, [], none⟩) ∧
    (TestWorld.registered [] nullTests ⟨.initial, 0, [], none⟩).run.2.state = 1 := by
  refine ⟨?_, rfl⟩
  rintro ⟨w', summary, ⟨hrun, -⟩, -⟩
  cases congrArg Prod.fst hrun

end BeamJS
