import BeamJS.Cli.Test
import BeamJS.Nif.Proofs.EvalProofs
import BeamJS.Js.Proofs.NumberProofs

/-!
# Proofs: `beamjs test`

A file whose evaluation ends is counted, with a failure exactly if it `Shows` one. The command so
halts with status 1 if all files end and one of them shows a failure, which is a real one.
-/

namespace BeamJS

open Lib JsValue

/-! ## Failures are recorded -/

/-- A test of the log did not pass. -/
def Failing (log : List TestEnd) : Prop := ∃ ended ∈ log, ended ≠ .passes

/-- The failures that the counter and the last summary tell of are in the log. -/
structure Recorded {σ : Type} (w : TestWorld σ) : Prop where
  counter : 0 < w.suite.failed → Failing w.log
  summary : ∀ s, w.summary = some s → 0 < s.failed → Failing w.log

section Record

variable {σ : Type} {w : TestWorld σ}

theorem failing_append {log : List TestEnd} (ended : TestEnd) (h : Failing log) :
    Failing (log ++ [ended]) := by
  obtain ⟨e, he, hne⟩ := h
  exact ⟨e, List.mem_append_left _ he, hne⟩

theorem recorded_runTest (h : Recorded w) (t : TestCase σ) : Recorded (w.runTest t).2 := by
  unfold TestWorld.runTest
  rcases t.fn w.state with ⟨ended, state⟩
  have hsummary (s : Summary) (hs : w.summary = some s) (hf : 0 < s.failed) :
      Failing (w.log ++ [ended]) := failing_append ended (h.summary s hs hf)
  cases ended with
  | passes => exact ⟨fun hf => failing_append _ (h.counter hf), hsummary⟩
  | fails message => exact ⟨fun _ => ⟨_, List.mem_append_right _ (List.mem_singleton.mpr rfl),
      nofun⟩, hsummary⟩
  | breaks exc => exact ⟨fun _ => ⟨_, List.mem_append_right _ (List.mem_singleton.mpr rfl),
      nofun⟩, hsummary⟩

theorem recorded_runTests (h : Recorded w) (tests : List (TestCase σ)) :
    Recorded (w.runTests tests).2 := by
  induction tests generalizing w with
  | nil => exact h
  | cons t tests ih =>
    have ht := recorded_runTest h t
    rw [TestWorld.runTests]
    split
    · rename_i w' heq
      rw [heq] at ht
      exact ih ht
    · rename_i exc w' heq
      rwa [heq] at ht

theorem recorded_run (h : Recorded w) : Recorded w.run.2 := by
  have hreset : Recorded
      { w with suite := { w.suite with passed := 0, failed := 0, errors := [] } } :=
    ⟨fun hf => absurd hf (Nat.lt_irrefl 0), h.summary⟩
  have hrun := recorded_runTests hreset w.suite.tests
  rw [TestWorld.run]
  split
  · rename_i w' heq
    rw [heq] at hrun
    refine ⟨hrun.counter, fun s hs hf => ?_⟩
    cases hs
    exact hrun.counter hf
  · rename_i exc w' heq
    rwa [heq] at hrun

/-- Induction over a statement with the statements in it. -/
@[elab_as_elim]
theorem TestStmt.induction_on {P : TestStmt σ → Prop} (it : ∀ name fn, P (.it name fn))
    (describe : ∀ name body, (∀ s ∈ body, P s) → P (.describe name body)) (run : P .run)
    (other : ∀ code, P (.other code)) (s : TestStmt σ) : P s := by
  refine @TestStmt.rec σ P (fun body => ∀ s ∈ body, P s) it describe run other ?_ ?_ s
  · simp
  · intro s body hs hbody
    simpa using ⟨hs, hbody⟩

theorem recorded_execAll {stmts : List (TestStmt σ)}
    (ih : ∀ s ∈ stmts, ∀ w : TestWorld σ, Recorded w → Recorded (TestStmt.exec w s).2)
    (h : Recorded w) : Recorded (TestStmt.execAll w stmts).2 := by
  induction stmts generalizing w with
  | nil => exact h
  | cons s stmts ihs =>
    obtain ⟨hs, hstmts⟩ := List.forall_mem_cons.mp ih
    have hstep := hs w h
    rw [TestStmt.execAll]
    split
    · rename_i w' heq
      rw [heq] at hstep
      exact ihs hstmts hstep
    · rename_i exc w' heq
      rwa [heq] at hstep

theorem recorded_exec (s : TestStmt σ) (w : TestWorld σ) (h : Recorded w) :
    Recorded (TestStmt.exec w s).2 := by
  induction s using TestStmt.induction_on generalizing w with
  | it name fn => exact ⟨h.counter, h.summary⟩
  | describe name body ih =>
    have hbody := recorded_execAll
      (w := { w with suite := { w.suite with currentDescribe := some name } }) ih
      ⟨h.counter, h.summary⟩
    rw [TestStmt.exec]
    split
    · rename_i w' heq
      rw [heq] at hbody
      exact ⟨hbody.counter, hbody.summary⟩
    · rename_i exc w' heq
      rwa [heq] at hbody
  | run => exact recorded_run h
  | other code => exact ⟨h.counter, h.summary⟩

/-- A file that shows a failure has one. -/
theorem TestFile.Shows.fails {f : TestFile σ} (h : f.Shows) : f.Fails := by
  cases h with
  | unparsed h => exact .inl (by rw [h]; rfl)
  | throws _ h => exact .inr (.inl ⟨_, h⟩)
  | summary _ _ h hf =>
    have hrec : Recorded f.execution.2 :=
      recorded_execAll (fun s _ => recorded_exec s)
        ⟨fun hf => absurd hf (Nat.lt_irrefl 0), nofun⟩
    exact .inr (.inr (hrec.summary _ h hf))

end Record

/-! ## The counts of a file -/

/-- A whole or fractional double arrives as the number that it is. -/
theorem jsNumberToErl_newFloat64 (q : FiniteDouble) :
    ∃ t, jsNumberToErl (newFloat64 (.finite q)) = some t ∧ t.number? = some q.val ∧
      t.truthy = true := by
  rw [newFloat64]
  split
  · rename_i hwhole
    obtain ⟨hval, hrange⟩ := Bool.and_eq_true_iff.mp hwhole
    refine ⟨_, rfl, ?_, rfl⟩
    rw [toInt_ofInt_of_inInt32 hrange, Term.number?, eq_of_beq hval]
  · rename_i hwhole
    rw [jsNumberToErl, if_neg hwhole]
    exact ⟨_, rfl, rfl, rfl⟩

theorem ofInt_val_of_round {n : ℤ} (h : n.natAbs < 2 ^ 64)
    (hround : roundMantissa n.natAbs * 2 ^ excess n.natAbs = n.natAbs) :
    (FiniteDouble.ofInt n h).val = n := by
  simp only [FiniteDouble.ofInt, hround]
  rw [Int.sign_mul_natAbs]

/-- The number that a counter arrives as. -/
theorem jsNumberToErl_counter (n : ℕ) :
    ∃ t q, jsNumberToErl (counter n) = some t ∧ t.number? = some q ∧ t.truthy = true ∧ 0 ≤ q ∧
      (0 < q ↔ 0 < n) := by
  obtain ⟨t, ht, hnum, htruthy⟩ :=
    jsNumberToErl_newFloat64 (.ofInt (min n (2 ^ 53)) (by omega))
  refine ⟨t, _, ht, hnum, htruthy, ?_⟩
  rcases Nat.lt_or_ge n (2 ^ 53) with hn | hn
  · have hmin : min (n : ℤ) (2 ^ 53) = n := by omega
    have hval : (FiniteDouble.ofInt (min n (2 ^ 53)) (by omega)).val = n := by
      rw [FiniteDouble.ofInt_val _ (by omega), hmin]
      exact Int.cast_natCast n
    rw [hval]
    exact ⟨Nat.cast_nonneg n, Nat.cast_pos⟩
  · have hmin : min (n : ℤ) (2 ^ 53) = 9007199254740992 := by omega
    have hval : (FiniteDouble.ofInt (min n (2 ^ 53)) (by omega)).val = 9007199254740992 := by
      simp only [hmin]
      exact ofInt_val_of_round (by decide) (by decide)
    rw [hval]
    exact ⟨by norm_num, iff_of_true (by norm_num) (by omega)⟩

variable {ord : MapOrder}

/-- The two counts of a file: `passed` is a number, and `failed` one that is positive exactly if
`P`. -/
def CountsTo (P : Prop) (ended : FileEnd) : Prop :=
  ∃ tp tf qp qf, ended = .counted tp tf ∧ tp.number? = some qp ∧ tf.number? = some qf ∧ 0 ≤ qf ∧
    (0 < qf ↔ P)

theorem countsOf_error {P : Prop} (h : P) (reason : Term) :
    CountsTo P (countsOf (.errorTuple reason)) := by
  refine ⟨.int 0, .int 1, 0, 1, rfl, ?_, ?_, by norm_num, iff_of_true (by norm_num) h⟩
  · simp [Term.number?]
  · simp [Term.number?]

theorem countsOf_none {P : Prop} (h : ¬ P) {t : Term}
    (ht : t.get? "passed" = none ∨ t.get? "failed" = none) :
    CountsTo P (countsOf (.tuple [.atom "ok", t])) := by
  refine ⟨.int 0, .int 0, 0, 0, ?_, ?_, ?_, le_refl 0, iff_of_false (lt_irrefl 0) h⟩
  · rcases ht with ht | ht
    · simp only [countsOf, ht]
    · simp only [countsOf, ht]
      split
      · rename_i hf
        cases hf
      · rfl
  · simp [Term.number?]
  · simp [Term.number?]

theorem termOf_number {n : JsNumber} {t : Term} (h : jsNumberToErl n = some t) :
    termOf ord (.number n) = t := by
  rw [termOf, jsValueToErl, h]
  rfl

/-- The summary arrives with its counters. -/
theorem countsOf_summary (s : Summary) {t : Term} (h : s.toValue.toErl ord = .returns t) :
    CountsTo (0 < s.failed) (countsOf (.tuple [.atom "ok", t])) := by
  rw [Summary.toValue] at h
  split at h
  · rename_i errors _
    rw [EvalValue.toErl] at h
    split at h
    · rename_i t' ht
      cases h
      obtain ⟨tp, qp, hp, hqp, hpt, -⟩ := jsNumberToErl_counter s.passed
      obtain ⟨tf, qf, hf, hqf, hft, hnonneg, hpos⟩ := jsNumberToErl_counter s.failed
      have htag : js "__beamjs_type" ∉ [js "passed", js "failed", js "total", js "errors"] := by
        decide
      have hnd : ([js "passed", js "failed", js "total", js "errors"].map mapKey).Nodup := by
        decide
      have hget := get?_object rfl (by exact isPidHandle_of_notMem htag) (by exact hnd) ht
      have hpassed : t.get? "passed" = some tp := by
        rw [hget]
        exact congrArg some (termOf_number hp)
      have hfailed : t.get? "failed" = some tf := by
        rw [hget]
        exact congrArg some (termOf_number hf)
      refine ⟨tp, tf, qp, qf, ?_, hqp, hqf, hnonneg, hpos⟩
      simp only [countsOf, hpassed, hfailed, orZero, hpt, hft, if_true]
    · cases h
  · cases h

section File

variable {σ : Type} {f : TestFile σ}

theorem CountsTo.congr {P Q : Prop} {ended : FileEnd} (h : CountsTo P ended) (hPQ : P ↔ Q) :
    CountsTo Q ended := by
  obtain ⟨tp, tf, qp, qf, heq, hp, hf, hnonneg, hpos⟩ := h
  exact ⟨tp, tf, qp, qf, heq, hp, hf, hnonneg, hpos.trans hPQ⟩

/-- An exception that converts is counted as a failure. -/
theorem counts_exception {P : Prop} {exc : EvalValue} (hexc : exc.exceptionConverts = true)
    (hasks : f.asksOwner = false) (hp : jsEval f.program = .error exc) (h : P) :
    CountsTo P (runTestFile ord f) := by
  obtain ⟨reason, hreason⟩ : ∃ reason, exc.exceptionToErl ord = .returns (.errorTuple reason) :=
    (exceptionToErl_eq_returns exc).mpr hexc
  rw [runTestFile, hasks, if_neg Bool.false_ne_true, nifEval, hp]
  simp only [hreason]
  exact countsOf_error h reason

/-- A value that converts is counted by its keys. -/
theorem counts_value {P : Prop} {v : EvalValue} (hv : v.converts = true)
    (hasks : f.asksOwner = false) (hp : jsEval f.program = .ok v)
    (h : ∀ t, v.toErl ord = .returns t → CountsTo P (countsOf (.tuple [.atom "ok", t]))) :
    CountsTo P (runTestFile ord f) := by
  obtain ⟨t, ht⟩ : ∃ t, v.toErl ord = .returns t := (toErl_eq_returns ord v).mpr hv
  rw [runTestFile, hasks, if_neg Bool.false_ne_true, nifEval, hp]
  simp only [ht]
  exact h t ht

/-- The map of a promise has no keys. -/
theorem get?_promise {t : Term} (h : (EvalValue.tree .promise).toErl ord = .returns t)
    (k : String) :
    t.get? k = none := by
  cases h
  exact @get?_toMap ord [] List.nodup_nil k

/-- Where the completion value of a script shows a failure. -/
theorem shows_iff_of_completes (hparse : f.syntaxError = none)
    (hs : isModuleSource f.source = false) (h : f.execution.1 = .ok ()) :
    f.Shows ↔ f.completion f.execution.2.state = .summary ∧
      ∃ s, f.execution.2.summary = some s ∧ 0 < s.failed := by
  constructor
  · intro hshows
    cases hshows with
    | unparsed h' => cases hparse.symm.trans h'
    | throws _ h' => cases h.symm.trans h'
    | summary _ hc hsum hf => exact ⟨hc, _, hsum, hf⟩
  · rintro ⟨hc, s, hsum, hf⟩
    exact .summary hs hc hsum hf

/-- A script that completes is counted by its completion value. -/
theorem counts_completes (hparse : f.syntaxError = none) (hs : isModuleSource f.source = false)
    (h : f.execution.1 = .ok ()) {t : Term}
    (ht : (f.completionValue f.execution.2).toErl ord = .returns t) :
    CountsTo f.Shows (countsOf (.tuple [.atom "ok", t])) := by
  have hshows := shows_iff_of_completes hparse hs h
  rw [TestFile.completionValue] at ht
  cases hc : f.completion f.execution.2.state with
  | value v =>
    rw [hc] at ht
    refine countsOf_none (fun h' => ?_) (v.2 ord t ht)
    cases hc.symm.trans (hshows.mp h').1
  | summary =>
    rw [hc] at ht
    cases hsum : f.execution.2.summary with
    | none =>
      rw [hsum] at ht
      cases ht
      refine countsOf_none (fun h' => ?_) (.inl rfl)
      obtain ⟨_, s, hs', _⟩ := hshows.mp h'
      cases hsum.symm.trans hs'
    | some s =>
      rw [hsum] at ht
      refine (countsOf_summary s ht).congr ?_
      rw [hshows, hc, hsum]
      simp

/-- A file whose evaluation ends is counted, with a failure exactly if it shows one. -/
theorem runTestFile_of_ends (ord : MapOrder) (h : f.Ends) : CountsTo f.Shows (runTestFile ord f) := by
  obtain ⟨hasks, hconv⟩ := h
  cases hparse : f.syntaxError with
  | some exc =>
    have hp : f.program = .invalid exc := by rw [TestFile.program, hparse]
    rw [hp] at hconv
    exact counts_exception hconv hasks (by rw [hp]; rfl) (.unparsed hparse)
  | none =>
    cases hs : isModuleSource f.source with
    | true =>
      have hp : f.program = .module (.mk [] f.execution.1) := by
        simp only [TestFile.program, hparse, hs, if_true]
      refine counts_value rfl hasks (by rw [hp]; rfl) fun t ht => ?_
      refine countsOf_none (fun hshows => ?_) (.inl (get?_promise ht "passed"))
      cases hshows with
      | unparsed h' => cases hparse.symm.trans h'
      | throws hs' => cases hs.symm.trans hs'
      | summary hs' => cases hs.symm.trans hs'
    | false =>
      have hp : f.program =
          .script (f.execution.1.map fun _ => f.completionValue f.execution.2) := by
        simp only [TestFile.program, hparse, hs]
        rfl
      cases hend : f.execution.1 with
      | error exc =>
        rw [hp, hend] at hconv
        exact counts_exception hconv hasks (by rw [hp, hend]; rfl) (.throws hs hend)
      | ok _ =>
        rw [hp, hend] at hconv
        exact counts_value hconv hasks (by rw [hp, hend]; rfl) fun t ht =>
          counts_completes hparse hs hend ht

/-- What leaves a program is what its evaluation ends with. -/
theorem converts_jsEval (p : JsProgram) :
    p.converts =
      match jsEval p with
      | .error exc => exc.exceptionConverts
      | .ok v => v.converts := by
  rcases p with exc | (exc | v) | m <;> rfl

/-- A result is returned only where what leaves the program converts. -/
theorem converts_of_returns {p : JsProgram} {t : Term} (h : nifEval ord p = .returns t) :
    p.converts = true := by
  rw [converts_jsEval]
  rw [nifEval] at h
  cases hp : jsEval p with
  | error exc =>
    rw [hp] at h
    obtain ⟨reason, rfl⟩ := errorTuple_of_returns h
    exact (exceptionToErl_eq_returns exc).mp ⟨reason, h⟩
  | ok v =>
    rw [hp] at h
    cases hv : v.toErl ord with
    | returns t' => exact (toErl_eq_returns ord v).mp ⟨t', hv⟩
    | raises =>
      simp only [hv] at h
      cases h
    | crashes =>
      simp only [hv] at h
      cases h

/-- A file that hangs, or whose value or exception does not convert, is not counted. -/
theorem runTestFile_of_not_ends (h : ¬ f.Ends) (p q : Term) :
    runTestFile ord f ≠ .counted p q := by
  intro hrun
  rw [runTestFile] at hrun
  split at hrun
  · cases hrun
  rename_i hasks
  split at hrun
  · rename_i t hnif
    exact h ⟨by simpa using hasks, converts_of_returns hnif⟩
  · cases hrun
  · cases hrun

/-! ## The command -/

/-- Where all the evaluations end, the counts add up to numbers, and the failures to a positive one
exactly if a file shows one. -/
theorem runTestFiles_of_ends (ord : MapOrder) {files : List (TestFile σ)}
    (h : ∀ f ∈ files, f.Ends) :
    ∃ results qp qf, runTestFiles ord files = .ok results ∧
      enumSum (results.map Prod.fst) = some qp ∧ enumSum (results.map Prod.snd) = some qf ∧
      0 ≤ qf ∧ (0 < qf ↔ ∃ f ∈ files, f.Shows) := by
  induction files with
  | nil => exact ⟨[], 0, 0, rfl, rfl, rfl, le_refl 0, by simp⟩
  | cons f files ih =>
    obtain ⟨hf, hfiles⟩ := List.forall_mem_cons.mp h
    obtain ⟨tp, tf, qp, qf, hrun, hqp, hqf, hnonneg, hpos⟩ :=
      runTestFile_of_ends ord hf
    obtain ⟨results, qps, qfs, hruns, hqps, hqfs, hnonnegs, hposs⟩ := ih hfiles
    refine ⟨(tp, tf) :: results, qp + qps, qf + qfs, ?_, ?_, ?_, add_nonneg hnonneg hnonnegs, ?_⟩
    · simp only [runTestFiles, hrun, hruns]
      rfl
    · simp [enumSum, hqp, hqps]
    · simp [enumSum, hqf, hqfs]
    · rw [List.exists_mem_cons_iff, ← hpos, ← hposs]
      constructor
      · intro hsum
        by_contra hno
        push Not at hno
        linarith [hno.1, hno.2]
      · rintro (hf | hfs)
        · linarith
        · linarith

theorem runTestFiles_of_not_ends (ord : MapOrder) {files : List (TestFile σ)}
    (h : ∃ f ∈ files, ¬ f.Ends) :
    ∃ ended, runTestFiles ord files = .error ended := by
  induction files with
  | nil => simp at h
  | cons f files ih =>
    rw [runTestFiles]
    split
    · rename_i p q hrun
      have hf : f.Ends := by
        by_contra hf
        exact runTestFile_of_not_ends hf p q hrun
      obtain ⟨g, hg, hno⟩ := h
      rcases List.mem_cons.mp hg with rfl | hg
      · exact absurd hf hno
      · obtain ⟨ended, hruns⟩ := ih ⟨g, hg, hno⟩
        exact ⟨ended, by rw [hruns]; rfl⟩
    · exact ⟨_, rfl⟩

theorem runTest_halts_iff (ord : MapOrder) (files : List (TestFile σ)) :
    runTest ord files = .halts 1 ↔ (∀ f ∈ files, f.Ends) ∧ ∃ f ∈ files, f.Shows := by
  cases files with
  | nil => simp [runTest]
  | cons f files =>
    rw [runTest, List.isEmpty_cons, if_neg Bool.false_ne_true]
    by_cases h : ∀ g ∈ f :: files, g.Ends
    · obtain ⟨results, qp, qf, hruns, hqp, hqf, _, hpos⟩ := runTestFiles_of_ends ord h
      simp only [hruns, hqp, hqf]
      rw [← hpos]
      split
      · rename_i hq
        exact iff_of_true rfl ⟨h, hq⟩
      · rename_i hq
        exact iff_of_false nofun fun hand => hq hand.2
    · have hex : ∃ g ∈ f :: files, ¬ g.Ends := by
        push Not at h
        exact h
      obtain ⟨ended, hruns⟩ := runTestFiles_of_not_ends ord hex
      rw [hruns]
      exact iff_of_false nofun fun hand => h hand.1

/-- The command tells whether a test or a file failed exactly if none did, or all the evaluations
end and one of the files shows a failure. -/
theorem test_reports_iff (ord : MapOrder) (files : List (TestFile σ)) :
    (runTest ord files = .halts 1 ↔ ∃ f ∈ files, f.Fails) ↔
      (∀ f ∈ files, ¬ f.Fails) ∨ ((∀ f ∈ files, f.Ends) ∧ ∃ f ∈ files, f.Shows) := by
  rw [runTest_halts_iff]
  constructor
  · intro h
    by_cases hfails : ∃ f ∈ files, f.Fails
    · exact .inr (h.mpr hfails)
    · push Not at hfails
      exact .inl hfails
  · rintro (hnone | hshown)
    · refine iff_of_false (fun hshown => ?_) fun ⟨f, hf, hfails⟩ => hnone f hf hfails
      obtain ⟨f, hf, hshows⟩ := hshown.2
      exact hnone f hf hshows.fails
    · obtain ⟨f, hf, hshows⟩ := hshown.2
      exact iff_of_true hshown ⟨f, hf, hshows.fails⟩

end File

/-- A script with a failing test that goes on after `run()`. The functions of `test.js` are part of
the script itself. -/
def loggingFile : TestFile Unit where
  source := bytes "it('adds', () => expect(1 + 1).toBe(3)); run(); console.log('done');"
  syntaxError := none
  asksOwner := false
  start := ()
  stmts := [.it (js "adds") fun s => (.fails (.tree (.string (js "Expected 3, got 2"))), s), .run]
  completion _ := .value ⟨.tree .undefined, fun _ _ h => .inl (by cases h; rfl)⟩

/-- The command returns as if all tests had passed. -/
theorem failing_test_unseen :
    runTest .insertion [loggingFile] = .returns ∧
      ¬ (runTest .insertion [loggingFile] = .halts 1 ↔ ∃ f ∈ [loggingFile], f.Fails) := by
  have hsource : isModuleSource loggingFile.source = false := by decide
  have hfails : loggingFile.Fails := by
    refine .inr (.inr ⟨_, List.mem_singleton.mpr rfl, nofun⟩)
  have hreturns : runTest .insertion [loggingFile] = .returns := by
    have hprogram : loggingFile.program = .script (.ok (.tree .undefined)) := by
      simp only [TestFile.program, hsource]
      rfl
    have hfile : runTestFile .insertion loggingFile = .counted (.int 0) (.int 0) := by
      rw [runTestFile, hprogram]
      rfl
    simp only [runTest, runTestFiles, hfile, Except.map]
    simp [enumSum, Term.number?]
  refine ⟨hreturns, fun h => ?_⟩
  have hhalts := h.mpr ⟨_, List.mem_singleton.mpr rfl, hfails⟩
  rw [hreturns] at hhalts
  cases hhalts

end BeamJS
