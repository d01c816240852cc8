import BeamJS.Stdlib.Test

/-!
# `beamjs test`

`commands/test.ex` evaluates each test file with `eval_sync`, adds up the counts that it reads off
the results and halts with status 1 if a test failed.
-/

namespace BeamJS

/-- A completion value other than that of `run()`. It is no object with both `passed` and `failed`,
which the command takes for a summary. -/
abbrev PlainCompletion :=
  {v : EvalValue // ∀ ord t, v.toErl ord = .returns t →
    t.get? "passed" = none ∨ t.get? "failed" = none}

/-- The value of the last statement of a script. -/
inductive Completion where
  /-- What the last call of `run` returned. -/
  | summary
  | value (v : PlainCompletion)

/-- A test file, after `strip_types`. -/
structure TestFile (σ : Type) where
  source : Bytes
  syntaxError : Option EvalValue
  /-- It imports a module or calls a host function. -/
  asksOwner : Bool
  start : σ
  stmts : List (TestStmt σ)
  completion : σ → Completion

section File

variable {σ : Type}

/-- The statements of the file: whether they throw, and the state they leave. -/
def TestFile.execution (f : TestFile σ) : Except EvalValue Unit × TestWorld σ :=
  TestStmt.execAll ⟨.initial, f.start, [], none⟩ f.stmts

/-- The completion value of the file as a script. -/
def TestFile.completionValue (f : TestFile σ) (w : TestWorld σ) : EvalValue :=
  match f.completion w.state with
  | .summary => w.summary.elim (.tree .undefined) Summary.toValue
  | .value v => v.1

/-- The file as `nif_eval` takes it. -/
def TestFile.program (f : TestFile σ) : JsProgram :=
  match f.syntaxError with
  | some exc => .invalid exc
  | none =>
    if isModuleSource f.source then .module (.mk [] f.execution.1)
    else .script (f.execution.1.map fun _ => f.completionValue f.execution.2)

/-- What becomes of a test file in `run_test_file`. -/
inductive FileEnd where
  | counted (passed failed : Term)
  /-- The evaluation waits for the process that waits for the evaluation. -/
  | hangs
  /-- `ArgumentError` or `CaseClauseError`. -/
  | raises
  | crashes

/-- `n || 0`. -/
def orZero (n : Term) : Term := if n.truthy then n else .int 0

/-- The `case` of `run_test_file` on the result of `eval_sync`. The two clauses for errors count
alike. -/
def countsOf : Term → FileEnd
  | .tuple [.atom "ok", value] =>
    match value.get? "passed", value.get? "failed" with
    | some passed, some failed => .counted (orZero passed) (orZero failed)
    | _, _ => .counted (.int 0) (.int 0)
  | .tuple [.atom "error", _] => .counted (.int 0) (.int 1)
  | _ => .raises

/-- `run_test_file`. `eval_sync` evaluates in the process that the engine sends its requests to. -/
def runTestFile (ord : MapOrder) (f : TestFile σ) : FileEnd :=
  if f.asksOwner then .hangs
  else
    match nifEval ord f.program with
    | .returns t => countsOf t
    | .raises => .raises
    | .crashes => .crashes

/-- `Enum.map(test_files, ...)`, or the first end that is no result. -/
def runTestFiles (ord : MapOrder) : List (TestFile σ) → Except FileEnd (List (Term × Term))
  | [] => .ok []
  | f :: files =>
    match runTestFile ord f with
    | .counted passed failed => (runTestFiles ord files).map ((passed, failed) :: ·)
    | ended => .error ended

end File

/-- The rational that a number stands for. -/
def Term.number? : Term → Option ℚ
  | .int n => some n
  | .float ⟨.finite q, _⟩ => some q.val
  | .float ⟨.negZero, _⟩ => some 0
  | _ => none

/-- `Enum.sum`, or `none` for an `ArithmeticError`. -/
def enumSum : List Term → Option ℚ
  | [] => some 0
  | t :: ts => do return (← t.number?) + (← enumSum ts)

/-- The end of `beamjs test`. -/
inductive RunEnd where
  /-- `System.halt(status)`. -/
  | halts (status : ℕ)
  | returns
  /-- A file brings the command down, or its evaluation never ends. -/
  | interrupted (ended : FileEnd)

/-- `run`, with the test files that it found. -/
def runTest {σ : Type} (ord : MapOrder) (files : List (TestFile σ)) : RunEnd :=
  if files.isEmpty then .returns
  else
    match runTestFiles ord files with
    | .error ended => .interrupted ended
    | .ok results =>
      match enumSum (results.map Prod.fst), enumSum (results.map Prod.snd) with
      | some _, some totalFailed => if 0 < totalFailed then .halts 1 else .returns
      | _, _ => .interrupted .raises

/-! ## What the files say -/

section Says

variable {σ : Type}

/-- A registered test of the file fails, or the file throws. -/
def TestFile.Fails (f : TestFile σ) : Prop :=
  f.syntaxError.isSome = true ∨ (∃ exc, f.execution.1 = .error exc) ∨
    ∃ ended ∈ f.execution.2.log, ended ≠ .passes

/-- What leaves the program converts. -/
def JsProgram.converts : JsProgram → Bool
  | .invalid exc | .script (.error exc) => exc.exceptionConverts
  | .script (.ok v) => v.converts
  | .module _ => true

/-- The file makes no request to its owner, and what leaves it converts. -/
def TestFile.Ends (f : TestFile σ) : Prop := f.asksOwner = false ∧ f.program.converts = true

/-- The file does not parse, or it is a script that throws or that ends with the value of a `run()`
in which a test failed. -/
inductive TestFile.Shows (f : TestFile σ) : Prop
  | unparsed {exc : EvalValue} (h : f.syntaxError = some exc)
  | throws {exc : EvalValue} (hs : isModuleSource f.source = false)
      (h : f.execution.1 = .error exc)
  | summary {s : Summary} (hs : isModuleSource f.source = false)
      (hc : f.completion f.execution.2.state = .summary) (h : f.execution.2.summary = some s)
      (hf : 0 < s.failed)

end Says

end BeamJS
