import BeamJS.Nif.Eval

/-!
# `beamjs:test`

`test.js`: the suite that `describe` and `it` fill and `run` goes through. A test is a function on
the state of the rest of the program, which is a parameter.
-/

namespace BeamJS

/-- The end of a test function inside `run`. -/
inductive TestEnd where
  | passes
  /-- It throws a value with this `message`. -/
  | fails (message : EvalValue)
  /-- It throws a value whose `message` cannot be read or printed, so the `catch` block throws too.
  -/
  | breaks (exc : EvalValue)

/-- What `it` pushes. -/
structure TestCase (σ : Type) where
  name : JsString
  fn : σ → TestEnd × σ

/-- What `run` returns. -/
structure Summary where
  passed : ℕ
  failed : ℕ
  total : ℕ
  errors : List (JsString × EvalValue)

/-- The variables of the module. -/
structure Suite (σ : Type) where
  tests : List (TestCase σ)
  currentDescribe : Option JsString
  passed : ℕ
  failed : ℕ
  errors : List (JsString × EvalValue)

/-- The variables after the module is evaluated. -/
def Suite.initial {σ : Type} : Suite σ := ⟨[], none, 0, 0, []⟩

/-- `_currentDescribe ? ... : name`, where an empty name is falsy. -/
def fullName (currentDescribe : Option JsString) (name : JsString) : JsString :=
  match currentDescribe with
  | none | some [] => name
  | some outer => outer ++ js " > " ++ name

/-! ## A test file at work -/

/-- The state of an evaluation that uses the module. -/
structure TestWorld (σ : Type) where
  suite : Suite σ
  state : σ
  /-- The ends of all the test functions that were run. -/
  log : List TestEnd
  /-- What the last call of `run` returned. -/
  summary : Option Summary

/-- A statement at the top level of a test file, or in the function that `describe` is given. -/
inductive TestStmt (σ : Type) where
  | it (name : JsString) (fn : σ → TestEnd × σ)
  | describe (name : JsString) (body : List (TestStmt σ))
  | run
  /-- Code that does not use the module. -/
  | other (code : σ → Except EvalValue Unit × σ)

section Run

variable {σ : Type}

/-- `it(name, fn)`. -/
def TestWorld.it (w : TestWorld σ) (name : JsString) (fn : σ → TestEnd × σ) : TestWorld σ :=
  { w with suite :=
    { w.suite with tests := w.suite.tests ++ [⟨fullName w.suite.currentDescribe name, fn⟩] } }

/-- One turn of the loop of `run`. -/
def TestWorld.runTest (w : TestWorld σ) (t : TestCase σ) : Except EvalValue Unit × TestWorld σ :=
  let (ended, state) := t.fn w.state
  let w := { w with state, log := w.log ++ [ended] }
  match ended with
  | .passes => (.ok (), { w with suite := { w.suite with passed := w.suite.passed + 1 } })
  | .fails message =>
    (.ok (), { w with suite :=
      { w.suite with failed := w.suite.failed + 1
                     errors := w.suite.errors ++ [(t.name, message)] } })
  | .breaks exc => (.error exc, { w with suite := { w.suite with failed := w.suite.failed + 1 } })

/-- The loop of `run`. -/
def TestWorld.runTests (w : TestWorld σ) : List (TestCase σ) → Except EvalValue Unit × TestWorld σ
  | [] => (.ok (), w)
  | t :: tests =>
    match w.runTest t with
    | (.ok (), w) => w.runTests tests
    | (.error exc, w) => (.error exc, w)

/-- The object that `run` returns. -/
def Suite.summary (s : Suite σ) : Summary := ⟨s.passed, s.failed, s.tests.length, s.errors⟩

/-- `run()`. -/
def TestWorld.run (w : TestWorld σ) : Except EvalValue Unit × TestWorld σ :=
  let w := { w with suite := { w.suite with passed := 0, failed := 0, errors := [] } }
  match w.runTests w.suite.tests with
  | (.ok (), w) => (.ok (), { w with summary := some w.suite.summary })
  | (.error exc, w) => (.error exc, w)

mutual

/-- A statement: whether it throws, and the state after it. -/
def TestStmt.exec (w : TestWorld σ) : TestStmt σ → Except EvalValue Unit × TestWorld σ
  | .it name fn => (.ok (), w.it name fn)
  | .describe name body =>
    let prevDescribe := w.suite.currentDescribe
    match execAll { w with suite := { w.suite with currentDescribe := some name } } body with
    | (.ok (), w) =>
      (.ok (), { w with suite := { w.suite with currentDescribe := prevDescribe } })
    | (.error exc, w) => (.error exc, w)
  | .run => w.run
  | .other code =>
    let (ended, state) := code w.state
    (ended, { w with state })

/-- Statements in order, up to one that throws. -/
def TestStmt.execAll (w : TestWorld σ) : List (TestStmt σ) → Except EvalValue Unit × TestWorld σ
  | [] => (.ok (), w)
  | s :: stmts =>
    match TestStmt.exec w s with
    | (.ok (), w) => execAll w stmts
    | (.error exc, w) => (.error exc, w)

end

end Run

/-! ## The summary as a value -/

/-- A counter after `n` times `++`. From `2 ^ 53` on it stays as it is. -/
def counter (n : ℕ) : JsNumber := newFloat64 (.finite (.ofInt (min n (2 ^ 53)) (by omega)))

/-- `{ name: t.name, error: e.message }`, unless the message contains itself. -/
def errorEntry : JsString × EvalValue → Option JsValue
  | (name, .tree message) =>
    some (.object none [(js "name", .string name), (js "error", message)])
  | (_, .cyclic) => none

/-- The value of `run()`. -/
def Summary.toValue (s : Summary) : EvalValue :=
  match s.errors.mapM errorEntry with
  | some errors =>
    .tree (.object none [(js "passed", .number (counter s.passed)),
      (js "failed", .number (counter s.failed)), (js "total", .number (counter s.total)),
      (js "errors", .array errors)])
  | none => .cyclic

end BeamJS
