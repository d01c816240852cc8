import BeamJS.Stdlib.Test

/-!
# Tests that throw

The `catch` block of `run` for any thrown value, and what `run` is to tell about the tests: how each
of them ended, and the counts and the names that follow from it.
-/

namespace BeamJS

/-- The value that a test function throws. -/
inductive Thrown where
  | undefined
  | null
  | bool (b : Bool)
  | number (n : JsNumber)
  | bigint (n : ℤ)
  | string (s : JsString)
  | symbol (id : ℕ)
  /-- An object, by the end of the first reading of its `message` and the exception of the second
  one, that of `ToString` included. -/
  | object (message : Except EvalValue EvalValue) (printing : Option EvalValue)

/-- The `TypeError` for a property of `undefined` or `null`, with the `stack` that it gets in `run`.
-/
def cannotReadMessage (stack value : JsString) : EvalValue :=
  .tree (.error (some (js "cannot read property 'message' of " ++ value)) (some stack))

namespace Thrown

/-- `e.message` in the entry for `_errors`. The primitive types have no `message`. -/
def message (stack : JsString) : Thrown → Except EvalValue EvalValue
  | .undefined => .error (cannotReadMessage stack (js "undefined"))
  | .null => .error (cannotReadMessage stack (js "null"))
  | .object message _ => message
  | _ => .ok (.tree .undefined)

/-- The exception of `${e.message}`. -/
def printing : Thrown → Option EvalValue
  | .object _ printing => printing
  | _ => none

/-- The `catch` block of `run`. -/
def caught (stack : JsString) (e : Thrown) : TestEnd :=
  match e.message stack with
  | .error exc => .breaks exc
  | .ok message =>
    match e.printing with
    | some exc => .breaks exc
    | none => .fails message

/-- A value with a `message` that can be read twice and printed. -/
def reportable : Thrown → Bool
  | .undefined | .null => false
  | .object message printing => message.isOk && printing.isNone
  | _ => true

end Thrown

/-- A registered test. Its function throws a value, or returns for `none`. The state is that after
the `catch` block, which may run the getter of a `message`. -/
structure JsTest (σ : Type) where
  name : JsString
  fn : σ → Option Thrown × σ

section Tests

variable {σ : Type}

/-- The test with its `try` statement. -/
def JsTest.toCase (stack : JsString) (t : JsTest σ) : TestCase σ where
  name := t.name
  fn s :=
    match t.fn s with
    | (none, s) => (.passes, s)
    | (some e, s) => (e.caught stack, s)

/-- A world with the tests `tests`. The counters are those of any run before. -/
def TestWorld.registered (stack : JsString) (tests : List (JsTest σ)) (w : TestWorld σ) :
    TestWorld σ :=
  { w with suite := { w.suite with tests := tests.map (JsTest.toCase stack) } }

/-! ## What a run is to tell -/

/-- Every function called once, in order: how they end, and the state they leave. -/
def callEach : List (JsTest σ) → σ → List (Option Thrown) × σ
  | [], s => ([], s)
  | t :: tests, s =>
    let (ended, s) := t.fn s
    let (ends, s) := callEach tests s
    (ended :: ends, s)

/-- The names of the tests that threw. -/
def failedNames : List (JsTest σ) → List (Option Thrown) → List JsString
  | t :: tests, some _ :: ends => t.name :: failedNames tests ends
  | _ :: tests, none :: ends => failedNames tests ends
  | _, _ => []

/-- The summary is that of tests that end so. -/
structure Summary.Tells (summary : Summary) (tests : List (JsTest σ))
    (ends : List (Option Thrown)) :
    Prop where
  passed : summary.passed = ends.countP Option.isNone
  failed : summary.failed = ends.countP Option.isSome
  total : summary.total = tests.length
  sum : summary.passed + summary.failed = summary.total
  errors : summary.errors.map Prod.fst = failedNames tests ends

/-- `run` returns after a call of every function, and its summary tells how they ended. -/
def Accounts (tests : List (JsTest σ)) (w w' : TestWorld σ) (summary : Summary) : Prop :=
  w.run = (.ok (), w') ∧ w'.summary = some summary ∧ w'.state = (callEach tests w.state).2 ∧
    summary.Tells tests (callEach tests w.state).1

/-- A run accounts for every test, and a second one, in which they end alike, has the same counts.
-/
def AccountsForAll (tests : List (JsTest σ)) (w : TestWorld σ) : Prop :=
  ∃ w' summary, Accounts tests w w' summary ∧
    ((callEach tests w'.state).1 = (callEach tests w.state).1 →
      ∃ w'' again, Accounts tests w' w'' again ∧
        again.passed = summary.passed ∧ again.failed = summary.failed ∧
        again.total = summary.total)

end Tests

end BeamJS
