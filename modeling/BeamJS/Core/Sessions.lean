import BeamJS.Core.System
import BeamJS.Lib.Custody
import BeamJS.Nif.Handle

/-!
# The callers of the NIF

Every piece of Elixir code that works with a context creates it itself: a `BeamjsCore.Process` from
`init` to `terminate`, `eval_sync`, the function of a task and of an agent update. They all run at
once, over the contexts of one virtual machine.
-/

namespace BeamJS

open Lib

/-! ## Contexts as resources -/

/-- The calls that the Elixir code makes on a context. -/
inductive ContextUse where
  | eval (source filename : Bytes)
  | setGlobal (name : String) (value : Term)
  | deliver (reply : Term)
  | destroy

/-- The call of the NIF, with what the engine does next. -/
def ContextUse.call (run : EngineRun) : ContextUse → HandleCall
  | .eval source filename => .eval (.binary source) (.binary filename) run
  | .setGlobal name value => .setGlobal (.binary (bytes name)) value run
  | .deliver reply => .deliverHostReply reply
  | .destroy => .destroyContext

/-- After it there is no engine behind the context. -/
def ContextUse.isDestroy : ContextUse → Bool
  | .destroy => true
  | _ => false

/-- An engine with the states `G`. -/
structure Runtime (G : Type) where
  fresh : G
  eval : Bytes → Bytes → G → EngineRun × G
  /-- `JS_SetPropertyStr`, which may run a setter. -/
  setGlobal : String → Term → G → EngineRun × G
  /-- A call that waited has its reply. -/
  wake : G → EngineRun × G

/-- What the engine does in a call. -/
def Runtime.runs {G : Type} (engine : Runtime G) : ContextUse → G → EngineRun × G
  | .eval source filename, g => engine.eval source filename g
  | .setGlobal name value, g => engine.setGlobal name value g
  | .deliver _, g | .destroy, g => (.ends (.returns .ok), g)

/-- What the caller sees of the end of a call, if the virtual machine survives it: a term or an
exception, or nothing while the call waits. -/
def CallEnd.answer : CallEnd → Option (Option (Except Term Term))
  | .done (.returns t) => some (some (.ok t))
  | .done .raises => some (some (.error (.atom "badarg")))
  | .done .crashes | .faults => none
  | .waits => some none

/-- The contexts of an engine. -/
def contexts {G : Type} (engine : Runtime G) :
    ResourceKind ContextUse (Except Term Term) (BeamjsContext × G) where
  fresh := (.new, engine.fresh)
  use u s :=
    let (run, g) := engine.runs u s.2
    let (c, e) := s.1.call (u.call run)
    e.answer.map fun a => ((c, g), a)
  resume s :=
    let (run, g) := engine.wake s.2
    (s.1.wake run).bind fun (c, e) => e.answer.map fun a => ((c, g), a)
  closes := ContextUse.isDestroy
  closed s := s.1.ctx = .null
  closed_of_closes hu hs := by
    rename_i u s s' a
    cases u <;> cases hu
    cases hs
    exact ⟨rfl, rfl⟩

/-! ## Callbacks on a context -/

variable {W : Type}

/-- The code of a caller of the NIF. -/
abbrev SessionProgram (W : Type) := Program (PoolOp ContextUse (Except Term Term) W) Term Term

/-- One operation on the context `h`, and then `k`. -/
def Op.on {α : Type} (h : ℕ) (op : Op W α) (k : Except Term α → SessionProgram W) :
    SessionProgram W :=
  match op, k with
  | .otp f, k => .perform (.env f) k
  | .setGlobal name value, k =>
    .perform (.use h (.setGlobal name value)) fun r => k (r.map fun _ => ())
  | .eval source filename, k => .perform (.use h (.eval source filename)) k
  | .deliver reply, k => .perform (.use h (.deliver reply)) fun r => k (r.map fun _ => ())

/-- A callback on the context `h`, and then `k` with its result or its exception. -/
def Callback.on {α : Type} (h : ℕ) : Callback W α → (Except Term α → SessionProgram W) →
    SessionProgram W
  | .ret a, k => k (.ok a)
  | .raise e, k => k (.error e)
  | .perform op next, k => op.on h fun
    | .ok b => Callback.on h (next b) k
    | .error e => k (.error e)

/-- `{:ok, ctx_ref} = BeamjsNif.new_context([])`. -/
def newContext (body : ℕ → SessionProgram W) : SessionProgram W :=
  .perform .create fun
    | some h => body h
    | none => .raise (.atom "badmatch")

/-- `BeamjsNif.destroy_context(ctx_ref)`. -/
def destroyContext (h : ℕ) (next : SessionProgram W) : SessionProgram W :=
  .perform (.use h .destroy) fun _ => next

/-! ## The callers -/

/-- `eval_sync`. -/
def evalSyncSession (source filename : Bytes) : SessionProgram W :=
  newContext fun h => (BeamJS.evalSync source filename).on h fun
    | .ok result => destroyContext h (.ret result)
    | .error e => .raise e

/-- The function of a `task_async`. -/
def taskSession (source : Bytes) : SessionProgram W :=
  newContext fun h => (Callback.eval source (bytes "<task>")).on h fun
    | .ok result => destroyContext h <|
      match result with
      | .tuple [.atom "ok", value] => .ret value
      | .tuple [.atom "error", reason] => .ret (.errorTuple reason)
      | result => .raise (.tuple [.atom "case_clause", result])
    | .error e => .raise e

/-- The evaluation of an `agent_update`. -/
def agentUpdateEval (fnSource : Bytes) (current : Term) : Callback W Term := do
  Callback.setGlobal "__agent_state" current
  Callback.eval (bytes "var __fn = " ++ fnSource ++ bytes "; __fn(__agent_state);")
    (bytes "<agent>")

/-- The function of an `agent_update`. -/
def agentUpdateSession (fnSource : Bytes) (current : Term) : SessionProgram W :=
  newContext fun h => (agentUpdateEval fnSource current).on h fun
    | .ok (.tuple [.atom "ok", newState]) => destroyContext h (.ret newState)
    | .ok (.tuple [.atom "error", _]) => destroyContext h (.ret current)
    | .ok result => .raise (.tuple [.atom "case_clause", result])
    | .error e => .raise e

section Process

variable (sys : Otp W)

/-- The loop of the GenServer over the messages that come. `terminate` is called when a callback
stops the process or raises. -/
def processLoop (h : ℕ) : List Message → ProcState → SessionProgram W
  | [], _ => .ret .ok
  | m :: messages, s => (m.handle sys s).on h fun
    | .ok (some s) => processLoop h messages s
    | .ok none => destroyContext h (.ret .ok)
    | .error e => destroyContext h (.raise e)

/-- A `BeamjsCore.Process`. A process that its `init` stops is not terminated. -/
def processSession (opts : InitOpts) (messages : List Message) : SessionProgram W :=
  newContext fun h => (init sys opts).on h fun
    | .ok (.ok s) => processLoop sys h messages s
    | .ok (.error reason) => .raise reason
    | .error e => .raise e

end Process

/-! ## A virtual machine -/

/-- The handles of the contexts that were created. -/
def handlesOf {ι G ε α : Type}
    (x : Pool ι ContextUse (Except Term Term) (BeamjsContext × G) W ε α) : List BeamjsContext :=
  x.table.map Prod.fst

/-- The use of a context that a caller makes next, and its handle. -/
def useOf {ε α : Type} : Client ContextUse (Except Term Term) W ε α → Option (ℕ × ContextUse)
  | .runs (.perform (.use h u) _) => some (h, u)
  | _ => none

/-- The operation of the NIF that a caller performs next, with `run` for what the engine does in it.
-/
def nifActOf {ε α : Type} (run : EngineRun) :
    Client ContextUse (Except Term Term) W ε α → Option NifAct
  | .runs (.perform .create _) => some (.newContext .created)
  | .runs (.perform (.use h u) _) => some (.call h (u.call run))
  | .waits h _ => some (.wake h run)
  | _ => none

end BeamJS
