import BeamJS.Lib.Transition
import BeamJS.Nif.Eval

/-!
# Context handles

The operations of `beamjs_nif.c` on the handles of contexts, as far as the engine behind a handle is
concerned: whether it is there, and who still holds on to it.
-/

namespace BeamJS

open Lib

/-- A pointer to a part of the engine. What is freed is set to `NULL` in the handle. -/
inductive EnginePtr where
  | live | null
  deriving DecidableEq

/-- A context handle. -/
structure BeamjsContext where
  rt : EnginePtr
  ctx : EnginePtr
  hostReplyReady : Bool
  /-- The calls that wait for a host reply. They go on with the engine that they started on. -/
  waiting : ℕ
  deriving DecidableEq

/-- What the engine does next in a call: it returns the result, or sends a request to the owner. -/
inductive EngineRun where
  | ends (result : NifResult)
  | hostCall

/-- The end of an operation, or of its first part. -/
inductive CallEnd where
  | done (result : NifResult)
  | waits
  /-- It used a part of the engine that is `NULL` or freed. -/
  | faults

/-- A call of a NIF on a handle. -/
inductive HandleCall where
  | destroyContext
  | eval (source filename : Term) (run : EngineRun)
  | callFunction (name args : Term) (run : EngineRun)
  | setGlobal (name value : Term) (run : EngineRun)
  | getGlobal (name : Term) (run : EngineRun)
  | executePendingJobs (run : EngineRun)
  | deliverHostReply (reply : Term)

/-- `enif_inspect_binary` or else `enif_inspect_iolist_as_binary`. -/
def inspectIolist : Term → Option Bytes
  | .binary b => some b
  | .list elems => Term.iolistBytes elems
  | _ => none

namespace BeamjsContext

/-- The context that `nif_new_context` returns. -/
def new : BeamjsContext := ⟨.live, .live, false, 0⟩

/-- The engine is used through the pointer `p`. -/
def useEngine (c : BeamjsContext) (p : EnginePtr) (run : EngineRun) : BeamjsContext × CallEnd :=
  match p, run with
  | .null, _ => (c, .faults)
  | .live, .ends result => (c, .done result)
  | .live, .hostCall => ({ c with waiting := c.waiting + 1 }, .waits)

/-- The guard of `nif_eval` and `nif_call_function`. -/
def guarded (c : BeamjsContext) (body : BeamjsContext × CallEnd) : BeamjsContext × CallEnd :=
  match c.ctx with
  | .null => (c, .done (.returns (.errorTuple (.atom "context_destroyed"))))
  | .live => body

/-- The part of a NIF after an argument that has to be a binary. -/
def withText (c : BeamjsContext) (arg : Term) (body : BeamjsContext × CallEnd) :
    BeamjsContext × CallEnd :=
  match inspectIolist arg with
  | some _ => body
  | none => (c, .done .raises)

/-- One call. -/
def call (c : BeamjsContext) : HandleCall → BeamjsContext × CallEnd
  | .destroyContext => ({ c with ctx := .null, rt := .null }, .done (.returns .ok))
  | .eval source filename run =>
    c.guarded (c.withText source (c.withText filename (c.useEngine c.rt run)))
  | .callFunction name _ run => c.guarded (c.withText name (c.useEngine c.rt run))
  | .setGlobal name _ run => c.withText name (c.useEngine c.ctx run)
  | .getGlobal name run => c.withText name (c.useEngine c.ctx run)
  | .executePendingJobs run => c.useEngine c.rt run
  | .deliverHostReply _ => ({ c with hostReplyReady := true }, .done (.returns .ok))

/-- A waiting call takes the reply and goes on, with the `JSContext` that it was given. -/
def wake (c : BeamjsContext) (run : EngineRun) : Option (BeamjsContext × CallEnd) :=
  match c.waiting, c.hostReplyReady with
  | waiting + 1, true => some ({ c with waiting, hostReplyReady := false }.useEngine c.ctx run)
  | _, _ => none

end BeamjsContext

/-! ## Any sequence of operations -/

/-- The ends of `nif_new_context`. -/
inductive Creation where
  | created | noRuntime | noContext

/-- An operation of the module, or a waiting call that goes on. -/
inductive NifAct where
  | newContext (creation : Creation)
  | call (handle : ℕ) (c : HandleCall)
  | wake (handle : ℕ) (run : EngineRun)

/-- One operation on the handles that were created so far. -/
def nifStep (act : NifAct) (handles : List BeamjsContext) :
    Option (List BeamjsContext × CallEnd) :=
  match act with
  | .newContext .created =>
    some (handles ++ [.new], .done (.returns (.tuple [.atom "ok", .ref handles.length])))
  | .newContext .noRuntime =>
    some (handles, .done (.returns (.errorTuple (.atom "runtime_creation_failed"))))
  | .newContext .noContext =>
    some (handles, .done (.returns (.errorTuple (.atom "context_creation_failed"))))
  | .call i op => handles[i]?.map fun c => ((handles.set i (c.call op).1), (c.call op).2)
  | .wake i run =>
    handles[i]?.bind fun c => (c.wake run).map fun r => (handles.set i r.1, r.2)

/-- The handles of a virtual machine. -/
def nifSystem : Lts (List BeamjsContext) NifAct where
  init handles := handles = []
  step handles act handles' := ∃ e, nifStep act handles = some (handles', e)

/-! ## What a caller may expect -/

/-- The handle of the operation is destroyed. -/
def OnDestroyed (handles : List BeamjsContext) : NifAct → Prop
  | .newContext _ => False
  | .call i _ | .wake i _ => ∃ c, handles[i]? = some c ∧ c.ctx = .null

/-- The operation uses no part of an engine that is gone, and after the destruction it returns `ok`
or an error. -/
structure EngineSafe (handles : List BeamjsContext) (act : NifAct) : Prop where
  no_fault : ∀ handles', nifStep act handles ≠ some (handles', .faults)
  destroyed : OnDestroyed handles act → ∀ handles' e, nifStep act handles = some (handles', e) →
    e = .done (.returns .ok) ∨ ∃ reason, e = .done (.returns (.errorTuple reason))

/-- The call has a handle that it may be made on: an engine to work on where it does not ask for
one, and no call that still waits where it destroys the engine. -/
def HandleCall.Suits (c : BeamjsContext) : HandleCall → Prop
  | .setGlobal _ _ _ | .getGlobal _ _ | .executePendingJobs _ => c.ctx = .live
  | .destroyContext => c.waiting = 0
  | _ => True

/-- The operation suits its handle. -/
def Suitable (handles : List BeamjsContext) : NifAct → Prop
  | .call i op => ∀ c, handles[i]? = some c → op.Suits c
  | _ => True

end BeamJS
