import BeamJS.Core.Process
import BeamJS.Lib.Transition

/-!
# A process and its evaluations

The process that owns a context works off its messages, one callback at a time. A callback that
calls `BeamjsNif.eval` waits inside the NIF until the evaluation returns, while the evaluation sends
its requests to the same process: `nif_new_context` takes the process that calls it for the owner,
and every caller evaluates in the context that it created itself.
-/

namespace BeamJS

open Lib

/-- The engine of a context. Its globals `G` outlive an evaluation `E`. -/
structure Engine (E G : Type) where
  /-- `BeamjsNif.new_context`. -/
  fresh : G
  /-- `BeamjsNif.set_global`. -/
  setGlobal : String → Term → G → G
  /-- The start of `BeamjsNif.eval` for a source and a filename. -/
  start : Bytes → Bytes → G → E
  next : E → Next E G

/-- A message in flight to the process. -/
inductive Message where
  | call (request : Request) (caller : Term)
  | cast (request : Term)
  | info (info : Info)

/-- Only the NIF sends `{:host_call, _, _}` and `{:load_module, _}`. -/
def Message.fromNif : Message → Bool
  | .info (.hostCall _ _) | .info (.loadModule _) => true
  | _ => false

/-- The message of a request. -/
def HostRequest.message {E : Type} : HostRequest E → Message
  | .hostCall fn args _ => .info (.hostCall fn args)
  | .loadModule name _ _ => .info (.loadModule (.binary name))

/-- The work of a process until its next message, and its state then, if it goes on. -/
abbrev Work (W : Type) := Callback W (Option ProcState)

/-- The state of the process after an outcome, unless it stops. -/
def Outcome.next : Outcome → Option ProcState
  | .reply _ s | .noreply s => some s
  | .stop _ _ _ => none

/-- The code that creates a context and owns it. -/
inductive Entry where
  /-- A `BeamjsCore.Process`, from its `init` on. -/
  | process (opts : InitOpts)
  | evalSync (source filename : Bytes)
  | task (source : Bytes)
  | agentUpdate (fnSource : Bytes) (current : Term)

/-- The process that owns the context. -/
inductive Owner (W : Type) : Type 1 where
  /-- In the loop of the GenServer. -/
  | looping (s : ProcState)
  | running (work : Work W)
  /-- Inside `BeamjsNif.eval`. -/
  | evaluating (resume : Term → Work W)
  | gone

/-- The process, the messages in flight to it, and the context. -/
structure System (W E G : Type) : Type 1 where
  owner : Owner W
  world : W
  inbox : List Message
  globals : G
  eval : EvalSide E Term

/-- A step of the process, of its evaluation, or of the world around them. -/
inductive SystemAct where
  | arrive (m : Message)
  /-- The loop takes the next message. -/
  | take
  /-- The callback takes a step. -/
  | work
  | thread
  /-- `BeamjsNif.eval` returns. -/
  | finish

section System

variable {W E G : Type} (sys : Otp W) (engine : Engine E G)

/-- The callback for a message. -/
def Message.handle (m : Message) (s : ProcState) : Callback W (Option ProcState) :=
  match m with
  | .call request caller => do
    let outcome ← handleCall sys request caller s
    return outcome.next
  | .cast request => do
    let outcome ← handleCast request s
    return outcome.next
  | .info message => do
    let s ← handleInfo sys message s
    return some s

/-- What the owner of the context runs first. -/
def Entry.work : Entry → Callback W (Option ProcState)
  | .process opts => do
    match ← init sys opts with
    | .ok s => return some s
    | .error _ => return none
  | .evalSync source filename => do
    let _ ← BeamJS.evalSync source filename
    return none
  | .task source => do
    let _ ← taskBody source
    return none
  | .agentUpdate fnSource current => do
    let _ ← agentUpdateBody fnSource current
    return none

/-- One operation of the callback. `deliver_host_reply` waits for the lock. -/
def workStep (x : System W E G) : Work W → Option (System W E G)
  | .ret (some s) => some { x with owner := .looping s }
  | .ret none => some { x with owner := .gone }
  | .raise _ => some { x with owner := .gone }
  | .perform op next =>
    match op, next with
    | .otp f, next =>
      match f x.world with
      | (.ok a, world) => some { x with owner := .running (next a), world }
      | (.error _, world) => some { x with owner := .gone, world }
    | .setGlobal name value, next =>
      some { x with owner := .running (next ()), globals := engine.setGlobal name value x.globals }
    | .eval source filename, next =>
      some { x with
        owner := .evaluating next
        eval.phase := .running (engine.start source filename x.globals) }
    | .deliver reply, next =>
      if x.eval.slot.holder = .free then
        some { x with owner := .running (next ()), eval.slot := .deliver reply }
      else none

/-- One step. -/
def systemStep (act : SystemAct) (x : System W E G) : Option (System W E G) :=
  match act with
  | .arrive m => if m.fromNif then none else some { x with inbox := x.inbox ++ [m] }
  | .take =>
    match x.owner, x.inbox with
    | .looping s, m :: inbox => some { x with owner := .running (m.handle sys s), inbox }
    | _, _ => none
  | .work =>
    match x.owner with
    | .running work => workStep engine x work
    | _ => none
  | .thread =>
    (threadStep engine.next id x.eval).map fun eval =>
      { x with
        eval
        inbox := x.inbox ++ (requestOf engine.next x.eval).toList.map HostRequest.message }
  | .finish =>
    match x.owner, x.eval.phase with
    | .evaluating resume, .running e =>
      match engine.next e with
      | .done result globals =>
        some { x with
          owner := match result with
            | .ok t => .running (resume t)
            | .error _ => .gone
          globals
          eval.phase := .idle }
      | _ => none
    | _, _ => none

/-- The owner before its work, with a new context. -/
def System.start (entry : Entry) (world : W) : System W E G where
  owner := .running (entry.work sys)
  world
  inbox := []
  globals := engine.fresh
  eval := ⟨.idle, 0, .empty⟩

/-- The runs of an owner and its evaluations. -/
def system (entry : Entry) (world : W) : Lts (System W E G) SystemAct where
  init x := x = System.start sys engine entry world
  step x act y := systemStep sys engine act x = some y

/-- The thread sends a request in its next step. -/
def Requesting (x : System W E G) : Prop := (requestOf engine.next x.eval).isSome = true

end System

/-- The thread waits for a reply in `host_call_generic` or `beamjs_module_loader`. -/
inductive Phase.Waiting {E : Type} : Phase E → Prop
  | locking (r : HostRequest E) : Waiting (.locking r)
  | checking (r : HostRequest E) : Waiting (.checking r)
  | sleeping (r : HostRequest E) : Waiting (.sleeping r)

/-- The process is inside `BeamjsNif.eval`. -/
inductive Owner.Evaluating {W : Type} : Owner W → Prop
  | evaluating (resume : Term → Work W) : Evaluating (.evaluating resume)

/-- The evaluation waits for a reply of the process, which waits for the evaluation. -/
structure Deadlock {W E G : Type} (x : System W E G) : Prop where
  waiting : x.eval.phase.Waiting
  no_reply : x.eval.slot.ready = false
  evaluating : x.owner.Evaluating

end BeamJS
