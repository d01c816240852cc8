import BeamJS.Core.Handler
import BeamJS.Lib.Transition

/-!
# Messages for a GenServer

A program that defines the three global functions of a GenServer, and the process that gets calls,
casts and plain messages for it. Each call of one of the functions by the process is recorded with
what came of it.
-/

namespace BeamJS

open Lib JsValue

/-- The call of a global function by the process. -/
inductive MethodCall where
  | handleCall (request caller : JsValue) (state : EvalValue)
  | handleCast (request : JsValue) (state : EvalValue)
  | handleInfo (message : JsValue) (state : EvalValue)

namespace MethodCall

/-- The message of a call of `__genserver_handle_info`. -/
def message? : MethodCall → Option JsValue
  | handleInfo message _ => some message
  | _ => none

/-- The state that is passed. -/
def state : MethodCall → EvalValue
  | handleCall _ _ state | handleCast _ state | handleInfo _ state => state

end MethodCall

/-- A call, what `__genserver_state` held before it, and its run. -/
structure Invocation where
  call : MethodCall
  before : EvalValue
  run : MethodRun

/-- The context with the calls made in it, in order. -/
structure DispatchContext (W : Type) where
  context : RequestContext W
  invoked : List Invocation

/-- The programs that the process may evaluate: the methods behind `callSource` and `castSource`,
and any others, which may call all three functions. -/
structure DispatchPrograms (W : Type) where
  methods : Methods
  others : Bytes → DispatchContext W → Except Term Term × DispatchContext W

namespace DispatchContext

variable {W : Type}

/-- Run a method and record it. -/
def invoke (ord : MapOrder) (c : DispatchContext W) (call : MethodCall) (run : MethodRun) :
    Except Term Term × DispatchContext W :=
  (RequestContext.evalResult ord run.ended,
    ⟨{ c.context with state := run.state }, c.invoked ++ [⟨call, c.context.state, run⟩]⟩)

/-- The operations of the callbacks. -/
def op (ord : MapOrder) (programs : DispatchPrograms W) :
    ∀ {α : Type}, Op W α → DispatchContext W → Except Term α × DispatchContext W
  | _, .otp f, c =>
    ((f c.context.world).1, { c with context := { c.context with world := (f c.context.world).2 } })
  | _, .setGlobal name value, c =>
    let read := { c.context with known := (erlTermToJs c.context.known value).2 }
    (.ok (), { c with context := read.setGlobal name (erlTermToJs c.context.known value).1 })
  | _, .eval source _, c =>
    if source = callSource then
      c.invoke ord (.handleCall c.context.pendingCallRequest c.context.pendingCallFrom
          c.context.state)
        (programs.methods.handleCall c.context.pendingCallRequest c.context.pendingCallFrom
          c.context.state)
    else if source = castSource then
      c.invoke ord (.handleCast c.context.pendingCastRequest c.context.state)
        (programs.methods.handleCast c.context.pendingCastRequest c.context.state)
    else programs.others source c
  | _, .deliver _, c => (.ok (), c)

end DispatchContext

/-- A process with its context, and the plain messages that have arrived for it. -/
structure InfoServer (W : Type) where
  proc : ProcState
  context : DispatchContext W
  arrived : List Term

/-- An event for the process: a `js_call` of a caller, a `js_cast` for none, or a `js_message`. -/
inductive ServerEvent where
  | request (caller : Option Term) (request : Term)
  | message (message : Term)

section Server

variable {W : Type} (sys : Otp W) (programs : DispatchPrograms W)

/-- One event. There is no next state where the process goes down. -/
def InfoServer.step (st : InfoServer W) : ServerEvent → Option (InfoServer W)
  | .request caller request =>
    match (requestCallback sys caller request st.proc).run
      (DispatchContext.op sys.maps programs) st.context with
    | (.ok (.reply _ proc), context) | (.ok (.noreply proc), context) =>
      some { st with proc, context }
    | (.ok (.stop _ _ _), _) | (.error _, _) => none
  | .message message =>
    match (handleInfo sys (.jsMessage message) st.proc).run
      (DispatchContext.op sys.maps programs) st.context with
    | (.ok proc, context) => some { proc, context, arrived := st.arrived ++ [message] }
    | (.error _, _) => none

/-- The process once its program is evaluated. Nothing was called and nothing has arrived yet. -/
def infoLts : Lts (InfoServer W) ServerEvent where
  init st := st.context.invoked = [] ∧ st.arrived = []
  step st event st' := st.step sys programs event = some st'

variable {sys programs}

/-- The messages that `__genserver_handle_info` was called with. -/
def InfoServer.handled (st : InfoServer W) : List JsValue :=
  st.context.invoked.filterMap fun i => i.call.message?

/-- The value under `state` of the object that a method returned. -/
def MethodRun.returnedState? (run : MethodRun) : Option JsValue :=
  match run.ended with
  | .ok (.tree (.object _ props)) => props.lookup (js "state")
  | _ => none

/-- Every message is passed to `__genserver_handle_info` once, in order, with the state that the
server then has, and the state that it returns is passed to the next call. -/
structure InfoServer.Dispatches (st : InfoServer W) : Prop where
  once : List.Forall₂ (fun v message => ∃ known, v = (erlTermToJs known message).1) st.handled
    st.arrived
  current : ∀ i ∈ st.context.invoked, i.call.message?.isSome = true → i.call.state = i.before
  handed : st.context.invoked.IsChain fun i j => ∀ state, i.call.message?.isSome = true →
    i.run.returnedState? = some state → SameState state j.call.state

/-- The event is no plain message. -/
def ServerEvent.isRequest : ServerEvent → Bool
  | .request _ _ => true
  | .message _ => false

end Server

end BeamJS
