import BeamJS.Core.Process
import BeamJS.Nif.Eval
import BeamJS.Js.PlainData

/-!
# One request of a GenServer

The methods of a GenServer class as they really run: `handleCall` and `handleCast` get the object
that `__genserver_state` refers to, may change it in place, and return any value or throw.
-/

namespace BeamJS

open Lib JsValue

/-- A run of a method: how it ends, and what `__genserver_state` holds then. -/
structure MethodRun where
  ended : Except EvalValue EvalValue
  state : EvalValue

/-- The methods behind `__genserver_handle_call` and `__genserver_handle_cast`. -/
structure Methods where
  handleCall : (request caller : JsValue) → (state : EvalValue) → MethodRun
  handleCast : (request : JsValue) → (state : EvalValue) → MethodRun

/-- The context of a GenServer, as far as a request reads and writes it. -/
structure RequestContext (W : Type) where
  world : W
  known : Atoms
  state : EvalValue
  pendingCallFrom : JsValue
  pendingCallRequest : JsValue
  pendingCastRequest : JsValue

namespace RequestContext

variable {W : Type}

/-- `JS_SetPropertyStr` on the global object, for the globals that matter here. -/
def setGlobal (c : RequestContext W) (name : String) (v : JsValue) : RequestContext W :=
  if name = "__genserver_state" then { c with state := .tree v }
  else if name = "__pending_call_from" then { c with pendingCallFrom := v }
  else if name = "__pending_call_request" then { c with pendingCallRequest := v }
  else if name = "__pending_cast_request" then { c with pendingCastRequest := v }
  else c

/-- What `BeamjsNif.eval` gives for a program that ends like a method. -/
def evalResult (ord : MapOrder) (ended : Except EvalValue EvalValue) : Except Term Term :=
  match nifEval ord (.script ended) with
  | .returns t => .ok t
  | .raises => .error (.atom "badarg")
  -- the virtual machine goes down with the process
  | .crashes => .error (.atom "killed")

/-- The operations of `handle_call` and `handle_cast`. -/
def op (ord : MapOrder) (methods : Methods) :
    ∀ {α : Type}, Op W α → RequestContext W → Except Term α × RequestContext W
  | _, .otp f, c => ((f c.world).1, { c with world := (f c.world).2 })
  | _, .setGlobal name value, c =>
    (.ok (), { c with known := (erlTermToJs c.known value).2 }.setGlobal name
      (erlTermToJs c.known value).1)
  | _, .eval source _, c =>
    if source = callSource then
      let run := methods.handleCall c.pendingCallRequest c.pendingCallFrom c.state
      (evalResult ord run.ended, { c with state := run.state })
    else if source = castSource then
      let run := methods.handleCast c.pendingCastRequest c.state
      (evalResult ord run.ended, { c with state := run.state })
    else (.error (.atom "undef"), c)
  | _, .deliver _, c => (.ok (), c)

end RequestContext

section Request

variable {W : Type} (sys : Otp W) (methods : Methods)

/-- `handle_call({:js_call, request})` for the caller, or `handle_cast({:js_cast, request})` where
there is none. -/
def requestCallback (caller : Option Term) (request : Term) (p : ProcState) : Callback W Outcome :=
  match caller with
  | some caller => handleCall sys (.jsCall request) caller p
  | none => handleCast request p

/-- Serve a request. -/
def serveRequest (caller : Option Term) (request : Term) (p : ProcState) (c : RequestContext W) :
    Except Term Outcome × RequestContext W :=
  (requestCallback sys caller request p).run (RequestContext.op sys.maps methods) c

/-- The run of the method for a request. -/
def methodRun (caller : Option Term) (request : Term) (c : RequestContext W) : MethodRun :=
  match caller with
  | some caller =>
    let (from', known) := erlTermToJs c.known (.binary (sys.encode64 caller))
    methods.handleCall (erlTermToJs known request).1 from' c.state
  | none => methods.handleCast (erlTermToJs c.known request).1 c.state

end Request

/-! ## Requests that fail -/

/-- The state is the one it was, or deep-equal to it. -/
inductive SameState (before : JsValue) : EvalValue → Prop
  | same : SameState before (.tree before)
  | equal {after : JsValue} (h : deepEq after before = true) : SameState before (.tree after)

/-- The own property `k` as it arrives, if the object has it. -/
def arriving (ord : MapOrder) (props : List (JsString × JsValue)) (k : JsString) : Option Term :=
  (props.lookup k).bind (jsValueToErl ord)

/-- The server terminates with the reason under `stop`, after the reply under `reply` for a caller.
-/
def StopsAsAsked (ord : MapOrder) (caller : Option Term) (props : List (JsString × JsValue))
    (outcome : Except Term Outcome) : Prop :=
  ∃ reason p', arriving ord props (js "stop") = some reason ∧
    match caller with
    | some _ => outcome = .ok (.stop reason (arriving ord props (js "reply")) p')
    | none => outcome = .ok (.stop reason none p')

/-- The map that the returned object becomes has its `stop`, and for a call its `reply` and no
`state`, for a cast not both `noreply: true` and `state`. -/
def ArrivesAsStop (ord : MapOrder) (caller : Option Term) (proto : Option JsValue)
    (props : List (JsString × JsValue)) : Prop :=
  ∃ m reason, jsValueToErl ord (.object proto props) = some m ∧
    arriving ord props (js "stop") = some reason ∧ m.get? "stop" = some reason ∧
    match caller with
    | some _ => ∃ reply, arriving ord props (js "reply") = some reply ∧ m.get? "reply" = some reply ∧
        m.get? "state" = none
    | none => ¬ (m.get? "noreply" = some (.atom "true") ∧ (m.get? "state").isSome = true)

/-- The keys that the callbacks look at in a returned object, other than `error`. -/
def outcomeKeys : List String := ["stop", "reply", "noreply", "state"]

end BeamJS
