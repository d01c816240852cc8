import BeamJS.Core.Process
import BeamJS.Nif.Transport

/-!
# JavaScript GenServers

A process whose program has defined `__genserver_handle_call` and `__genserver_handle_cast` serves
requests one after another. Its handlers are functions on JavaScript values. Each request leaves a
record of the state its handler was given and of what came of it.
-/

namespace BeamJS

open Lib JsValue

/-- What a handler returns: `{reply, state}` or `{noreply: true, state}`. -/
inductive HandlerResult where
  | reply (reply state : JsValue)
  | noreply (state : JsValue)

/-- The state returned. -/
def HandlerResult.state : HandlerResult → JsValue
  | .reply _ state => state
  | .noreply state => state

/-- The object returned. -/
def HandlerResult.toJs : HandlerResult → JsValue
  | .reply answer state => .object none [(js "reply", answer), (js "state", state)]
  | .noreply state => .object none [(js "noreply", .bool true), (js "state", state)]

/-- The methods of the instance behind the two global functions. -/
structure Handlers where
  handleCall : (request caller state : JsValue) → HandlerResult
  handleCast : (request state : JsValue) → HandlerResult

/-- The context of a GenServer: its globals, and the names that its runtime knows now and will know
after the next evaluation. -/
structure GsContext (W : Type) where
  world : W
  known : Atoms
  knownNext : Atoms
  state : JsValue
  pendingCallFrom : JsValue
  pendingCallRequest : JsValue
  pendingCastRequest : JsValue
  /-- The state that the last handler was given, and its result. -/
  invoked : Option (JsValue × HandlerResult)

namespace GsContext

variable {W : Type}

/-- `JS_SetPropertyStr` on the global object, for the globals that matter here. -/
def setGlobal (c : GsContext W) (name : String) (v : JsValue) : GsContext W :=
  if name = "__genserver_state" then { c with state := v }
  else if name = "__pending_call_from" then { c with pendingCallFrom := v }
  else if name = "__pending_call_request" then { c with pendingCallRequest := v }
  else if name = "__pending_cast_request" then { c with pendingCastRequest := v }
  else c

/-- The end of an evaluation whose completion value is the object of a handler. -/
def finish (ord : MapOrder) (c : GsContext W) (result : HandlerResult) :
    Except Term Term × GsContext W :=
  (match jsValueToErl ord result.toJs with
    | some t => .ok (.tuple [.atom "ok", t])
    | none => .error (.atom "badarg"),
    { c with known := c.knownNext, invoked := some (c.state, result) })

/-- The operations of `handle_call` and `handle_cast`. -/
def op (ord : MapOrder) (h : Handlers) :
    ∀ {α : Type}, Op W α → GsContext W → Except Term α × GsContext W
  | _, .otp f, c => ((f c.world).1, { c with world := (f c.world).2 })
  | _, .setGlobal name value, c =>
    (.ok (), { c with known := (erlTermToJs c.known value).2 }.setGlobal name
      (erlTermToJs c.known value).1)
  | _, .eval source _, c =>
    if source = callSource then
      c.finish ord (h.handleCall c.pendingCallRequest c.pendingCallFrom c.state)
    else if source = castSource then c.finish ord (h.handleCast c.pendingCastRequest c.state)
    else (.error (.atom "undef"), c)
  | _, .deliver _, c => (.ok (), c)

end GsContext

/-- A request, with the names that the runtime knows when it is served and when the state it returns
is stored. -/
structure GsRequest where
  /-- The caller of a `js_call`, none for a `js_cast`. -/
  caller : Option Term
  request : Term
  known : Atoms
  knownNext : Atoms

/-- What the caller gets. -/
inductive Sent where
  | reply (t : Term)
  | nothing
  /-- The callback raised and took the process down. -/
  | crash

/-- The record of a request: the state that the handler was given, its result, and what the caller
got. -/
structure GsRecord where
  request : GsRequest
  arg : JsValue
  result : HandlerResult
  sent : Sent

/-- A running GenServer. -/
structure Gs (W : Type) where
  proc : ProcState
  context : GsContext W

variable {W : Type} (sys : Otp W) (h : Handlers)

/-- The callback for a request. -/
def gsCallback (r : GsRequest) (s : ProcState) : Callback W Outcome :=
  match r.caller with
  | some caller => handleCall sys (.jsCall r.request) caller s
  | none => handleCast r.request s

/-- Serve one request. There is no state afterwards where the process goes down. -/
def serve (gs : Gs W) (r : GsRequest) : Option (Gs W) × GsRecord :=
  let run := (gsCallback sys r gs.proc).run (GsContext.op sys.maps h)
    { gs.context with known := r.known, knownNext := r.knownNext, invoked := none }
  let (arg, result) := run.2.invoked.getD (.undefined, .noreply .undefined)
  match run.1 with
  | .ok (.reply t proc) => (some ⟨proc, run.2⟩, ⟨r, arg, result, .reply t⟩)
  | .ok (.noreply proc) => (some ⟨proc, run.2⟩, ⟨r, arg, result, .nothing⟩)
  | .ok (.stop _ _ _) => (none, ⟨r, arg, result, .nothing⟩)
  | .error _ => (none, ⟨r, arg, result, .crash⟩)

/-- Serve requests until the process goes down. -/
def serveAll (gs : Gs W) : List GsRequest → List GsRecord
  | [] => []
  | r :: rs =>
    match serve sys h gs r with
    | (some gs', record) => record :: serveAll gs' rs
    | (none, record) => [record]

/-- A GenServer whose `init` returned `s0`. -/
def Gs.start (opts : InitOpts) (world : W) (s0 : JsValue) : Gs W where
  proc := initialState sys opts
  context :=
    { world, known := [], knownNext := [], state := s0, pendingCallFrom := .undefined,
      pendingCallRequest := .undefined, pendingCastRequest := .undefined, invoked := none }

/-! ## The fold of the handlers -/

/-- What the handler for a request returns in a state. -/
def answer (r : GsRequest) (state : JsValue) : HandlerResult :=
  let request := (erlTermToJs r.known r.request).1
  match r.caller with
  | some caller =>
    h.handleCall request (erlTermToJs r.known (.binary (sys.encode64 caller))).1 state
  | none => h.handleCast request state

/-- The caller of a `js_call` gets the reply of the handler, and nobody gets anything else. -/
def RepliesAsHandled (ord : MapOrder) (r : GsRecord) : Prop :=
  match r.request.caller, r.result with
  | some _, .reply answer _ => ∃ t, jsValueToErl ord answer = some t ∧ r.sent = .reply t
  | _, _ => r.sent = .nothing

/-- The records fold the handlers from `s` on: each handler is given a state deep-equal to the one
returned before, and its reply is sent. -/
inductive FoldsFrom : JsValue → List GsRecord → Prop
  | nil {s : JsValue} : FoldsFrom s []
  | cons {s : JsValue} {r : GsRecord} {rs : List GsRecord} (arg : deepEq r.arg s = true)
      (result : r.result = answer sys h r.request r.arg) (sent : RepliesAsHandled sys.maps r)
      (rest : FoldsFrom r.result.state rs) : FoldsFrom s (r :: rs)

/-- The handler's result holds only finite numbers, so that it converts. -/
def Converts (ord : MapOrder) (r : GsRecord) : Prop :=
  (jsValueToErl ord r.result.toJs).isSome = true

/-- The state returned reaches the next handler: it is plain data that survives the way to Erlang
and back, except that a `js_cast` only keeps the state of `{noreply: true, state}`. -/
def StateCarried (ord : MapOrder) (r : GsRecord) : Prop :=
  match r.request.caller, r.result with
  | none, .reply _ state => deepEq r.arg state = true
  | _, result =>
    isPlainData result.state = true ∧ Transportable ord r.request.knownNext result.state

instance (ord : MapOrder) (r : GsRecord) : Decidable (Converts ord r) :=
  inferInstanceAs (Decidable (_ = true))

instance (ord : MapOrder) : ∀ r, Decidable (StateCarried ord r)
  | ⟨⟨none, _, _, _⟩, _, .reply _ _, _⟩ => inferInstanceAs (Decidable (_ = true))
  | ⟨⟨none, _, _, _⟩, _, .noreply _, _⟩ => inferInstanceAs (Decidable (_ ∧ _))
  | ⟨⟨some _, _, _, _⟩, _, .reply _ _, _⟩ => inferInstanceAs (Decidable (_ ∧ _))
  | ⟨⟨some _, _, _, _⟩, _, .noreply _, _⟩ => inferInstanceAs (Decidable (_ ∧ _))

end BeamJS
