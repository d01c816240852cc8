import BeamJS.Core.Replies
import BeamJS.Lib.Linearizable

/-!
# Agents

The operations of the class `Agent` with the host calls behind them, and one agent that any number
of processes use. The agent serves one request at a time, and between a call and its return a
process waits. What is left out is the 5000 ms after which the caller of an agent gives up: it goes
down, as it does when the agent is gone, and its operation never returns.
-/

namespace BeamJS

open Lib JsValue

/-- A pure function of JavaScript: its source text, and how it ends for an argument. -/
structure PureFn where
  text : JsString
  apply : JsValue → Except EvalValue EvalValue

/-- `get(fn)` and `update(fn)`. -/
inductive AgentOp where
  | get (fn : Option PureFn)
  | update (fn : PureFn)

namespace AgentOp

/-- The host function behind an operation. -/
def hostFn : AgentOp → HostFn
  | .get _ => .agentGet
  | .update _ => .agentUpdate

/-- The source that is sent with it, `fn.toString()` where there is a function. -/
def fnSource : AgentOp → JsString
  | .get none => js "function(s) \x7b return s; \x7d"
  | .get (some fn) | .update fn => fn.text

end AgentOp

/-- The machine of an agent: an OTP, the pid of the agent, the names that a new runtime knows, and
the engine of a new context by the value of its `__agent_state`. -/
structure AgentHost where
  base : Otp Unit
  pid : Pid
  fresh : Atoms
  engine : JsValue → Compiler
  /-- `"#{binary}"` is the binary. -/
  interpolate_binary : ∀ b, base.interpolate (.binary b) = .ok b

/-- The context of an update, as far as the program reads it. -/
structure TempContext where
  known : Atoms
  agentState : JsValue

namespace AgentHost

variable (host : AgentHost)

/-- The order of the maps. -/
abbrev maps : MapOrder := host.base.maps

/-- The state `t` as a new context is given it. -/
def copy (t : Term) : JsValue := (erlTermToJs host.fresh t).1

/-- The program of an update with the source of a function, in a context with the state `s`. -/
def program (fnSource : Bytes) (s : JsValue) : JsProgram :=
  (host.engine s).compile (bytes "var __fn = " ++ fnSource ++ bytes "; __fn(__agent_state);")

/-- The operations of an update in its context. -/
def tempOp : ∀ {α : Type}, Op Unit α → TempContext → Except Term α × TempContext
  | _, .otp f, c => ((f ()).1, c)
  | _, .setGlobal name value, c =>
    let (v, known) := erlTermToJs c.known value
    (.ok (), { known, agentState := if name = "__agent_state" then v else c.agentState })
  | _, .eval source _, c =>
    match nifEval host.maps ((host.engine c.agentState).compile source) with
    | .returns t => (.ok t, c)
    | .raises => (.error (.atom "badarg"), c)
    -- the virtual machine goes down
    | .crashes => (.error (.atom "killed"), c)
  | _, .deliver _, c => (.ok (), c)

/-- The function that `agent_update` hands to `Agent.update`: the new state, unless it raises. -/
def updated (fnSource current : Term) : Except Term Term :=
  match host.base.interpolate fnSource with
  | .ok source => ((agentUpdateBody source current).run host.tempOp ⟨host.fresh, .undefined⟩).1
  | .error reason => .error reason

/-- The pid is that of the agent. -/
def isAgent : Term → Bool
  | .pid p => p == host.pid
  | _ => false

/-- OTP with the agent, whose state is `none` before it starts and once it is down. -/
def otp : Otp (Option Term) :=
  { (host.base.still : Otp (Option Term)) with
    agentStart := fun value name _ =>
      match (host.base.agentStart value name ()).1 with
      | .ok (.ok _) => (.ok (.ok host.pid), some value)
      | .ok (.error reason) => (.ok (.error reason), none)
      | .error reason => (.error reason, none)
    agentGet := fun pid agent =>
      if host.isAgent pid then
        match agent with
        | some current => (.ok current, agent)
        | none => (.error (.atom "noproc"), none)
      else ((host.base.agentGet pid ()).1, agent)
    agentUpdate := fun pid fnSource agent =>
      if host.isAgent pid then
        match agent with
        | some current =>
          match host.updated fnSource current with
          | .ok new => (.ok (), some new)
          | .error reason => (.error reason, none)
        | none => (.error (.atom "noproc"), none)
      else ((host.base.agentUpdate pid fnSource ()).1, agent) }

end AgentHost

/-- A value that JavaScript holds for the agent, and the term that it becomes as an argument. It may
be rejected, but it stands for no other process. -/
structure AgentHandle (host : AgentHost) where
  value : JsValue
  term : Term
  converts : jsValueToErl host.maps value = some term
  only : ∀ t, deserializePid host.base.pids term = some t → host.isAgent t = true

/-- `deserialize_pid` takes the handle for the agent. -/
def AgentHandle.reaches {host : AgentHost} (handle : AgentHandle host) : Bool :=
  (deserializePid host.base.pids handle.term).isSome

/-- An operation of a process, with its state and the names that its runtime knows when the reply
arrives. -/
structure AgentCall (host : AgentHost) where
  op : AgentOp
  handle : AgentHandle host
  caller : ProcState
  known : Atoms

namespace AgentCall

variable {host : AgentHost}

/-- The host call, when the agent takes its request. What the caller does before and after it has no
effect on the agent. -/
def serve (c : AgentCall host) (agent : Option Term) :
    Except Term (Term × ProcState) × Option Term :=
  (dispatchHostCall host.otp c.op.hostFn [c.handle.term, .binary (toCStringLen c.op.fnSource)]
    c.caller).run worldOp agent

/-- The JavaScript value that the state of the agent stems from after the call. -/
def originAfter (c : AgentCall host) (agent : Option Term) (origin : JsValue) : JsValue :=
  match c.op, agent with
  | .update fn, some t =>
    if c.handle.reaches then
      match jsEval (host.program (toCStringLen fn.text) (host.copy t)) with
      | .ok (.tree v) => v
      | _ => origin
    else origin
  | _, _ => origin

end AgentCall

/-- The agent and the operations under way. -/
structure Agents (host : AgentHost) where
  agent : Option Term
  /-- The JavaScript value that the state of the agent stems from. Nothing depends on it. -/
  origin : JsValue
  pending : List (ℕ × AgentCall host)
  /-- What the processes that wait will be given. -/
  replies : List (ℕ × JsValue)
  history : List (HistoryEvent AgentOp JsValue)

/-- An event of a run. -/
inductive AgentEvent (host : AgentHost) where
  | call (c : AgentCall host)
  /-- The `i`-th of the pending requests is served. -/
  | serve (i : ℕ)
  | ret (i : ℕ)
  /-- The agent goes down, by `agent_stop` or an exit. -/
  | down

/-- One event. -/
def Agents.step {host : AgentHost} (x : Agents host) : AgentEvent host → Option (Agents host)
  | .call c => some { x with
      pending := x.pending ++ [(x.history.length, c)]
      history := x.history ++ [.call x.history.length c.op] }
  | .serve i =>
    match x.pending[i]? with
    | none => none
    | some (id, c) =>
      match c.serve x.agent with
      | (.ok (reply, _), agent) => some { x with
          agent
          origin := c.originAfter x.agent x.origin
          pending := x.pending.eraseIdx i
          replies := x.replies ++ [(id, (erlTermToJs c.known reply).1)] }
      -- the caller goes down
      | (.error _, agent) => some { x with agent, pending := x.pending.eraseIdx i }
  | .ret i =>
    match x.replies[i]? with
    | none => none
    | some (id, r) => some { x with
        replies := x.replies.eraseIdx i
        history := x.history ++ [.ret id r] }
  | .down => some { x with agent := none }

/-- An agent that a process starts with the initial value `v0` and some options. -/
def agentLts (host : AgentHost) (v0 : JsValue) : Lts (Agents host) (AgentEvent host) where
  init x :=
    (∃ t0 opts s, jsValueToErl host.maps v0 = some t0 ∧
      x.agent = ((dispatchHostCall host.otp .agentStart [t0, opts] s).run worldOp none).2) ∧
    x.origin = v0 ∧ x.pending = [] ∧ x.replies = [] ∧ x.history = []
  step x e y := x.step e = some y

/-! ## A cell -/

/-- What `get` applies to the state: its function, or none. -/
def applied (fn : Option PureFn) (s : JsValue) : Except EvalValue EvalValue :=
  match fn with
  | some fn => fn.apply s
  | none => .ok (.tree s)

/-- The string that the `:ok` of an update becomes. -/
def updateOk : JsValue := .string (js "ok")

/-- A cell of data: an operation with its result takes it from one state to the next. The functions
are applied to a copy of the state. -/
inductive Cell : JsValue → AgentOp → JsValue → JsValue → Prop
  | get {s copy v r : JsValue} {fn : Option PureFn} (hcopy : deepEq copy s = true)
      (hfn : applied fn copy = .ok (.tree v)) (hr : deepEq r v = true) : Cell s (.get fn) r s
  | update {s copy s' : JsValue} {fn : PureFn} (hcopy : deepEq copy s = true)
      (hfn : fn.apply copy = .ok (.tree s')) : Cell s (.update fn) updateOk s'
  | throws {s copy r : JsValue} {fn : PureFn} {exc : EvalValue} (hcopy : deepEq copy s = true)
      (hfn : fn.apply copy = .error exc) : Cell s (.update fn) r s
  /-- An update that does not succeed. -/
  | refused {s r : JsValue} {fn : PureFn} (hr : r ≠ updateOk) : Cell s (.update fn) r s

/-! ## When the agent is a cell -/

variable {host : AgentHost}

/-- The function gives the state back, which the runtime of the caller reads as it was. -/
def AgentCall.Reads (c : AgentCall host) (fn : Option PureFn) (origin : JsValue) : Prop :=
  Transportable host.maps c.known origin ∧
    ∃ v, applied fn origin = .ok (.tree v) ∧ deepEq origin v = true

/-- A new context reads the state as it was, its program is a script that ends as the function does,
and the result of the function is plain data, or its exception converts. -/
def AgentHost.Applies (host : AgentHost) (fn : PureFn) (t : Term) (origin : JsValue) : Prop :=
  Transportable host.maps host.fresh origin ∧
    host.program (toCStringLen fn.text) (host.copy t) = .script (fn.apply (host.copy t)) ∧
    match fn.apply (host.copy t) with
    | .ok (.tree v) => isPlainData v = true
    | .ok .cyclic => False
    | .error exc => exc.exceptionConverts = true

/-- The call meets the condition in a state. -/
def AgentCall.Kept (c : AgentCall host) (agent : Option Term) (origin : JsValue) : Prop :=
  match c.op with
  | .get fn => c.handle.reaches = true ∧ ((∃ t, agent = some t) → c.Reads fn origin)
  | .update fn => c.handle.reaches = true → ∀ t, agent = some t → host.Applies fn t origin

/-- The condition on a step. -/
def AgentEvent.Kept (x : Agents host) : AgentEvent host → Prop
  | .serve i => ∀ id c, x.pending[i]? = some (id, c) → c.Kept x.agent x.origin
  | _ => True

end BeamJS
