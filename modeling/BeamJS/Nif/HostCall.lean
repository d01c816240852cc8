import BeamJS.Erl.Term

/-!
# Host calls and the reply slot

The C side of an evaluation: `host_call_generic`, `beamjs_module_loader` and `deliver_host_reply`,
which meet in the reply slot of the context. The engine is a machine that says what an evaluation
does next; what it computes in between is its own affair.
-/

namespace BeamJS

/-- The functions that JavaScript calls on the host, by the name they are sent with. -/
inductive HostFn where
  | send | self | spawn | spawnLink | receive | register | whereis | monitor | link | exit
  | call | cast | reply | startGenServer | startSupervisor | log | taskAsync | taskAwait
  | agentStart | agentGet | agentUpdate | agentStop
  /-- A name without a clause of its own. -/
  | unknown (name : String)
  deriving DecidableEq

/-- The name in the message. -/
def HostFn.name : HostFn → String
  | .send => "send" | .self => "self" | .spawn => "spawn" | .spawnLink => "spawn_link"
  | .receive => "receive" | .register => "register" | .whereis => "whereis"
  | .monitor => "monitor" | .link => "link" | .exit => "exit" | .call => "call" | .cast => "cast"
  | .reply => "reply" | .startGenServer => "start_gen_server"
  | .startSupervisor => "start_supervisor" | .log => "log" | .taskAsync => "task_async"
  | .taskAwait => "task_await" | .agentStart => "agent_start" | .agentGet => "agent_get"
  | .agentUpdate => "agent_update" | .agentStop => "agent_stop" | .unknown name => name

/-- A request to the owner, and how the evaluation goes on with the reply. -/
inductive HostRequest (E : Type) where
  /-- `host_call_generic`. -/
  | hostCall (fn : HostFn) (args : List Term) (resume : Term → E)
  /-- `beamjs_module_loader`, which compiles and runs the source in the reply, or returns no module.
  -/
  | loadModule (name : Bytes) (compile : Bytes → E) (failed : E)

/-- What an evaluation does next. -/
inductive Next (E G : Type) where
  /-- It runs JavaScript. -/
  | compute (e : E)
  | request (r : HostRequest E)
  /-- The source that the innermost loader compiled has run. -/
  | loaded (e : E)
  /-- `nif_eval` returns a term or raises, and leaves the globals behind. -/
  | done (result : Except Term Term) (globals : G)

/-- The source in the reply to a loader, from `{:ok, source}`. -/
def moduleSource : Term → Option Bytes
  | .tuple [.atom name, .binary source] =>
    -- `enif_get_atom` into `atom_buf[16]`, and `strcmp`
    match Term.atomLatin1 name with
    | some buf => if buf.length < 16 ∧ cString buf = bytes "ok" then some source else none
    | none => none
  | _ => none

/-- The evaluation after the reply `t`, and whether a loader stays open while it goes on. -/
def HostRequest.answered {E : Type} (r : HostRequest E) (t : Term) : E × Bool :=
  match r with
  | .hostCall _ _ resume => (resume t, false)
  | .loadModule _ compile failed =>
    match moduleSource t with
    | some source => (compile source, true)
    | none => (failed, false)

/-! ## The slot -/

/-- Who holds `bctx->mutex`. -/
inductive Holder where
  | free | evaluation | owner
  deriving DecidableEq

/-- The reply slot of a context: `mutex`, `host_reply_ready` and `host_reply`. -/
structure Slot (ρ : Type) where
  holder : Holder
  ready : Bool
  reply : Option ρ
  /-- The reply has not been read since it was delivered. -/
  unread : Bool

namespace Slot

variable {ρ : Type}

/-- The slot of a new context. -/
def empty : Slot ρ := ⟨.free, false, none, false⟩

/-- The end of `deliver_host_reply`, which holds the lock: the reply is stored, the condition
signalled and the lock released. -/
def deliver (v : ρ) : Slot ρ := ⟨.free, true, some v, true⟩

end Slot

/-- Where the evaluating thread is. -/
inductive Phase (E : Type) where
  /-- No evaluation runs. -/
  | idle
  | running (e : E)
  /-- The request is sent; the thread is at `enif_mutex_lock`. -/
  | locking (r : HostRequest E)
  /-- At the head of `while (!bctx->host_reply_ready)`, with the lock. -/
  | checking (r : HostRequest E)
  /-- In `enif_cond_wait`. -/
  | sleeping (r : HostRequest E)

/-- The evaluating thread and the slot. -/
structure EvalSide (E ρ : Type) where
  phase : Phase E
  /-- The calls of `beamjs_module_loader` that compile or run a module now. -/
  loaders : ℕ
  slot : Slot ρ

section Thread

variable {E G ρ : Type} (next : E → Next E G) (term : ρ → Term)

/-- The request that the thread sends in its next step. -/
def requestOf (c : EvalSide E ρ) : Option (HostRequest E) :=
  match c.phase with
  | .running e =>
    match next e with
    | .request r => some r
    | _ => none
  | _ => none

/-- The thread reads the reply `v`. A loader compiles and runs the module before it clears
`host_reply_ready` and releases the lock. -/
def consume (c : EvalSide E ρ) (r : HostRequest E) (v : ρ) : EvalSide E ρ :=
  match r.answered (term v) with
  | (e, true) =>
    { phase := .running e, loaders := c.loaders + 1, slot := { c.slot with unread := false } }
  | (e, false) => { c with phase := .running e, slot := .empty }

/-- The next step of the thread, if it can take one. The lock is not recursive. -/
def threadStep (c : EvalSide E ρ) : Option (EvalSide E ρ) :=
  match c.phase with
  | .idle => none
  | .running e =>
    match next e with
    | .compute e => some { c with phase := .running e }
    | .request r => some { c with phase := .locking r }
    | .loaded e =>
      match c.loaders with
      | 0 => none
      | loaders + 1 => some { phase := .running e, loaders, slot := .empty }
    | .done _ _ => none
  | .locking r | .sleeping r =>
    if c.slot.holder = .free then
      some { c with phase := .checking r, slot := { c.slot with holder := .evaluation } }
    else none
  | .checking r =>
    if c.slot.ready then c.slot.reply.map (consume term c r)
    else some { c with phase := .sleeping r, slot := { c.slot with holder := .free } }

end Thread

end BeamJS
