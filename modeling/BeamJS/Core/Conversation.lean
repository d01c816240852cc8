import BeamJS.Core.Replies
import BeamJS.Core.System

/-!
# A program and the process that serves it

An evaluation that another process runs, in a context whose owner is free to answer: the thread, the
slot with its lock, and the loop of the GenServer, which works off messages and requests in the
order in which they come. `Conversation` is what the program is to see of all this: a request is
answered in one step, and messages wait in one queue until they are received.
-/

namespace BeamJS

open Lib

/-! ## What the program is to see -/

/-- A program, the messages for it, and the world. -/
structure Conversation (W E : Type) where
  program : E
  /-- A loader compiles or runs a module. -/
  loading : Bool
  /-- The messages that have come and are not received. -/
  queue : List Term
  world : W
  /-- The process has not ended by an exception. -/
  alive : Bool

/-- A step of the program, or a message. -/
inductive ConversationAct where
  | go
  /-- The program receives a message. -/
  | receive
  /-- Any other request, with its reply. -/
  | request
  | arrive (message : Term)

/-- It is the host call `receive`. -/
def HostRequest.isReceive {E : Type} : HostRequest E → Bool
  | .hostCall .receive _ _ => true
  | _ => false

section Conversation

variable {W E G : Type} (sys : Otp W) (next : E → Next E G)

/-- What the process in the state `s` does to answer a request other than `receive`. -/
def replyTo (s : ProcState) : HostRequest E → Callback W Term
  | .hostCall fn args _ => do
    let r ← dispatchHostCall sys fn args s
    return r.1
  | .loadModule name _ _ => Callback.otp (sys.resolveAndLoad (.binary name) s.baseDir)

/-- The program goes on with the reply. -/
def Conversation.resume (c : Conversation W E) (r : HostRequest E) (reply : Term) :
    Conversation W E :=
  { c with program := (r.answered reply).1, loading := (r.answered reply).2 }

/-- A request and its reply, unless the process raises. -/
def Conversation.ask (s : ProcState) (c : Conversation W E) (r : HostRequest E) :
    Conversation W E :=
  match (replyTo sys s r).run worldOp c.world with
  | (.ok reply, world) => { c with world }.resume r reply
  | (.error _, world) => { c with world, alive := false }

/-- One step. No request is answered while a loader is open. -/
def conversationStep (s : ProcState) (act : ConversationAct) (c : Conversation W E) :
    Option (Conversation W E) :=
  match act, next c.program with
  | .arrive message, _ => some { c with queue := c.queue ++ [message] }
  | .go, .compute e => some { c with program := e }
  | .go, .loaded e => if c.loading then some { c with program := e, loading := false } else none
  | .receive, .request r =>
    if c.loading || !c.alive || !r.isReceive then none
    else
      match c.queue with
      | message :: queue => some ({ c with queue }.resume r message)
      | [] => none
  | .request, .request r =>
    if c.loading || !c.alive || r.isReceive then none else some (c.ask sys s r)
  | _, _ => none

/-- The conversations of the program `e` with a process in the state `s`. -/
def conversations (s : ProcState) (e : E) (world : W) : Lts (Conversation W E) ConversationAct where
  init c := c = ⟨e, false, s.mailbox, world, true⟩
  step c act d := conversationStep sys next s act c = some d

/-- Nothing happens unless a message comes. -/
def Conversation.Quiescent (s : ProcState) (c : Conversation W E) : Prop :=
  ∀ act d, conversationStep sys next s act c = some d → ∃ message, act = .arrive message

end Conversation

/-! ## What happens -/

/-- The steps of a system whose evaluation runs elsewhere: no process calls the GenServer, which
would have it evaluate in the same context. -/
def SystemAct.isServing : SystemAct → Bool
  | .arrive (.info _) => true
  | .arrive _ => false
  | _ => true

/-- The request that the thread waits for. -/
def Phase.request? {E : Type} : Phase E → Option (HostRequest E)
  | .locking r | .checking r | .sleeping r => some r
  | .idle | .running _ => none

/-- The messages for the program among those in flight. -/
def messagesIn (inbox : List Message) : List Term :=
  inbox.filterMap fun
    | .info (.jsMessage message) => some message
    | _ => none

section Served

variable {W E G : Type} (sys : Otp W) (engine : Engine E G)

/-- The process in its loop, and the start of the evaluation. -/
def System.served (s : ProcState) (e : E) (world : W) : System W E G where
  owner := .looping s
  world
  inbox := []
  globals := engine.fresh
  eval := ⟨.running e, 0, .empty⟩

/-- The runs of the process and of the evaluation `e`. -/
def servedSystem (s : ProcState) (e : E) (world : W) : Lts (System W E G) SystemAct where
  init x := x = System.served engine s e world
  step x act y := act.isServing = true ∧ systemStep sys engine act x = some y

/-- Nothing happens unless a message comes, except that a thread without a reply may wake up and
look for one. -/
def System.Quiescent (x : System W E G) : Prop :=
  ∀ act y, systemStep sys engine act x = some y → (∃ m, act = .arrive m) ∨
    act = .thread ∧ x.eval.slot.ready = false ∧ ∃ r, x.eval.phase = .sleeping r

/-- The system is where the conversation is, as far as the program and the process can tell. -/
structure System.Shows (x : System W E G) (c : Conversation W E) : Prop where
  /-- The program runs where the conversation is, in the world that its requests have made. -/
  running : ∀ e, x.eval.phase = .running e → e = c.program ∧ x.world = c.world
  /-- While it waits, the conversation is at its request, or at what it does with the reply in the
  slot. -/
  waiting : ∀ r, x.eval.phase.request? = some r → engine.next c.program = .request r ∨
    ∃ reply, x.eval.slot.reply = some reply ∧ c.program = (r.answered reply).1 ∧ x.world = c.world
  /-- The messages are in the mailbox of the process and in flight to it. -/
  queue : ∀ s, x.owner = .looping s → s.mailbox ++ messagesIn x.inbox = c.queue

end Served

end BeamJS
