import BeamJS.Core.Process

/-!
# The mailbox of a process

Sequences of the messages that `handle_info` gets from other processes and from the evaluation of
its own context, with a record of what came in and of what was delivered to which host call. The
evaluation waits for each host call, so the next one only comes once the last one is answered.
-/

namespace BeamJS

open Lib

/-- A reply handed to `deliver_host_reply`, with the host call that waited for one at that moment.
-/
structure Delivery where
  call : Option HostFn
  reply : Term

/-- What `handle_info` acts on besides the state of the process. -/
structure HostSide (W : Type) where
  world : W
  /-- The host calls that have come in. -/
  issued : List HostFn
  /-- The one that is not answered yet. -/
  waiting : Option HostFn
  deliveries : List Delivery

/-- The operations of `handle_info`, none of whose clauses evaluates a program. -/
def hostOp {W : Type} : ∀ {α : Type}, Op W α → HostSide W → Except Term α × HostSide W
  | _, .otp f, h => ((f h.world).1, { h with world := (f h.world).2 })
  | _, .deliver reply, h =>
    (.ok (), { h with waiting := none, deliveries := h.deliveries ++ [⟨h.waiting, reply⟩] })
  | _, .setGlobal _ _, h => (.ok (), h)
  | _, .eval _ _, h => (.error (.atom "undef"), h)

/-- The process, what has arrived for it, and its host side. -/
structure Mail (W : Type) where
  proc : ProcState
  arrived : List Term
  host : HostSide W

/-- A message for `handle_info`. -/
inductive MailEvent where
  | jsMessage (message : Term)
  | hostCall (fn : HostFn) (args : List Term)

variable {W : Type} (sys : Otp W)

/-- A process after `init`. -/
def Mail.start (opts : InitOpts) (world : W) : Mail W where
  proc := initialState sys opts
  arrived := []
  host := { world, issued := [], waiting := none, deliveries := [] }

/-- Handle one message. There is no next state where the callback raises, or for a host call while
another one waits. -/
def handleEvent (st : Mail W) (event : MailEvent) : Option (Mail W) :=
  match event with
  | .jsMessage message =>
    match (handleInfo sys (.jsMessage message) st.proc).run hostOp st.host with
    | (.ok proc, host) => some { proc, arrived := st.arrived ++ [message], host }
    | (.error _, _) => none
  | .hostCall fn args =>
    if st.host.waiting.isSome then none
    else
      match (handleInfo sys (.hostCall fn args) st.proc).run hostOp
          { st.host with issued := st.host.issued ++ [fn], waiting := some fn } with
      | (.ok proc, host) => some { st with proc, host }
      | (.error _, _) => none

/-- Handle a sequence of messages. -/
def handleEvents (st : Mail W) (events : List MailEvent) : Option (Mail W) :=
  events.foldlM (handleEvent sys) st

/-- The replies to the `receive` calls. -/
def Mail.received {W : Type} (st : Mail W) : List Term :=
  (st.host.deliveries.filter fun d => d.call = some .receive).map Delivery.reply

/-- The mailbox is first-in first-out and loses and duplicates nothing, and every host call is
answered once. -/
structure MailboxSpec {W : Type} (st : Mail W) : Prop where
  /-- What was received and what is in the mailbox is what arrived. -/
  fifo : st.received ++ st.proc.mailbox = st.arrived
  /-- `awaiting_receive` stands for a `receive` that waits. -/
  awaiting : st.proc.awaitingReceive = true ↔ st.host.waiting = some .receive
  empty : st.proc.awaitingReceive = true → st.proc.mailbox = []
  /-- Each delivery went to a waiting call, and each call but the waiting one got one. -/
  answered : st.host.deliveries.map Delivery.call ++ st.host.waiting.toList.map some =
    st.host.issued.map some

end BeamJS
