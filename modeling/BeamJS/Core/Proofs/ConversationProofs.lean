import BeamJS.Core.Conversation
import BeamJS.Core.Proofs.MailboxProofs

/-!
# Proofs: a served program converses

A request that is on its way has the thread wait for it, so that only the process moves, through the
stages of `Pending`. The conversation makes its step when the reply is put in the slot: before that
the program could not have it, and after that nothing but the thread can take it.
-/

namespace BeamJS

open Lib

variable {W E G : Type} {sys : Otp W} {engine : Engine E G} {next : E → Next E G}

/-! ## Replies and the state of the process -/

/-- The two bodies perform the same operations and return the same reply. -/
def SameReply (m m' : Callback W (Term × ProcState)) : Prop :=
  (m >>= fun r => .ret r.1) = (m' >>= fun r => .ret r.1 : Callback W Term)

theorem sameReply_otp {α : Type} (f : OtpFn W α) {g g' : α → Callback W (Term × ProcState)}
    (h : ∀ a, SameReply (g a) (g' a)) :
    SameReply (Callback.otp f >>= g) (Callback.otp f >>= g') :=
  congrArg (Program.perform (Op.otp f)) (funext h)

theorem sameReply_ofExcept {α : Type} (r : Except Term α)
    {g g' : α → Callback W (Term × ProcState)} (h : ∀ a, SameReply (g a) (g' a)) :
    SameReply (Callback.ofExcept r >>= g) (Callback.ofExcept r >>= g') := by
  cases r with
  | ok a => exact h a
  | error e => rfl

variable {s s' : ProcState}

theorem sameReply_withPid {pidData : Term} {failure : Term → Term}
    {body body' : Term → Callback W (Term × ProcState)}
    (h : ∀ pid, SameReply (body pid) (body' pid)) :
    SameReply (withPid sys pidData s failure body) (withPid sys pidData s' failure body') := by
  unfold withPid
  split
  · exact h _
  · rfl

theorem sameReply_startedReply (link : Term) (pid : Pid) :
    SameReply (startedReply sys link pid s) (startedReply sys link pid s') := by
  unfold startedReply
  split
  · exact sameReply_otp _ fun _ => rfl
  · rfl

theorem sameReply_dispatchSpawn (link : Bool) (source : Term) (rest : List Term)
    (h : s.baseDir = s'.baseDir) :
    SameReply (dispatchSpawn sys link source rest s) (dispatchSpawn sys link source rest s') := by
  rw [dispatchSpawn, dispatchSpawn, h]
  refine sameReply_ofExcept _ fun name => sameReply_otp _ fun started => ?_
  cases started with
  | ok pid =>
    cases link
    · rfl
    · exact sameReply_otp _ fun _ => rfl
  | error reason => rfl

/-- Of the state of the process, a reply depends on the directory alone. -/
theorem sameReply_dispatchHostCall {fn : HostFn} (hfn : fn ≠ .receive) (args : List Term)
    (h : s.baseDir = s'.baseDir) :
    SameReply (dispatchHostCall sys fn args s) (dispatchHostCall sys fn args s') := by
  unfold dispatchHostCall
  split
  -- send, self, spawn, spawn_link, receive
  · exact sameReply_withPid fun pid => sameReply_otp _ fun _ => rfl
  · rfl
  · exact sameReply_dispatchSpawn _ _ _ h
  · exact sameReply_dispatchSpawn _ _ _ h
  · exact absurd rfl hfn
  -- register, whereis, monitor, link, exit
  · exact sameReply_otp _ fun _ => rfl
  · refine sameReply_otp _ fun found => ?_
    cases found <;> rfl
  · exact sameReply_withPid fun pid => sameReply_otp _ fun ref => rfl
  · exact sameReply_withPid fun pid => sameReply_otp _ fun _ => rfl
  · exact sameReply_otp _ fun _ => rfl
  -- call, cast, reply
  · refine sameReply_withPid fun pid => sameReply_otp _ fun result => ?_
    cases result <;> rfl
  · exact sameReply_withPid fun pid => sameReply_otp _ fun _ => rfl
  · split
    · split
      · refine sameReply_otp _ fun sent => ?_
        cases sent <;> rfl
      · rfl
    · rfl
  -- start_gen_server, start_supervisor
  · rw [h]
    refine sameReply_ofExcept _ fun source => sameReply_ofExcept _ fun className =>
      sameReply_ofExcept _ fun json => sameReply_ofExcept _ fun name =>
        sameReply_otp _ fun started => ?_
    cases started with
    | ok pid => exact sameReply_ofExcept _ fun link => sameReply_startedReply link pid
    | error reason => rfl
  · rw [h]
    refine sameReply_otp _ fun started => ?_
    cases started with
    | ok pid => exact sameReply_ofExcept _ fun link => sameReply_startedReply link pid
    | error reason => rfl
  -- log, task_async, task_await
  · exact sameReply_otp _ fun _ => rfl
  · exact sameReply_otp _ fun task => rfl
  · rfl
  -- agent_start, agent_get, agent_update, agent_stop
  · refine sameReply_ofExcept _ fun name => sameReply_otp _ fun started => ?_
    cases started <;> rfl
  · exact sameReply_withPid fun pid => sameReply_otp _ fun value => rfl
  · exact sameReply_withPid fun pid => sameReply_otp _ fun _ => rfl
  · exact sameReply_withPid fun pid => sameReply_otp _ fun _ => rfl
  -- any other name or number of arguments
  · exact sameReply_otp _ fun _ => rfl

/-- So the mailbox plays no part in a reply. -/
theorem replyTo_eq {r : HostRequest E} (hr : r.isReceive = false) (h : s.baseDir = s'.baseDir) :
    replyTo sys s r = replyTo sys s' r := by
  cases r with
  | hostCall fn args resume =>
    have hfn : fn ≠ .receive := by
      rintro rfl
      cases hr
    exact sameReply_dispatchHostCall hfn args h
  | loadModule name compile failed => rw [replyTo, replyTo, h]

/-! ## The work of a message -/

/-- A program that calls only functions of OTP. -/
abbrev OnlyOtp {α : Type} (m : Callback W α) : Prop := m.All Op.isOtp fun _ => True

/-- The work that answers a request and leaves the state. -/
def replyWork (body : Callback W Term) (s : ProcState) : Callback W (Option ProcState) :=
  body >>= fun reply => Callback.deliver reply >>= fun _ => .ret (some s)

/-- A request other than `receive` is answered, and the state stays as it is. -/
theorem handle_request (sys : Otp W) {r : HostRequest E} (hr : r.isReceive = false) (s : ProcState) :
    r.message.handle sys s = replyWork (replyTo sys s r) s ∧ OnlyOtp (replyTo sys s r) := by
  cases r with
  | hostCall fn args resume =>
    have hfn : fn ≠ .receive := by
      rintro rfl
      cases hr
    have hquiet := quiet_dispatchHostCall sys hfn args s
    refine ⟨?_, hquiet.bind fun _ _ => trivial⟩
    rw [HostRequest.message, Message.handle, handleInfo_hostCall hfn, replyWork, replyTo,
      Program.bind_assoc, Program.bind_assoc]
    refine hquiet.bind_congr fun r hstate => ?_
    rw [hstate]
    rfl
  | loadModule name compile failed => exact ⟨rfl, trivial, fun _ => trivial⟩

theorem handle_receive (sys : Otp W) {r : HostRequest E} (hr : r.isReceive = true) (s : ProcState) :
    (s.mailbox = [] → r.message.handle sys s = .ret (some { s with awaitingReceive := true })) ∧
      ∀ message mailbox, s.mailbox = message :: mailbox →
        r.message.handle sys s = replyWork (.ret message) { s with mailbox := mailbox } := by
  cases r with
  | hostCall fn args resume =>
    obtain rfl : fn = .receive := by
      cases fn <;> first | rfl | cases hr
    refine ⟨fun hempty => ?_, fun message mailbox hmail => ?_⟩
    · rw [HostRequest.message, Message.handle, handleInfo_receive_nil hempty]
      rfl
    · rw [HostRequest.message, Message.handle, handleInfo_receive_cons hmail]
      rfl
  | loadModule => cases hr

theorem handle_jsMessage (message : Term) (s : ProcState) :
    (s.awaitingReceive = false → Message.handle sys (.info (.jsMessage message)) s =
      .ret (some { s with mailbox := s.mailbox ++ [message] })) ∧
    (s.awaitingReceive = true → Message.handle sys (.info (.jsMessage message)) s =
      replyWork (.ret message) { s with awaitingReceive := false }) := by
  refine ⟨fun h => ?_, fun h => ?_⟩
  · rw [Message.handle, handleInfo_jsMessage_of_not_awaiting (by simp [h])]
    rfl
  · rw [Message.handle, handleInfo_jsMessage_of_awaiting h]
    rfl

/-! ## The thread -/

/-- The slot with a reply that is not read, or empty. -/
def slotWith (holder : Holder) : Option Term → Slot Term
  | none => ⟨holder, false, none, false⟩
  | some reply => ⟨holder, true, some reply, true⟩

/-- The thread runs JavaScript, inside a loader or not. -/
inductive RunsAt : Bool → E → EvalSide E Term → Prop
  | running (e : E) : RunsAt false e ⟨.running e, 0, .empty⟩
  | loading (e : E) (reply : Term) :
      RunsAt true e ⟨.running e, 1, ⟨.evaluation, true, some reply, false⟩⟩

/-- The thread waits for the reply to its request, which may be in the slot. -/
inductive WaitsFor (r : HostRequest E) (reply : Option Term) : EvalSide E Term → Prop
  | blocked {phase : Phase E} (h : phase = .locking r ∨ phase = .sleeping r) :
      WaitsFor r reply ⟨phase, 0, slotWith .free reply⟩
  | checking : WaitsFor r reply ⟨.checking r, 0, slotWith .evaluation reply⟩

section Thread

variable {r : HostRequest E} {e : E} {c c' : EvalSide E Term}

theorem WaitsFor.request? {reply : Option Term} (h : WaitsFor r reply c) :
    c.phase.request? = some r := by
  cases h with
  | blocked h => rcases h with rfl | rfl <;> rfl
  | checking => rfl

theorem RunsAt.phase {loading : Bool} (h : RunsAt loading e c) : c.phase = .running e := by
  cases h <;> rfl

/-- A thread that waits sends nothing. -/
theorem requestOf_of_request? (h : c.phase.request? = some r) : requestOf next c = none := by
  rcases c with ⟨phase, loaders, slot⟩
  cases phase with
  | idle | locking | checking | sleeping => rfl
  | running => cases h

/-- The thread after it has read the reply. -/
theorem runsAt_consume (r : HostRequest E) (t : Term) :
    RunsAt (r.answered t).2 (r.answered t).1
      (consume id ⟨.checking r, 0, slotWith .evaluation (some t)⟩ r t) := by
  rw [consume, id]
  rcases r.answered t with ⟨e, loading⟩
  cases loading
  · exact .running e
  · exact .loading e t

/-- A step of the thread while it waits: it goes on if it has a reply, and looks or sleeps if it has
none. -/
theorem WaitsFor.thread (next : E → Next E G) {reply : Option Term} (h : WaitsFor r reply c) :
    (∃ c', threadStep next id c = some c') ∧ ∀ c', threadStep next id c = some c' →
      WaitsFor r reply c' ∨
        ∃ t, reply = some t ∧ RunsAt (r.answered t).2 (r.answered t).1 c' := by
  cases h with
  | @blocked phase h =>
    have hnext : threadStep next id ⟨phase, 0, slotWith .free reply⟩ =
        some ⟨.checking r, 0, slotWith .evaluation reply⟩ := by
      rcases h with rfl | rfl <;> cases reply <;> rfl
    refine ⟨⟨_, hnext⟩, fun c' hst => .inl ?_⟩
    cases hnext.symm.trans hst
    exact .checking
  | checking =>
    cases reply with
    | none =>
      have hnext : threadStep next id ⟨.checking r, 0, slotWith .evaluation none⟩ =
          some ⟨.sleeping r, 0, slotWith .free none⟩ := rfl
      refine ⟨⟨_, hnext⟩, fun c' hst => .inl ?_⟩
      cases hnext.symm.trans hst
      exact .blocked (.inr rfl)
    | some t =>
      have hnext : threadStep next id ⟨.checking r, 0, slotWith .evaluation (some t)⟩ =
          some (consume id ⟨.checking r, 0, slotWith .evaluation (some t)⟩ r t) := rfl
      refine ⟨⟨_, hnext⟩, fun c' hst => .inr ⟨t, rfl, ?_⟩⟩
      cases hnext.symm.trans hst
      exact runsAt_consume r t

/-- A reply is put in the slot while the thread does not look. -/
theorem WaitsFor.deliver (h : WaitsFor r none c) (hfree : c.slot.holder = .free) (t : Term) :
    WaitsFor r (some t) { c with slot := .deliver t } := by
  cases h with
  | blocked h => exact .blocked h
  | checking => cases hfree

/-- The thread has sent its request. With a loader open it cannot take the lock again. -/
inductive Asks (r : HostRequest E) : Bool → EvalSide E Term → Prop
  | waits {c : EvalSide E Term} (h : WaitsFor r none c) : Asks r false c
  | nested (reply : Term) : Asks r true ⟨.locking r, 1, ⟨.evaluation, true, some reply, false⟩⟩

/-- Without a reply the thread stays where it is. -/
theorem Asks.thread {loading : Bool} (h : Asks r loading c) (hst : threadStep next id c = some c') :
    Asks r loading c' := by
  cases h with
  | waits h =>
    rcases (h.thread next).2 c' hst with h' | ⟨t, ht, -⟩
    · exact .waits h'
    · cases ht
  | nested reply => cases hst

theorem Asks.request? {loading : Bool} (h : Asks r loading c) : c.phase.request? = some r := by
  cases h with
  | waits h => exact h.request?
  | nested => rfl

/-- The lock is free only if no loader is open. -/
theorem Asks.deliver {loading : Bool} (h : Asks r loading c) (hfree : c.slot.holder = .free)
    (t : Term) : loading = false ∧ WaitsFor r (some t) { c with slot := .deliver t } := by
  cases h with
  | waits h => exact ⟨rfl, h.deliver hfree t⟩
  | nested => cases hfree

/-- A step of the thread while it runs. -/
theorem RunsAt.thread {loading : Bool} (h : RunsAt loading e c)
    (hst : threadStep next id c = some c') :
    (∃ e', next e = .compute e' ∧ RunsAt loading e' c' ∧ requestOf next c = none) ∨
    (∃ e', next e = .loaded e' ∧ loading = true ∧ RunsAt false e' c' ∧ requestOf next c = none) ∨
    ∃ r, next e = .request r ∧ requestOf next c = some r ∧ Asks r loading c' := by
  cases hn : next e with
  | compute e' =>
    refine .inl ⟨e', rfl, ?_⟩
    cases h with
    | running =>
      simp only [threadStep, hn, Option.some.injEq] at hst
      subst hst
      exact ⟨.running e', by simp [requestOf, hn]⟩
    | loading e reply =>
      simp only [threadStep, hn, Option.some.injEq] at hst
      subst hst
      exact ⟨.loading e' reply, by simp [requestOf, hn]⟩
  | loaded e' =>
    refine .inr (.inl ⟨e', rfl, ?_⟩)
    cases h with
    | running => simp [threadStep, hn] at hst
    | loading e reply =>
      simp only [threadStep, hn, Option.some.injEq] at hst
      subst hst
      exact ⟨rfl, .running e', by simp [requestOf, hn]⟩
  | request r =>
    refine .inr (.inr ⟨r, rfl, ?_⟩)
    cases h with
    | running =>
      simp only [threadStep, hn, Option.some.injEq] at hst
      subst hst
      exact ⟨by simp [requestOf, hn], .waits (.blocked (.inl rfl))⟩
    | loading e reply =>
      simp only [threadStep, hn, Option.some.injEq] at hst
      subst hst
      exact ⟨by simp [requestOf, hn], .nested reply⟩
  | done result globals => cases h <;> simp [threadStep, hn] at hst

/-- It takes a step unless the evaluation is at its end. -/
theorem RunsAt.enabled {loading : Bool} (h : RunsAt loading e c)
    (hnext : (∃ e', next e = .compute e') ∨ (∃ e', next e = .loaded e' ∧ loading = true) ∨
      ∃ r, next e = .request r) : threadStep next id c ≠ none := by
  rcases hnext with ⟨e', hnext⟩ | ⟨e', hnext, rfl⟩ | ⟨r, hnext⟩
  · cases h <;> simp [threadStep, hnext]
  · cases h
    simp [threadStep, hnext]
  · cases h <;> simp [threadStep, hnext]

/-- A thread without a reply, and with no step but to wake up, sleeps. -/
theorem WaitsFor.sleeping (h : WaitsFor r none c)
    (hst : threadStep next id c = none ∨ c.slot.ready = false ∧ ∃ r, c.phase = .sleeping r) :
    c.slot.holder = .free := by
  rcases hst with hst | ⟨-, r', hr'⟩
  · obtain ⟨c', hc'⟩ := (h.thread next).1
    cases hst.symm.trans hc'
  · cases h with
    | blocked => rfl
    | checking => cases hr'

end Thread

/-! ## The steps of a served system -/

/-- A message of another process that is no call. -/
inductive Message.Plain : Message → Prop
  | jsMessage (message : Term) : Plain (.info (.jsMessage message))
  | other (message : Term) : Plain (.info (.other message))

section Steps

variable {x y : System W E G}

theorem arrive_cases {m : Message} (hserving : (SystemAct.arrive m).isServing = true)
    (hst : systemStep sys engine (.arrive m) x = some y) :
    m.Plain ∧ y = { x with inbox := x.inbox ++ [m] } := by
  cases m with
  | call request caller => cases hserving
  | cast request => cases hserving
  | info i =>
    cases i with
    | jsMessage message =>
      cases hst
      exact ⟨.jsMessage message, rfl⟩
    | other message =>
      cases hst
      exact ⟨.other message, rfl⟩
    | hostCall fn args => cases hst
    | loadModule name => cases hst

theorem take_cases (hst : systemStep sys engine .take x = some y) :
    ∃ s m inbox, x.owner = .looping s ∧ x.inbox = m :: inbox ∧
      y = { x with owner := .running (m.handle sys s), inbox } := by
  rcases x with ⟨owner, world, inbox, globals, eval⟩
  cases owner with
  | looping s =>
    cases inbox with
    | nil => cases hst
    | cons m inbox =>
      cases hst
      exact ⟨s, m, inbox, rfl, rfl, rfl⟩
  | running | evaluating | gone => cases hst

theorem work_cases (hst : systemStep sys engine .work x = some y) :
    ∃ work, x.owner = .running work ∧ workStep engine x work = some y := by
  rcases x with ⟨owner, world, inbox, globals, eval⟩
  cases owner with
  | running work => exact ⟨work, rfl, hst⟩
  | looping | evaluating | gone => cases hst

theorem thread_cases (hst : systemStep sys engine .thread x = some y) :
    ∃ eval, threadStep engine.next id x.eval = some eval ∧
      y = { x with
        eval
        inbox := x.inbox ++ (requestOf engine.next x.eval).toList.map HostRequest.message } := by
  obtain ⟨eval, heval, rfl⟩ := Option.map_eq_some_iff.mp hst
  exact ⟨eval, heval, rfl⟩

theorem finish_cases (hst : systemStep sys engine .finish x = some y) :
    ∃ resume, x.owner = .evaluating resume := by
  rcases x with ⟨owner, world, inbox, globals, eval⟩
  cases owner with
  | evaluating resume => exact ⟨resume, rfl⟩
  | looping | running | gone => cases hst

/-- The reply is put in the slot once nobody holds the lock. -/
theorem workStep_deliver {reply : Term}
    (hst : workStep engine x (replyWork (.ret reply) s) = some y) :
    x.eval.slot.holder = .free ∧
      y = { x with owner := .running (.ret (some s)), eval.slot := .deliver reply } := by
  rw [replyWork, Program.ret_bind, Callback.deliver, Program.lift, Program.perform_bind,
    workStep] at hst
  by_cases hfree : x.eval.slot.holder = .free
  · rw [if_pos hfree] at hst
    cases hst
    exact ⟨hfree, rfl⟩
  · rw [if_neg hfree] at hst
    cases hst

/-- A step of the thread that sends nothing. -/
theorem thread_step {eval : EvalSide E Term} (heval : threadStep engine.next id x.eval = some eval)
    (hreq : requestOf engine.next x.eval = none) :
    systemStep sys engine .thread x = some { x with eval } := by
  simp [systemStep, heval, hreq]

/-- A step of the work that answers a request: the reply is put in the slot, or the work goes on. -/
theorem workStep_replyWork {body : Callback W Term} (hbody : OnlyOtp body)
    (hst : workStep engine x (replyWork body s) = some y) :
    (∃ reply, body = .ret reply ∧ x.eval.slot.holder = .free ∧
      y = { x with owner := .running (.ret (some s)), eval.slot := .deliver reply }) ∨
    (∃ body' world, y = { x with owner := .running (replyWork body' s), world } ∧ OnlyOtp body' ∧
      body.run worldOp x.world = body'.run worldOp world) ∨
    ∃ e world, y = { x with owner := .gone, world } ∧
      body.run worldOp x.world = (.error e, world) := by
  cases body with
  | ret reply => exact .inl ⟨reply, rfl, workStep_deliver hst⟩
  | raise e =>
    cases hst
    exact .inr (.inr ⟨e, x.world, rfl, rfl⟩)
  | perform op k =>
    cases op with
    | otp f =>
      rw [replyWork, Program.perform_bind, workStep] at hst
      rcases hf : f x.world with ⟨r, world⟩
      rw [hf] at hst
      simp only [Program.run, worldOp, hf]
      cases r with
      | ok a =>
        cases hst
        exact .inr (.inl ⟨k a, world, rfl, hbody.2 a, rfl⟩)
      | error e =>
        cases hst
        exact .inr (.inr ⟨e, world, rfl, rfl⟩)
    | setGlobal | eval | deliver => exact hbody.1.elim

end Steps

/-! ## The stages of a request -/

/-- The messages that a plain message brings. -/
theorem messagesIn_append (inbox inbox' : List Message) :
    messagesIn (inbox ++ inbox') = messagesIn inbox ++ messagesIn inbox' :=
  List.filterMap_append ..

/-- The process is in its loop, or about to be. -/
inductive SettlesIn (s : ProcState) : Owner W → Prop
  | looping : SettlesIn s (.looping s)
  | returning : SettlesIn s (.running (.ret (some s)))

/-- A state of a process that nothing in `receive` waits for. -/
structure Serves (s₀ s : ProcState) : Prop where
  baseDir : s.baseDir = s₀.baseDir
  not_awaiting : s.awaitingReceive = false

/-- A plain message goes to the mailbox, or nowhere. -/
theorem Message.Plain.handle (sys : Otp W) {m : Message} (hm : m.Plain) {s₀ : ProcState}
    (hs : Serves s₀ s) :
    ∃ s', m.handle sys s = .ret (some s') ∧ Serves s₀ s' ∧
      s'.mailbox = s.mailbox ++ messagesIn [m] := by
  cases hm with
  | jsMessage message =>
    exact ⟨_, (handle_jsMessage message s).1 hs.not_awaiting, ⟨hs.baseDir, hs.not_awaiting⟩, rfl⟩
  | other message => exact ⟨s, rfl, hs, (List.append_nil _).symm⟩

/-- How far the process is with the request `r` of the conversation `c`. -/
inductive Pending (sys : Otp W) (s₀ : ProcState) (r : HostRequest E) (c : Conversation W E) :
    Owner W → List Message → W → Prop
  /-- The request is among the messages in flight. -/
  | sent {s : ProcState} {owner : Owner W} {pre post : List Message} (hs : Serves s₀ s)
      (howner : SettlesIn s owner) (hplain : ∀ m ∈ pre ++ post, m.Plain)
      (hqueue : s.mailbox ++ messagesIn (pre ++ post) = c.queue) :
      Pending sys s₀ r c owner (pre ++ r.message :: post) c.world
  /-- The process is at work on the reply, which it will be the one of the conversation. -/
  | working {s : ProcState} {body : Callback W Term} {inbox : List Message} {world : W}
      (hr : r.isReceive = false) (hbody : OnlyOtp body)
      (hrun : body.run worldOp world = (replyTo sys s₀ r).run worldOp c.world) (hs : Serves s₀ s)
      (hplain : ∀ m ∈ inbox, m.Plain) (hqueue : s.mailbox ++ messagesIn inbox = c.queue) :
      Pending sys s₀ r c (.running (replyWork body s)) inbox world
  /-- The mailbox was empty, and the next message is the reply. -/
  | awaiting {s : ProcState} {owner : Owner W} {inbox : List Message} (hr : r.isReceive = true)
      (hbase : s.baseDir = s₀.baseDir) (hawait : s.awaitingReceive = true) (hmail : s.mailbox = [])
      (howner : SettlesIn s owner) (hplain : ∀ m ∈ inbox, m.Plain)
      (hqueue : messagesIn inbox = c.queue) :
      Pending sys s₀ r c owner inbox c.world
  /-- The process is about to deliver a message. -/
  | delivering {s : ProcState} {message : Term} {inbox : List Message} (hr : r.isReceive = true)
      (hs : Serves s₀ s) (hplain : ∀ m ∈ inbox, m.Plain)
      (hqueue : c.queue = message :: (s.mailbox ++ messagesIn inbox)) :
      Pending sys s₀ r c (.running (replyWork (.ret message) s)) inbox c.world

theorem Pending.last {s₀ : ProcState} {r : HostRequest E} {c : Conversation W E} {owner : Owner W}
    {inbox : List Message} (hs : Serves s₀ s) (howner : SettlesIn s owner)
    (hplain : ∀ m ∈ inbox, m.Plain) (hqueue : s.mailbox ++ messagesIn inbox = c.queue) :
    Pending sys s₀ r c owner (inbox ++ [r.message]) c.world := by
  have hplain' : ∀ m ∈ inbox ++ [], m.Plain := by simpa using hplain
  have hqueue' : s.mailbox ++ messagesIn (inbox ++ []) = c.queue := by simpa using hqueue
  exact .sent hs howner hplain' hqueue'

/-- The system follows the conversation. -/
inductive Tracks (sys : Otp W) (next : E → Next E G) (s₀ : ProcState) (c : Conversation W E) :
    System W E G → Prop
  /-- The program runs, or has the reply to its request. -/
  | rest {x : System W E G} {s : ProcState}
      (hthread : RunsAt c.loading c.program x.eval ∨
        ∃ r t, WaitsFor r (some t) x.eval ∧ r.answered t = (c.program, c.loading))
      (hs : Serves s₀ s) (howner : SettlesIn s x.owner) (hplain : ∀ m ∈ x.inbox, m.Plain)
      (hqueue : s.mailbox ++ messagesIn x.inbox = c.queue) (hworld : x.world = c.world)
      (halive : c.alive = true) : Tracks sys next s₀ c x
  /-- The program waits for a reply. -/
  | asking {x : System W E G} {r : HostRequest E} (hnext : next c.program = .request r)
      (hthread : Asks r c.loading x.eval) (halive : c.alive = true)
      (hpending : Pending sys s₀ r c x.owner x.inbox x.world) : Tracks sys next s₀ c x
  /-- The program waits, and nobody is left to reply. -/
  | dead {x : System W E G} {r : HostRequest E} (hnext : next c.program = .request r)
      (hthread : Asks r c.loading x.eval) (halive : c.loading = false → c.alive = false)
      (howner : x.owner = .gone) : Tracks sys next s₀ c x

/-- What a conversation can do. -/
theorem conversationStep_cases {s₀ : ProcState} {c d : Conversation W E} {act : ConversationAct}
    (hst : conversationStep sys next s₀ act c = some d) :
    (∃ message, act = .arrive message ∧ d = { c with queue := c.queue ++ [message] }) ∨
    (∃ e, next c.program = .compute e ∧ d = { c with program := e }) ∨
    (∃ e, next c.program = .loaded e ∧ c.loading = true ∧
      d = { c with program := e, loading := false }) ∨
    (∃ r, next c.program = .request r ∧ c.loading = false ∧ c.alive = true ∧
      r.isReceive = false ∧ d = c.ask sys s₀ r) ∨
    ∃ r message queue, next c.program = .request r ∧ c.loading = false ∧ c.alive = true ∧
      r.isReceive = true ∧ c.queue = message :: queue ∧
      d = { c with queue := queue }.resume r message := by
  unfold conversationStep at hst
  cases act with
  | arrive message =>
    cases hst
    exact .inl ⟨message, rfl, rfl⟩
  | go =>
    cases hn : next c.program with
    | compute e =>
      simp only [hn, Option.some.injEq] at hst
      exact .inr (.inl ⟨e, rfl, hst.symm⟩)
    | loaded e =>
      simp only [hn, Option.ite_none_right_eq_some, Option.some.injEq] at hst
      exact .inr (.inr (.inl ⟨e, rfl, hst.1, hst.2.symm⟩))
    | request | done => simp [hn] at hst
  | receive =>
    cases hn : next c.program with
    | request r =>
      cases hqueue : c.queue with
      | nil => simp [hn, hqueue] at hst
      | cons message queue =>
        simp only [hn, hqueue, Option.ite_none_left_eq_some, Bool.or_eq_true,
          Bool.not_eq_true', not_or, Bool.not_eq_true, Bool.not_eq_false, Option.some.injEq] at hst
        obtain ⟨⟨⟨hload, halive⟩, hr⟩, hd⟩ := hst
        exact .inr (.inr (.inr (.inr ⟨r, message, queue, rfl, hload, halive, hr, rfl, hd.symm⟩)))
    | compute | loaded | done => simp [hn] at hst
  | request =>
    cases hn : next c.program with
    | request r =>
      simp only [hn, Option.ite_none_left_eq_some, Bool.or_eq_true, Bool.not_eq_true', not_or,
        Bool.not_eq_true, Bool.not_eq_false, Option.some.injEq] at hst
      obtain ⟨⟨⟨hload, halive⟩, hr⟩, hd⟩ := hst
      exact .inr (.inr (.inr (.inl ⟨r, rfl, hload, halive, hr, hd.symm⟩)))
    | compute | loaded | done => simp [hn] at hst

/-- The conversation takes a step, or none. -/
def Conversation.Moves (sys : Otp W) (next : E → Next E G) (s₀ : ProcState)
    (c d : Conversation W E) : Prop :=
  d = c ∨ ∃ act, conversationStep sys next s₀ act c = some d

section Moves

variable {s₀ : ProcState} {c : Conversation W E} {r : HostRequest E}

theorem Message.Plain.moves {m : Message} (hm : m.Plain) :
    c.Moves sys next s₀ { c with queue := c.queue ++ messagesIn [m] } := by
  cases hm with
  | jsMessage message => exact .inr ⟨.arrive message, rfl⟩
  | other message =>
    refine .inl ?_
    rw [show messagesIn [.info (.other message)] = [] from rfl, List.append_nil]

/-- A message for the conversation, at any stage of a request. -/
theorem Pending.arrive {owner : Owner W} {inbox : List Message} {world : W} {m : Message}
    (h : Pending sys s₀ r c owner inbox world) (hm : m.Plain) :
    Pending sys s₀ r { c with queue := c.queue ++ messagesIn [m] } owner (inbox ++ [m]) world := by
  have hone : ∀ m' ∈ [m], m'.Plain := by simpa using hm
  cases h with
  | @sent s owner pre post hs howner hplain hqueue =>
    rw [List.append_assoc, List.cons_append]
    refine .sent hs howner ?_ ?_
    · rw [← List.append_assoc]
      exact List.forall_mem_append.mpr ⟨hplain, hone⟩
    · rw [← hqueue, ← List.append_assoc, messagesIn_append (pre ++ post), List.append_assoc]
  | working hr hbody hrun hs hplain hqueue =>
    refine .working hr hbody hrun hs (List.forall_mem_append.mpr ⟨hplain, hone⟩) ?_
    rw [messagesIn_append, ← List.append_assoc, hqueue]
  | awaiting hr hbase hawait hmail howner hplain hqueue =>
    refine .awaiting hr hbase hawait hmail howner (List.forall_mem_append.mpr ⟨hplain, hone⟩) ?_
    rw [messagesIn_append, hqueue]
  | @delivering s message inbox hr hs hplain hqueue =>
    refine .delivering hr hs (List.forall_mem_append.mpr ⟨hplain, hone⟩) ?_
    rw [messagesIn_append, ← List.append_assoc, hqueue, List.cons_append]

theorem Tracks.arrive {x : System W E G} {m : Message} (h : Tracks sys next s₀ c x)
    (hm : m.Plain) :
    Tracks sys next s₀ { c with queue := c.queue ++ messagesIn [m] }
      { x with inbox := x.inbox ++ [m] } := by
  cases h with
  | rest hthread hs howner hplain hqueue hworld halive =>
    refine .rest hthread hs howner ?_ ?_ hworld halive
    · exact List.forall_mem_append.mpr ⟨hplain, by simpa using hm⟩
    · rw [messagesIn_append, ← List.append_assoc, hqueue]
  | asking hnext hthread halive hpending => exact .asking hnext hthread halive (hpending.arrive hm)
  | dead hnext hthread halive howner => exact .dead hnext hthread halive howner

/-- The process takes a message that is not the request, with the mailbox as it was told. -/
theorem settles_plain (sys : Otp W) {m : Message} {inbox : List Message} {queue : List Term}
    {s : ProcState} (hs : Serves s₀ s) (hm : m.Plain) (hqueue : s.mailbox ++ messagesIn (m :: inbox) = queue) :
    ∃ s', Serves s₀ s' ∧ SettlesIn s' (.running (m.handle sys s)) ∧
      s'.mailbox ++ messagesIn inbox = queue := by
  obtain ⟨s', hhandle, hs', hmail⟩ := hm.handle sys hs
  refine ⟨s', hs', hhandle ▸ .returning, ?_⟩
  rw [hmail, List.append_assoc, ← messagesIn_append]
  exact hqueue

/-- The process takes the next message. -/
theorem Pending.take {s : ProcState} {m : Message} {inbox : List Message} {world : W}
    (h : Pending sys s₀ r c (.looping s) (m :: inbox) world) :
    Pending sys s₀ r c (.running (m.handle sys s)) inbox world := by
  generalize hin : m :: inbox = all at h
  generalize how : Owner.looping s = owner at h
  cases h with
  | @sent s' owner pre post hs howner hplain hqueue =>
    subst how
    cases howner
    cases pre with
    | cons m' pre =>
      cases hin
      obtain ⟨hm, hplain⟩ := List.forall_mem_cons.mp hplain
      obtain ⟨s', hs', howner, hqueue⟩ := settles_plain sys hs hm hqueue
      exact .sent hs' howner hplain hqueue
    | nil =>
      cases hin
      cases hr : r.isReceive with
      | false =>
        obtain ⟨hhandle, hbody⟩ := handle_request sys hr s
        rw [hhandle]
        refine .working hr hbody ?_ hs hplain hqueue
        rw [replyTo_eq hr hs.baseDir]
      | true =>
        obtain ⟨hnil, hcons⟩ := handle_receive sys hr s
        cases hmail : s.mailbox with
        | nil =>
          rw [hnil hmail]
          rw [hmail] at hqueue
          exact .awaiting (s := { s with awaitingReceive := true }) hr hs.baseDir rfl hmail .returning
            hplain hqueue
        | cons message mailbox =>
          rw [hcons message mailbox hmail]
          rw [hmail] at hqueue
          exact .delivering hr ⟨hs.baseDir, hs.not_awaiting⟩ hplain hqueue.symm
  | working => cases how
  | @awaiting s' owner inbox' hr hbase hawait hmail howner hplain hqueue =>
    subst how hin
    cases howner
    obtain ⟨hm, hrest⟩ := List.forall_mem_cons.mp hplain
    cases hm with
    | jsMessage message =>
      rw [(handle_jsMessage message s).2 hawait]
      refine .delivering hr ⟨hbase, rfl⟩ hrest ?_
      rw [← hqueue, hmail]
      rfl
    | other message => exact .awaiting hr hbase hawait hmail .returning hrest hqueue
  | delivering => cases how

theorem SettlesIn.work {x y : System W E G} {s : ProcState} (h : SettlesIn s x.owner)
    (hst : systemStep sys engine .work x = some y) : y = { x with owner := .looping s } := by
  rcases x with ⟨owner, world, inbox, globals, eval⟩
  cases h with
  | looping => cases hst
  | returning =>
    cases hst
    rfl

/-- The conversation asks, in the state in which nobody has replied yet. -/
theorem ask_step (hnext : next c.program = .request r) (hr : r.isReceive = false)
    (hload : c.loading = false) (halive : c.alive = true) :
    conversationStep sys next s₀ .request c = some (c.ask sys s₀ r) := by
  unfold conversationStep
  simp [hnext, hr, hload, halive]

theorem receive_step {message : Term} {queue : List Term} (hnext : next c.program = .request r)
    (hr : r.isReceive = true) (hload : c.loading = false) (halive : c.alive = true)
    (hqueue : c.queue = message :: queue) :
    conversationStep sys next s₀ .receive c =
      some ({ c with queue := queue }.resume r message) := by
  unfold conversationStep
  simp [hnext, hr, hload, halive, hqueue]

/-- The process takes a step of its work. Where it delivers the reply, the conversation goes on. -/
theorem Tracks.work {x y : System W E G} (h : Tracks sys engine.next s₀ c x)
    (hst : systemStep sys engine .work x = some y) :
    ∃ d, c.Moves sys engine.next s₀ d ∧ Tracks sys engine.next s₀ d y := by
  cases h with
  | rest hthread hs howner hplain hqueue hworld halive =>
    rw [howner.work hst]
    exact ⟨c, .inl rfl, .rest hthread hs .looping hplain hqueue hworld halive⟩
  | dead hnext hthread halive howner =>
    obtain ⟨work, hwork, -⟩ := work_cases hst
    cases howner.symm.trans hwork
  | @asking r hnext hthread halive hpending =>
    rcases x with ⟨owner, world, inbox, globals, eval⟩
    simp only at hthread hpending
    cases hpending with
    | sent hs howner hplain hqueue =>
      rw [SettlesIn.work howner hst]
      exact ⟨c, .inl rfl, .asking hnext hthread halive (.sent hs .looping hplain hqueue)⟩
    | awaiting hr hbase hawait hmail howner hplain hqueue =>
      rw [SettlesIn.work howner hst]
      exact ⟨c, .inl rfl,
        .asking hnext hthread halive (.awaiting hr hbase hawait hmail .looping hplain hqueue)⟩
    | @working s body inbox world hr hbody hrun hs hplain hqueue =>
      rcases workStep_replyWork hbody hst with ⟨reply, rfl, hfree, rfl⟩ |
        ⟨body', world', rfl, hbody', hrun'⟩ | ⟨e, world', rfl, hrun'⟩
      · obtain ⟨hload, hwaits⟩ := hthread.deliver hfree reply
        refine ⟨_, .inr ⟨.request, ask_step hnext hr hload halive⟩, ?_⟩
        rw [Conversation.ask, ← hrun]
        exact .rest (.inr ⟨r, reply, hwaits, rfl⟩) hs .returning hplain hqueue rfl halive
      · exact ⟨c, .inl rfl, .asking hnext hthread halive
          (.working hr hbody' (hrun'.symm.trans hrun) hs hplain hqueue)⟩
      · cases hload : c.loading with
        | true =>
          refine ⟨c, .inl rfl, .dead hnext hthread (fun h => ?_) rfl⟩
          cases hload.symm.trans h
        | false =>
          refine ⟨_, .inr ⟨.request, ask_step hnext hr hload halive⟩, ?_⟩
          rw [Conversation.ask, ← hrun, hrun']
          exact .dead hnext hthread (fun _ => rfl) rfl
    | @delivering s message inbox hr hs hplain hqueue =>
      obtain ⟨work, hwork, hst⟩ := work_cases hst
      cases hwork
      obtain ⟨hfree, rfl⟩ := workStep_deliver hst
      obtain ⟨hload, hwaits⟩ := hthread.deliver hfree message
      exact ⟨_, .inr ⟨.receive, receive_step hnext hr hload halive hqueue⟩,
        .rest (.inr ⟨r, message, hwaits, rfl⟩) hs .returning hplain rfl rfl halive⟩

theorem go_compute {e : E} (hnext : next c.program = .compute e) :
    conversationStep sys next s₀ .go c = some { c with program := e } := by
  unfold conversationStep
  simp [hnext]

theorem go_loaded {e : E} (hnext : next c.program = .loaded e) (hload : c.loading = true) :
    conversationStep sys next s₀ .go c = some { c with program := e, loading := false } := by
  unfold conversationStep
  simp [hnext, hload]

/-- The thread takes a step. It goes where the conversation goes, or reads the reply. -/
theorem Tracks.thread {x y : System W E G} (h : Tracks sys engine.next s₀ c x)
    (hst : systemStep sys engine .thread x = some y) :
    ∃ d, c.Moves sys engine.next s₀ d ∧ Tracks sys engine.next s₀ d y := by
  obtain ⟨eval, heval, rfl⟩ := thread_cases hst
  cases h with
  | asking hnext hthread halive hpending =>
    refine ⟨c, .inl rfl, .asking hnext (hthread.thread heval) halive ?_⟩
    simpa [requestOf_of_request? hthread.request?] using hpending
  | dead hnext hthread halive howner =>
    exact ⟨c, .inl rfl, .dead hnext (hthread.thread heval) halive howner⟩
  | @rest s hthread hs howner hplain hqueue hworld halive =>
    rcases hthread with hruns | ⟨r, t, hwaits, hgoes⟩
    · rcases hruns.thread heval with ⟨e, hnext, hruns', hreq⟩ | ⟨e, hnext, hload, hruns', hreq⟩ |
        ⟨r, hnext, hreq, hasks⟩
      · refine ⟨_, .inr ⟨.go, go_compute hnext⟩, .rest (.inl hruns') hs howner ?_ ?_ hworld halive⟩
        · simpa [hreq] using hplain
        · simpa [hreq] using hqueue
      · refine ⟨_, .inr ⟨.go, go_loaded hnext hload⟩,
          .rest (.inl hruns') hs howner ?_ ?_ hworld halive⟩
        · simpa [hreq] using hplain
        · simpa [hreq] using hqueue
      · refine ⟨c, .inl rfl, .asking hnext hasks halive ?_⟩
        rw [hreq, hworld]
        exact Pending.last hs howner hplain hqueue
    · refine ⟨c, .inl rfl, .rest ?_ hs howner ?_ ?_ hworld halive⟩
      · rcases (hwaits.thread engine.next).2 eval heval with hwaits' | ⟨t', ht, hruns⟩
        · exact .inr ⟨r, t, hwaits', hgoes⟩
        · cases ht
          rw [hgoes] at hruns
          exact .inl hruns
      · simpa [requestOf_of_request? hwaits.request?] using hplain
      · simpa [requestOf_of_request? hwaits.request?] using hqueue

/-- The process takes a message. -/
theorem Tracks.take {x y : System W E G} (h : Tracks sys engine.next s₀ c x)
    (hst : systemStep sys engine .take x = some y) : Tracks sys engine.next s₀ c y := by
  obtain ⟨s, m, inbox, howner, hin, rfl⟩ := take_cases hst
  cases h with
  | @rest s' hthread hs hsettles hplain hqueue hworld halive =>
    rw [howner] at hsettles
    rw [hin] at hplain hqueue
    cases hsettles
    obtain ⟨hm, hplain⟩ := List.forall_mem_cons.mp hplain
    obtain ⟨s', hs', hsettles, hqueue⟩ := settles_plain sys hs hm hqueue
    exact .rest hthread hs' hsettles hplain hqueue hworld halive
  | asking hnext hthread halive hpending =>
    rw [howner, hin] at hpending
    exact .asking hnext hthread halive hpending.take
  | dead hnext hthread halive hgone => cases hgone.symm.trans howner

/-- No evaluation runs in the process itself. -/
theorem Tracks.not_evaluating {x : System W E G} (h : Tracks sys engine.next s₀ c x)
    (resume : Term → Work W) : x.owner ≠ .evaluating resume := by
  rcases x with ⟨owner, world, inbox, globals, eval⟩
  rintro rfl
  cases h with
  | rest hthread hs howner => cases howner
  | asking hnext hthread halive hpending =>
    cases hpending with
    | sent hs howner => cases howner
    | awaiting hr hbase hawait hmail howner => cases howner
  | dead hnext hthread halive howner => cases howner

/-- A step of the system. -/
theorem Tracks.step {x y : System W E G} {act : SystemAct} (h : Tracks sys engine.next s₀ c x)
    (hserving : act.isServing = true) (hst : systemStep sys engine act x = some y) :
    ∃ d, c.Moves sys engine.next s₀ d ∧ Tracks sys engine.next s₀ d y := by
  cases act with
  | arrive m =>
    obtain ⟨hm, rfl⟩ := arrive_cases hserving hst
    exact ⟨_, hm.moves, h.arrive hm⟩
  | take => exact ⟨c, .inl rfl, h.take hst⟩
  | work => exact h.work hst
  | thread => exact h.thread hst
  | finish =>
    obtain ⟨resume, heval⟩ := finish_cases hst
    exact absurd heval (h.not_evaluating resume)

end Moves

/-! ## What the system shows -/

section Served

variable {s₀ : ProcState} {c : Conversation W E} {x : System W E G}

theorem Tracks.start {e : E} {world : W} (hawait : s₀.awaitingReceive = false) :
    Tracks sys engine.next s₀ ⟨e, false, s₀.mailbox, world, true⟩
      (System.served engine s₀ e world) :=
  .rest (.inl (.running e)) ⟨rfl, hawait⟩ .looping (by simp [System.served])
    (by simp [System.served, messagesIn]) rfl rfl

/-- What the thread is doing, as the conversation has it. -/
theorem Tracks.running (h : Tracks sys engine.next s₀ c x) {e : E}
    (he : x.eval.phase = .running e) : e = c.program ∧ x.world = c.world := by
  have hnot : ∀ r, x.eval.phase.request? ≠ some r := by
    intro r hr
    rw [he] at hr
    cases hr
  cases h with
  | rest hthread hs howner hplain hqueue hworld =>
    rcases hthread with hruns | ⟨r, t, hwaits, -⟩
    · rw [hruns.phase] at he
      cases he
      exact ⟨rfl, hworld⟩
    · exact absurd hwaits.request? (hnot r)
  | asking hnext hthread => exact absurd hthread.request? (hnot _)
  | dead hnext hthread => exact absurd hthread.request? (hnot _)

theorem WaitsFor.reply {r : HostRequest E} {t : Term} {c : EvalSide E Term}
    (h : WaitsFor r (some t) c) : c.slot.reply = some t ∧ c.slot.ready = true := by
  cases h with
  | blocked => exact ⟨rfl, rfl⟩
  | checking => exact ⟨rfl, rfl⟩

theorem Tracks.waiting (h : Tracks sys engine.next s₀ c x) {r : HostRequest E}
    (hr : x.eval.phase.request? = some r) : engine.next c.program = .request r ∨
      ∃ reply, x.eval.slot.reply = some reply ∧ c.program = (r.answered reply).1 ∧
        x.world = c.world := by
  cases h with
  | rest hthread hs howner hplain hqueue hworld =>
    rcases hthread with hruns | ⟨r', t, hwaits, hgoes⟩
    · rw [hruns.phase] at hr
      cases hr
    · cases hwaits.request?.symm.trans hr
      exact .inr ⟨t, hwaits.reply.1, by rw [hgoes], hworld⟩
  | asking hnext hthread =>
    cases hthread.request?.symm.trans hr
    exact .inl hnext
  | dead hnext hthread =>
    cases hthread.request?.symm.trans hr
    exact .inl hnext

/-- A request is no message for the program. -/
theorem messagesIn_request (r : HostRequest E) (inbox : List Message) :
    messagesIn (r.message :: inbox) = messagesIn inbox := by
  cases r <;> rfl

/-- A process in its loop has every message of the conversation in front of it. -/
theorem Pending.queue {r : HostRequest E} {s : ProcState} {owner : Owner W} {inbox : List Message}
    {world : W} (h : Pending sys s₀ r c owner inbox world) (howner : owner = .looping s) :
    s.mailbox ++ messagesIn inbox = c.queue := by
  subst howner
  cases h with
  | sent hs howner hplain hqueue =>
    cases howner
    rw [← hqueue, messagesIn_append, messagesIn_append, messagesIn_request]
  | awaiting hr hbase hawait hmail howner hplain hqueue =>
    cases howner
    rw [hmail, List.nil_append, hqueue]

theorem Tracks.queue (h : Tracks sys engine.next s₀ c x) {s : ProcState}
    (howner : x.owner = .looping s) : s.mailbox ++ messagesIn x.inbox = c.queue := by
  cases h with
  | rest hthread hs hsettles hplain hqueue =>
    rw [howner] at hsettles
    cases hsettles
    exact hqueue
  | asking hnext hthread halive hpending => exact hpending.queue howner
  | dead hnext hthread halive hgone => cases hgone.symm.trans howner

theorem Tracks.shows (h : Tracks sys engine.next s₀ c x) : x.Shows engine c :=
  ⟨fun _ he => h.running he, fun _ hr => h.waiting hr, fun _ hs => h.queue hs⟩

/-! ## Rest -/

/-- The conversation has nothing to do at a request that it may not make, or at a `receive` without
a message. -/
theorem quiescent_of_request {next : E → Next E G} {r : HostRequest E}
    (hnext : next c.program = .request r)
    (h : c.loading = true ∨ c.alive = false ∨ r.isReceive = true ∧ c.queue = []) :
    c.Quiescent sys next s₀ := by
  intro act d hst
  rcases conversationStep_cases hst with ⟨message, hact, -⟩ | ⟨e, he, -⟩ | ⟨e, he, -⟩ |
    ⟨r', hr', hload, halive, hkind, -⟩ | ⟨r', message, queue, hr', hload, halive, -, hqueue, -⟩
  · exact ⟨message, hact⟩
  · cases hnext.symm.trans he
  · cases hnext.symm.trans he
  · cases hnext.symm.trans hr'
    rcases h with h | h | ⟨h, -⟩
    · cases hload.symm.trans h
    · cases halive.symm.trans h
    · cases hkind.symm.trans h
  · rcases h with h | h | ⟨-, h⟩
    · cases hload.symm.trans h
    · cases halive.symm.trans h
    · cases hqueue.symm.trans h

/-- Neither has it where the thread is at its end. -/
theorem RunsAt.quiescent {next : E → Next E G} {eval : EvalSide E Term}
    (h : RunsAt c.loading c.program eval) (hst : threadStep next id eval = none) :
    c.Quiescent sys next s₀ := by
  intro act d hd
  rcases conversationStep_cases hd with ⟨message, hact, -⟩ | ⟨e, he, -⟩ | ⟨e, he, hload, -⟩ |
    ⟨r, hr, -⟩ | ⟨r, message, queue, hr, -⟩
  · exact ⟨message, hact⟩
  · exact absurd hst (h.enabled (.inl ⟨e, he⟩))
  · exact absurd hst (h.enabled (.inr (.inl ⟨e, he, hload⟩)))
  · exact absurd hst (h.enabled (.inr (.inr ⟨r, hr⟩)))
  · exact absurd hst (h.enabled (.inr (.inr ⟨r, hr⟩)))

/-- A system at rest: the process waits for a message, and the thread for nothing but a reply. -/
theorem System.Quiescent.steps (hx : x.Quiescent sys engine) :
    systemStep sys engine .take x = none ∧ systemStep sys engine .work x = none ∧
      (threadStep engine.next id x.eval = none ∨
        x.eval.slot.ready = false ∧ ∃ r, x.eval.phase = .sleeping r) := by
  refine ⟨?_, ?_, ?_⟩
  · refine Option.eq_none_iff_forall_ne_some.mpr fun y hy => ?_
    rcases hx .take y hy with ⟨m, hm⟩ | ⟨hact, -⟩
    · cases hm
    · cases hact
  · refine Option.eq_none_iff_forall_ne_some.mpr fun y hy => ?_
    rcases hx .work y hy with ⟨m, hm⟩ | ⟨hact, -⟩
    · cases hm
    · cases hact
  · cases hth : threadStep engine.next id x.eval with
    | none => exact .inl rfl
    | some eval =>
      obtain ⟨y, hy⟩ : ∃ y, systemStep sys engine .thread x = some y := by simp [systemStep, hth]
      rcases hx .thread y hy with ⟨m, hm⟩ | ⟨-, hsleep⟩
      · cases hm
      · exact .inr hsleep

/-- A process at rest is in its loop, with no message in front of it. -/
theorem SettlesIn.idle {s : ProcState} (h : SettlesIn s x.owner)
    (htake : systemStep sys engine .take x = none) (hwork : systemStep sys engine .work x = none) :
    x.inbox = [] := by
  rcases x with ⟨owner, world, inbox, globals, eval⟩
  cases h with
  | looping =>
    cases inbox with
    | nil => rfl
    | cons m inbox => cases htake
  | returning => cases hwork

/-- A process that is at work on a reply goes on, once nobody holds the lock. -/
theorem work_enabled {body : Callback W Term} {s : ProcState} (hbody : OnlyOtp body)
    (howner : x.owner = .running (replyWork body s)) (hfree : x.eval.slot.holder = .free) :
    systemStep sys engine .work x ≠ none := by
  simp only [systemStep, howner]
  cases body with
  | ret reply =>
    rw [replyWork, Program.ret_bind, Callback.deliver, Program.lift, Program.perform_bind, workStep,
      if_pos hfree]
    exact Option.some_ne_none _
  | raise e => exact Option.some_ne_none _
  | perform op k =>
    cases op with
    | otp f =>
      rw [replyWork, Program.perform_bind, workStep]
      rcases f x.world with ⟨r, world⟩
      cases r <;> exact Option.some_ne_none _
    | setGlobal | eval | deliver => exact hbody.1.elim

/-- Where the system has come to rest, the conversation has nothing left to do. -/
theorem Tracks.quiescent (h : Tracks sys engine.next s₀ c x) (hx : x.Quiescent sys engine) :
    c.Quiescent sys engine.next s₀ := by
  obtain ⟨htake, hwork, hthread⟩ := hx.steps
  cases h with
  | rest hruns hs howner hplain hqueue =>
    rcases hruns with hruns | ⟨r, t, hwaits, -⟩
    · rcases hthread with hst | ⟨-, r, hr⟩
      · exact hruns.quiescent hst
      · cases hruns.phase.symm.trans hr
    · rcases hthread with hst | ⟨hready, -⟩
      · obtain ⟨c', hc'⟩ := (hwaits.thread engine.next).1
        cases hst.symm.trans hc'
      · cases hwaits.reply.2.symm.trans hready
  | dead hnext hasks halive =>
    cases hload : c.loading with
    | true => exact quiescent_of_request hnext (.inl hload)
    | false => exact quiescent_of_request hnext (.inr (.inl (halive hload)))
  | @asking r hnext hasks halive hpending =>
    cases hload : c.loading with
    | true => exact quiescent_of_request hnext (.inl hload)
    | false =>
      rw [hload] at hasks
      rcases x with ⟨owner, world, inbox, globals, eval⟩
      simp only at hasks hpending hthread
      obtain ⟨hwaits⟩ := hasks
      have hfree := hwaits.sleeping hthread
      cases hpending with
      | sent hs howner =>
        have hempty := howner.idle htake hwork
        simp at hempty
      | working hr hbody => exact absurd hwork (work_enabled hbody rfl hfree)
      | awaiting hr hbase hawait hmail howner hplain hqueue =>
        have hempty := howner.idle htake hwork
        refine quiescent_of_request hnext (.inr (.inr ⟨hr, ?_⟩))
        rw [← hqueue, show inbox = [] from hempty]
        rfl
      | @delivering s message =>
        have hbody : OnlyOtp (.ret message : Callback W Term) := trivial
        exact absurd hwork (work_enabled hbody rfl hfree)

end Served

/-! ## Every conversation is served -/

section Realize

variable {s₀ : ProcState} {e₀ : E} {world₀ : W} {c d : Conversation W E} {x : System W E G}

/-- The system is where the conversation is, with nothing in flight. -/
inductive Realizes (engine : Engine E G) (s₀ : ProcState) (c : Conversation W E) :
    System W E G → Prop
  | rest {s : ProcState} {globals : G} {eval : EvalSide E Term} (halive : c.alive = true)
      (hs : Serves s₀ s) (hruns : RunsAt c.loading c.program eval) (hmail : s.mailbox = c.queue) :
      Realizes engine s₀ c ⟨.looping s, c.world, [], globals, eval⟩
  | gone {inbox : List Message} {globals : G} {eval : EvalSide E Term} {r : HostRequest E}
      (halive : c.alive = false) (hnext : engine.next c.program = .request r) :
      Realizes engine s₀ c ⟨.gone, c.world, inbox, globals, eval⟩

/-- The work on a reply, to its end. -/
theorem reachable_replyWork {body : Callback W Term} {s : ProcState} {world : W}
    {inbox : List Message} {globals : G} {eval : EvalSide E Term} (hbody : OnlyOtp body)
    (hfree : eval.slot.holder = .free)
    (hx : (servedSystem sys engine s₀ e₀ world₀).Reachable
      ⟨.running (replyWork body s), world, inbox, globals, eval⟩) :
    (∀ reply world', body.run worldOp world = (.ok reply, world') →
      (servedSystem sys engine s₀ e₀ world₀).Reachable
        ⟨.looping s, world', inbox, globals, { eval with slot := .deliver reply }⟩) ∧
    ∀ e world', body.run worldOp world = (.error e, world') →
      (servedSystem sys engine s₀ e₀ world₀).Reachable ⟨.gone, world', inbox, globals, eval⟩ := by
  induction body generalizing world with
  | ret reply =>
    refine ⟨fun reply' world' hrun => ?_, fun e world' hrun => by cases hrun⟩
    cases hrun
    have hst : systemStep sys engine .work
        ⟨.running (replyWork (.ret reply) s), world, inbox, globals, eval⟩ =
        some ⟨.running (.ret (some s)), world, inbox, globals,
          { eval with slot := .deliver reply }⟩ := if_pos hfree
    exact (hx.step ⟨rfl, hst⟩).step (a := .work) ⟨rfl, rfl⟩
  | raise e =>
    refine ⟨fun reply world' hrun => by (cases hrun), fun e' world' hrun => ?_⟩
    cases hrun
    exact hx.step (a := .work) ⟨rfl, rfl⟩
  | perform op k ih =>
    cases op with
    | otp f =>
      simp only [Program.run, worldOp]
      rcases hf : f world with ⟨r, world'⟩
      cases r with
      | ok a =>
        refine ih a (hbody.2 a) (hx.step (a := .work) ⟨rfl, ?_⟩)
        simp only [systemStep, replyWork, Program.perform_bind, workStep, hf]
      | error e =>
        refine ⟨fun reply world'' hrun => by (cases hrun), fun e' world'' hrun => ?_⟩
        cases hrun
        refine hx.step (a := .work) ⟨rfl, ?_⟩
        simp only [systemStep, replyWork, Program.perform_bind, workStep, hf]
    | setGlobal | eval | deliver => exact hbody.1.elim

/-- The thread reads the reply in the slot and goes on. -/
theorem reachable_reply {r : HostRequest E} {t : Term} {owner : Owner W} {world : W}
    {inbox : List Message} {globals : G}
    (hx : (servedSystem sys engine s₀ e₀ world₀).Reachable
      ⟨owner, world, inbox, globals, ⟨.locking r, 0, .deliver t⟩⟩) :
    ∃ eval, RunsAt (r.answered t).2 (r.answered t).1 eval ∧
      (servedSystem sys engine s₀ e₀ world₀).Reachable ⟨owner, world, inbox, globals, eval⟩ := by
  have hlocks : threadStep engine.next id (⟨.locking r, 0, .deliver t⟩ : EvalSide E Term) =
      some ⟨.checking r, 0, slotWith .evaluation (some t)⟩ := rfl
  have hreads : threadStep engine.next id ⟨.checking r, 0, slotWith .evaluation (some t)⟩ =
      some (consume id ⟨.checking r, 0, slotWith .evaluation (some t)⟩ r t) := rfl
  exact ⟨_, runsAt_consume r t,
    (hx.step ⟨rfl, thread_step hlocks rfl⟩).step ⟨rfl, thread_step hreads rfl⟩⟩

/-- The thread sends a request, which the process takes at once. -/
theorem reachable_request {r : HostRequest E} {s : ProcState} {e : E} {world : W} {globals : G}
    (hnext : engine.next e = .request r)
    (hx : (servedSystem sys engine s₀ e₀ world₀).Reachable
      ⟨.looping s, world, [], globals, ⟨.running e, 0, .empty⟩⟩) :
    (servedSystem sys engine s₀ e₀ world₀).Reachable
      ⟨.running (r.message.handle sys s), world, [], globals, ⟨.locking r, 0, .empty⟩⟩ := by
  have hsent : systemStep sys engine .thread
      ⟨.looping s, world, [], globals, ⟨.running e, 0, .empty⟩⟩ =
      some ⟨.looping s, world, [r.message], globals, ⟨.locking r, 0, .empty⟩⟩ := by
    simp [systemStep, threadStep, requestOf, hnext]
  exact (hx.step ⟨rfl, hsent⟩).step (a := .take) ⟨rfl, rfl⟩

theorem Realizes.start {e : E} {world : W} (hawait : s₀.awaitingReceive = false) :
    Realizes engine s₀ ⟨e, false, s₀.mailbox, world, true⟩ (System.served engine s₀ e world) :=
  .rest rfl ⟨rfl, hawait⟩ (.running e) rfl

theorem RunsAt.eq_running {e : E} {eval : EvalSide E Term} (h : RunsAt false e eval) :
    eval = ⟨.running e, 0, .empty⟩ := by
  cases h
  rfl

/-- A message comes, and the process takes it into the mailbox. -/
theorem reachable_arrive {s : ProcState} {world : W} {globals : G} {eval : EvalSide E Term}
    (hs : Serves s₀ s)
    (hx : (servedSystem sys engine s₀ e₀ world₀).Reachable ⟨.looping s, world, [], globals, eval⟩)
    (message : Term) :
    (servedSystem sys engine s₀ e₀ world₀).Reachable
      ⟨.looping { s with mailbox := s.mailbox ++ [message] }, world, [], globals, eval⟩ := by
  have htaken := (hx.step (a := .arrive (.info (.jsMessage message))) ⟨rfl, rfl⟩).step
    (a := .take) ⟨rfl, rfl⟩
  rw [(handle_jsMessage message s).1 hs.not_awaiting] at htaken
  exact htaken.step (a := .work) ⟨rfl, rfl⟩

/-- The program runs on without a request. -/
theorem reachable_runs {s : ProcState} {world : W} {globals : G} {eval : EvalSide E Term} {e : E}
    {loading : Bool} (hruns : RunsAt loading e eval)
    (hx : (servedSystem sys engine s₀ e₀ world₀).Reachable ⟨.looping s, world, [], globals, eval⟩) :
    (∀ e', engine.next e = .compute e' → ∃ eval', RunsAt loading e' eval' ∧
      (servedSystem sys engine s₀ e₀ world₀).Reachable ⟨.looping s, world, [], globals, eval'⟩) ∧
    ∀ e', engine.next e = .loaded e' → loading = true → ∃ eval', RunsAt false e' eval' ∧
      (servedSystem sys engine s₀ e₀ world₀).Reachable
        ⟨.looping s, world, [], globals, eval'⟩ := by
  refine ⟨fun e' hnext => ?_, fun e' hnext hload => ?_⟩
  · obtain ⟨eval', heval⟩ := Option.ne_none_iff_exists'.mp (hruns.enabled (.inl ⟨e', hnext⟩))
    rcases hruns.thread heval with ⟨e'', hnext', hruns', hreq⟩ | ⟨e'', hnext', -⟩ | ⟨r, hnext', -⟩
    · cases hnext.symm.trans hnext'
      exact ⟨eval', hruns', hx.step ⟨rfl, thread_step heval hreq⟩⟩
    · cases hnext.symm.trans hnext'
    · cases hnext.symm.trans hnext'
  · obtain ⟨eval', heval⟩ :=
      Option.ne_none_iff_exists'.mp (hruns.enabled (.inr (.inl ⟨e', hnext, hload⟩)))
    rcases hruns.thread heval with ⟨e'', hnext', -⟩ | ⟨e'', hnext', -, hruns', hreq⟩ | ⟨r, hnext', -⟩
    · cases hnext.symm.trans hnext'
    · cases hnext.symm.trans hnext'
      exact ⟨eval', hruns', hx.step ⟨rfl, thread_step heval hreq⟩⟩
    · cases hnext.symm.trans hnext'

/-- The system follows each step of the conversation. -/
theorem Realizes.step {act : ConversationAct} (h : Realizes engine s₀ c x)
    (hx : (servedSystem sys engine s₀ e₀ world₀).Reachable x)
    (hst : conversationStep sys engine.next s₀ act c = some d) :
    ∃ y, (servedSystem sys engine s₀ e₀ world₀).Reachable y ∧ Realizes engine s₀ d y := by
  cases h with
  | @gone inbox globals eval r halive hnext =>
    rcases conversationStep_cases hst with ⟨message, -, rfl⟩ | ⟨e, he, -⟩ | ⟨e, he, -⟩ |
      ⟨r', -, -, halive', -⟩ | ⟨r', message, queue, -, -, halive', -⟩
    · exact ⟨_, hx, .gone halive hnext⟩
    · cases hnext.symm.trans he
    · cases hnext.symm.trans he
    · cases halive.symm.trans halive'
    · cases halive.symm.trans halive'
  | @rest s globals eval halive hs hruns hmail =>
    rcases conversationStep_cases hst with ⟨message, -, rfl⟩ | ⟨e, he, rfl⟩ | ⟨e, he, hload, rfl⟩ |
      ⟨r, hnext, hload, -, hr, rfl⟩ | ⟨r, message, queue, hnext, hload, -, hr, hqueue, rfl⟩
    · refine ⟨_, reachable_arrive hs hx message,
        .rest halive ⟨hs.baseDir, hs.not_awaiting⟩ hruns ?_⟩
      rw [hmail]
    · obtain ⟨eval', hruns', hx'⟩ := (reachable_runs hruns hx).1 e he
      exact ⟨_, hx', .rest halive hs hruns' hmail⟩
    · obtain ⟨eval', hruns', hx'⟩ := (reachable_runs hruns hx).2 e he hload
      exact ⟨_, hx', .rest halive hs hruns' hmail⟩
    · rw [hload] at hruns
      obtain rfl := hruns.eq_running
      obtain ⟨hhandle, hbody⟩ := handle_request sys hr s
      have htaken := reachable_request hnext hx
      rw [hhandle] at htaken
      obtain ⟨hok, herror⟩ := reachable_replyWork hbody rfl htaken
      rw [replyTo_eq hr hs.baseDir] at hok herror
      rw [Conversation.ask]
      rcases hrun : (replyTo sys s₀ r).run worldOp c.world with ⟨reply, world⟩
      cases reply with
      | ok reply =>
        obtain ⟨eval', hruns', hx'⟩ := reachable_reply (hok reply world hrun)
        exact ⟨_, hx', .rest halive hs hruns' hmail⟩
      | error e => exact ⟨_, herror e world hrun, .gone rfl hnext⟩
    · rw [hload] at hruns
      obtain rfl := hruns.eq_running
      have htaken := reachable_request hnext hx
      rw [(handle_receive sys hr s).2 message queue (hmail.trans hqueue)] at htaken
      have hbody : OnlyOtp (.ret message : Callback W Term) := trivial
      have hdelivered := (reachable_replyWork hbody rfl htaken).1 message c.world rfl
      obtain ⟨eval', hruns', hx'⟩ := reachable_reply hdelivered
      exact ⟨_, hx', .rest halive ⟨hs.baseDir, hs.not_awaiting⟩ hruns' rfl⟩

end Realize

/-- A process that is free to answer, and an evaluation that runs elsewhere, are the program in
conversation with its process, whatever the interleaving of the two and of the messages: in every
state they reach they show one that the conversation reaches, where they come to rest it has nothing
left to do, and everything that it does they do. -/
theorem served_program_converses (sys : Otp W) (engine : Engine E G) (opts : InitOpts) (e : E)
    (world : W) :
    let s := initialState sys opts
    (∀ x, (servedSystem sys engine s e world).Reachable x →
      ∃ c, (conversations sys engine.next s e world).Reachable c ∧ x.Shows engine c ∧
        (x.Quiescent sys engine → c.Quiescent sys engine.next s)) ∧
    ∀ c, (conversations sys engine.next s e world).Reachable c →
      ∃ x, (servedSystem sys engine s e world).Reachable x ∧ x.world = c.world ∧
        (c.alive = false → x.owner = .gone) ∧
        (c.alive = true → x.eval.phase = .running c.program ∧ x.inbox = [] ∧
          ∃ s', x.owner = .looping s' ∧ s'.mailbox = c.queue) := by
  intro s
  refine ⟨fun x hx => ?_, fun c hc => ?_⟩
  · obtain ⟨c, hc, hfollows⟩ := hx.simulate (N := conversations sys engine.next s e world)
      (R := fun x c => Tracks sys engine.next s c x)
      (fun x hinit => by
        obtain rfl : x = _ := hinit
        exact ⟨_, rfl, Tracks.start rfl⟩)
      (fun x act y c hst hc h => by
        obtain ⟨d, hmoves, hfollows⟩ := h.step hst.1 hst.2
        rcases hmoves with rfl | ⟨act', hd⟩
        · exact ⟨d, hc, hfollows⟩
        · exact ⟨d, hc.step hd, hfollows⟩)
    exact ⟨c, hc, hfollows.shows, hfollows.quiescent⟩
  · obtain ⟨x, hx, hreal⟩ := hc.simulate (N := servedSystem sys engine s e world)
      (R := fun c x => Realizes engine s c x)
      (fun c hinit => by
        obtain rfl : c = _ := hinit
        exact ⟨_, rfl, Realizes.start rfl⟩)
      (fun c act d x hst hx h => h.step hx hst)
    refine ⟨x, hx, ?_⟩
    cases hreal with
    | gone halive =>
      refine ⟨rfl, fun _ => rfl, fun h => ?_⟩
      cases halive.symm.trans h
    | @rest s' globals eval halive hs hruns hmail =>
      refine ⟨rfl, fun h => ?_, fun _ => ⟨hruns.phase, rfl, s', rfl, hmail⟩⟩
      cases halive.symm.trans h

end BeamJS
