import BeamJS.Core.Mailbox
import BeamJS.Core.Proofs.PidHandleProofs

/-!
# Proofs: the mailbox

The host calls other than `receive` are answered at once and leave the state alone. That leaves four
cases of `handle_info` to follow: a message or a `receive`, with the other side waiting or not.
-/

namespace BeamJS

open Lib

variable {W : Type} {sys : Otp W}

/-! ## The clauses of `dispatch_host_call` -/

/-- A function of OTP, not an operation on the context. -/
def Op.isOtp {α : Type} : Op W α → Prop
  | .otp _ => True
  | _ => False

/-- A program that calls only functions of OTP and returns the state it was given. -/
abbrev Quiet (s : ProcState) (m : Callback W (Term × ProcState)) : Prop :=
  m.All Op.isOtp fun r => r.2 = s

theorem quiet_otp {α : Type} {s : ProcState} (f : OtpFn W α)
    {g : α → Callback W (Term × ProcState)} (h : ∀ a, Quiet s (g a)) :
    Quiet s (Callback.otp f >>= g) := ⟨trivial, h⟩

theorem quiet_ofExcept {α : Type} {s : ProcState} (r : Except Term α)
    {g : α → Callback W (Term × ProcState)} (h : ∀ a, Quiet s (g a)) :
    Quiet s (Callback.ofExcept r >>= g) := by
  cases r with
  | ok a => exact h a
  | error e => trivial

theorem quiet_withPid {s : ProcState} {pidData : Term} {failure : Term → Term}
    {body : Term → Callback W (Term × ProcState)} (h : ∀ pid, Quiet s (body pid)) :
    Quiet s (withPid sys pidData s failure body) := by
  unfold withPid
  split
  · exact h _
  · rfl

theorem quiet_startedReply (link : Term) (pid : Pid) (s : ProcState) :
    Quiet s (startedReply sys link pid s) := by
  unfold startedReply
  split
  · exact quiet_otp _ fun _ => rfl
  · rfl

theorem quiet_dispatchSpawn (link : Bool) (source : Term) (rest : List Term) (s : ProcState) :
    Quiet s (dispatchSpawn sys link source rest s) := by
  refine quiet_ofExcept _ fun name => quiet_otp _ fun started => ?_
  cases started with
  | ok pid =>
    cases link
    · rfl
    · exact quiet_otp _ fun _ => rfl
  | error reason => rfl

/-- Every clause but that of `receive` leaves the mailbox and the reply slot alone. -/
theorem quiet_dispatchHostCall (sys : Otp W) {fn : HostFn} (hfn : fn ≠ .receive) (args : List Term)
    (s : ProcState) : Quiet s (dispatchHostCall sys fn args s) := by
  unfold dispatchHostCall
  split
  -- send, self, spawn, spawn_link, receive
  · exact quiet_withPid fun pid => quiet_otp _ fun _ => rfl
  · rfl
  · exact quiet_dispatchSpawn ..
  · exact quiet_dispatchSpawn ..
  · exact absurd rfl hfn
  -- register, whereis, monitor, link, exit
  · exact quiet_otp _ fun _ => rfl
  · refine quiet_otp _ fun found => ?_
    cases found <;> rfl
  · exact quiet_withPid fun pid => quiet_otp _ fun ref => rfl
  · exact quiet_withPid fun pid => quiet_otp _ fun _ => rfl
  · exact quiet_otp _ fun _ => rfl
  -- call, cast, reply
  · refine quiet_withPid fun pid => quiet_otp _ fun result => ?_
    cases result <;> rfl
  · exact quiet_withPid fun pid => quiet_otp _ fun _ => rfl
  · split
    · split
      · refine quiet_otp _ fun sent => ?_
        cases sent <;> rfl
      · rfl
    · rfl
  -- start_gen_server, start_supervisor
  · refine quiet_ofExcept _ fun source => quiet_ofExcept _ fun className =>
      quiet_ofExcept _ fun json => quiet_ofExcept _ fun name => quiet_otp _ fun started => ?_
    cases started with
    | ok pid => exact quiet_ofExcept _ fun link => quiet_startedReply link pid s
    | error reason => rfl
  · refine quiet_otp _ fun started => ?_
    cases started with
    | ok pid => exact quiet_ofExcept _ fun link => quiet_startedReply link pid s
    | error reason => rfl
  -- log, task_async, task_await
  · exact quiet_otp _ fun _ => rfl
  · exact quiet_otp _ fun task => rfl
  · rfl
  -- agent_start, agent_get, agent_update, agent_stop
  · refine quiet_ofExcept _ fun name => quiet_otp _ fun started => ?_
    cases started <;> rfl
  · exact quiet_withPid fun pid => quiet_otp _ fun value => rfl
  · exact quiet_withPid fun pid => quiet_otp _ fun _ => rfl
  · exact quiet_withPid fun pid => quiet_otp _ fun _ => rfl
  -- any other name or number of arguments
  · exact quiet_otp _ fun _ => rfl

/-! ## The four cases of `handle_info` -/

theorem handleInfo_jsMessage_of_awaiting {s : ProcState} (h : s.awaitingReceive = true)
    (message : Term) :
    handleInfo sys (.jsMessage message) s =
      Callback.deliver message >>= fun _ => .ret { s with awaitingReceive := false } := by
  rw [handleInfo, if_pos h]
  rfl

theorem handleInfo_jsMessage_of_not_awaiting {s : ProcState} (h : ¬ s.awaitingReceive = true)
    (message : Term) :
    handleInfo sys (.jsMessage message) s = .ret { s with mailbox := s.mailbox ++ [message] } := by
  rw [handleInfo, if_neg h]
  rfl

theorem handleInfo_receive_cons {s : ProcState} {message : Term} {mailbox : List Term}
    (h : s.mailbox = message :: mailbox) (args : List Term) :
    handleInfo sys (.hostCall .receive args) s =
      Callback.deliver message >>= fun _ => .ret { s with mailbox := mailbox } := by
  rw [handleInfo, h]
  rfl

theorem handleInfo_receive_nil {s : ProcState} (h : s.mailbox = []) (args : List Term) :
    handleInfo sys (.hostCall .receive args) s = .ret { s with awaitingReceive := true } := by
  rw [handleInfo, h]
  rfl

theorem handleInfo_hostCall {fn : HostFn} (hfn : fn ≠ .receive) (args : List Term) (s : ProcState) :
    handleInfo sys (.hostCall fn args) s =
      dispatchHostCall sys fn args s >>= fun r => Callback.deliver r.1 >>= fun _ => .ret r.2 := by
  unfold handleInfo
  split
  · rename_i h
    cases h
  · rename_i h
    cases h
    exact absurd rfl hfn
  · rename_i h
    cases h
    rfl
  · rename_i h
    cases h
  · rename_i h
    cases h

/-- A host call other than `receive` gets its reply at once. -/
theorem run_hostCall {fn : HostFn} (hfn : fn ≠ .receive) {args : List Term} {s s' : ProcState}
    {h h' : HostSide W} (hrun : (handleInfo sys (.hostCall fn args) s).run hostOp h = (.ok s', h')) :
    s' = s ∧ h'.issued = h.issued ∧ h'.waiting = none ∧
      ∃ reply, h'.deliveries = h.deliveries ++ [⟨h.waiting, reply⟩] := by
  have hquiet := (quiet_dispatchHostCall sys hfn args s).run hostOp
    (I := fun g => g.issued = h.issued ∧ g.waiting = h.waiting ∧ g.deliveries = h.deliveries)
    (by
      intro β op g hop hg
      cases op with
      | otp f => exact hg
      | setGlobal name value => exact hop.elim
      | eval source filename => exact hop.elim
      | deliver reply => exact hop.elim)
    (s := h) ⟨rfl, rfl, rfl⟩
  rw [handleInfo_hostCall hfn, Program.run_bind] at hrun
  rcases hdisp : (dispatchHostCall sys fn args s).run hostOp h with ⟨r, g⟩
  rw [hdisp] at hquiet hrun
  obtain ⟨⟨hissued, hwaiting, hdel⟩, hres⟩ := hquiet
  cases r with
  | error e => cases hrun
  | ok r =>
    obtain ⟨reply, s1⟩ := r
    obtain rfl : s1 = s := hres _ rfl
    cases hrun
    exact ⟨rfl, hissued, rfl, reply, by rw [← hdel, ← hwaiting]⟩

/-! ## Sequences of messages -/

theorem mailboxSpec_start (opts : InitOpts) (world : W) : MailboxSpec (Mail.start sys opts world) where
  fifo := rfl
  awaiting := by simp [Mail.start, initialState]
  empty _ := rfl
  answered := rfl

/-- A message for a process that waits in `receive` is delivered to it. -/
theorem mailboxSpec_deliver {st : Mail W} (h : MailboxSpec st)
    (hawait : st.proc.awaitingReceive = true)
    (message : Term) :
    MailboxSpec { proc := { st.proc with awaitingReceive := false }
                  arrived := st.arrived ++ [message]
                  host := { st.host with
                    waiting := none
                    deliveries := st.host.deliveries ++ [⟨st.host.waiting, message⟩] } } := by
  have hwaiting := h.awaiting.mp hawait
  have hempty := h.empty hawait
  have hfifo := h.fifo
  have hanswered := h.answered
  rw [hempty, List.append_nil] at hfifo
  refine ⟨?_, by simp, by simp, ?_⟩
  · rw [Mail.received] at hfifo ⊢
    simp [hempty, hwaiting, hfifo]
  · simpa [hwaiting] using hanswered

/-- A message for a process that does not wait goes to the end of the mailbox. -/
theorem mailboxSpec_enqueue {st : Mail W} (h : MailboxSpec st)
    (hawait : st.proc.awaitingReceive = false) (message : Term) :
    MailboxSpec { proc := { st.proc with mailbox := st.proc.mailbox ++ [message] }
                  arrived := st.arrived ++ [message]
                  host := st.host } := by
  refine ⟨?_, h.awaiting, by simp [hawait], h.answered⟩
  have hfifo := h.fifo
  rw [Mail.received] at hfifo ⊢
  rw [← hfifo, List.append_assoc]

/-- A `receive` takes the first message of the mailbox. -/
theorem mailboxSpec_take {st : Mail W} (h : MailboxSpec st) (hwaiting : st.host.waiting = none)
    {message : Term} {mailbox : List Term} (hmail : st.proc.mailbox = message :: mailbox) :
    MailboxSpec { proc := { st.proc with mailbox := mailbox }
                  arrived := st.arrived
                  host := { st.host with
                    issued := st.host.issued ++ [.receive]
                    waiting := none
                    deliveries := st.host.deliveries ++ [⟨some .receive, message⟩] } } := by
  have hawait : ¬ st.proc.awaitingReceive = true := by simp [h.awaiting, hwaiting]
  have hfifo := h.fifo
  have hanswered := h.answered
  refine ⟨?_, by simpa using hawait, fun hw => absurd hw hawait, ?_⟩
  · rw [Mail.received, hmail] at hfifo
    simp [Mail.received, ← hfifo]
  · simpa [hwaiting] using hanswered

/-- A `receive` on an empty mailbox waits. -/
theorem mailboxSpec_await {st : Mail W} (h : MailboxSpec st) (hwaiting : st.host.waiting = none)
    (hmail : st.proc.mailbox = []) :
    MailboxSpec { proc := { st.proc with awaitingReceive := true }
                  arrived := st.arrived
                  host := { st.host with
                    issued := st.host.issued ++ [.receive]
                    waiting := some .receive } } := by
  have hanswered := h.answered
  refine ⟨h.fifo, by simp, fun _ => hmail, ?_⟩
  simpa [hwaiting] using hanswered

/-- Any other host call is answered and leaves the mailbox alone. -/
theorem mailboxSpec_other {st : Mail W} (h : MailboxSpec st) (hwaiting : st.host.waiting = none)
    {fn : HostFn} (hfn : fn ≠ .receive) {host : HostSide W} {reply : Term}
    (hissued : host.issued = st.host.issued ++ [fn]) (hw : host.waiting = none)
    (hdel : host.deliveries = st.host.deliveries ++ [⟨some fn, reply⟩]) :
    MailboxSpec { st with host := host } := by
  have hawait : ¬ st.proc.awaitingReceive = true := by simp [h.awaiting, hwaiting]
  have hfifo := h.fifo
  have hanswered := h.answered
  refine ⟨?_, by simpa [hw] using hawait, fun hw' => absurd hw' hawait, ?_⟩
  · rw [Mail.received] at hfifo ⊢
    simpa [hdel, hfn] using hfifo
  · simpa [hissued, hw, hdel, hwaiting] using hanswered

theorem mailboxSpec_step {st st' : Mail W} {event : MailEvent} (h : MailboxSpec st)
    (hst : handleEvent sys st event = some st') : MailboxSpec st' := by
  cases event with
  | jsMessage message =>
    by_cases hawait : st.proc.awaitingReceive = true
    · rw [handleEvent, handleInfo_jsMessage_of_awaiting hawait] at hst
      cases hst
      exact mailboxSpec_deliver h hawait message
    · rw [handleEvent, handleInfo_jsMessage_of_not_awaiting hawait] at hst
      cases hst
      exact mailboxSpec_enqueue h (by simpa using hawait) message
  | hostCall fn args =>
    rw [handleEvent] at hst
    split at hst
    · cases hst
    rename_i hnone
    have hwaiting : st.host.waiting = none := by simpa using hnone
    by_cases hfn : fn = .receive
    · subst hfn
      cases hmail : st.proc.mailbox with
      | nil =>
        rw [handleInfo_receive_nil hmail] at hst
        cases hst
        exact mailboxSpec_await h hwaiting hmail
      | cons message mailbox =>
        rw [handleInfo_receive_cons hmail] at hst
        cases hst
        exact mailboxSpec_take h hwaiting hmail
    · rcases hrun : (handleInfo sys (.hostCall fn args) st.proc).run hostOp
        { st.host with issued := st.host.issued ++ [fn], waiting := some fn } with ⟨r, host⟩
      rw [hrun] at hst
      cases r with
      | error e => cases hst
      | ok proc =>
        cases hst
        obtain ⟨rfl, hissued, hw, reply, hdel⟩ := run_hostCall hfn hrun
        exact mailboxSpec_other h hwaiting hfn hissued hw hdel

theorem mailboxSpec_events {st0 st : Mail W} {events : List MailEvent} (h : MailboxSpec st0)
    (hrun : handleEvents sys st0 events = some st) : MailboxSpec st := by
  induction events generalizing st0 with
  | nil =>
    cases hrun
    exact h
  | cons event events ih =>
    obtain ⟨st1, hst, hrun⟩ := Option.bind_eq_some_iff.mp hrun
    exact ih (mailboxSpec_step h hst) hrun

/-- After every sequence of messages, the mailbox is first-in first-out, lossless and free of
duplicates, and every host call has been answered once. -/
theorem mailbox_faithful (sys : Otp W) (opts : InitOpts) (world : W) (events : List MailEvent)
    {st : Mail W} (hrun : handleEvents sys (Mail.start sys opts world) events = some st) :
    MailboxSpec st :=
  mailboxSpec_events (mailboxSpec_start opts world) hrun

/-- A `receive` before the messages, one after them, and another host call in between. -/
def sampleEvents : List MailEvent :=
  [.hostCall .receive [], .jsMessage (.int 1), .jsMessage (.int 2), .hostCall .self [],
    .jsMessage (.int 3), .hostCall .receive []]

theorem mailbox_faithful_sample :
    ∃ st, handleEvents loneOtp (Mail.start loneOtp ⟨none, none, none⟩ ()) sampleEvents = some st ∧
      st.received = [.int 1, .int 2] ∧ MailboxSpec st :=
  ⟨_, rfl, rfl, mailbox_faithful loneOtp ⟨none, none, none⟩ () sampleEvents rfl⟩

end BeamJS
