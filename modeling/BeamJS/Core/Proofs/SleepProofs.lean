import BeamJS.Core.Sleep
import BeamJS.Core.Proofs.MailboxProofs

/-!
# Proofs: `sleep` and `receive`

The host calls are answered in the order of the calls of the program, so each reply is the result of
one call. Every step adds at most one result, and it is that of a `sleep` exactly if the step
disturbs one.
-/

namespace BeamJS

open Lib

section Sleeper

variable {W : Type} {sys : Otp W}

/-- The host calls are those of the program, and the mailbox is faithful. -/
structure Aligned (st : Sleeper W) : Prop where
  mail : MailboxSpec st.mail
  issued : st.mail.host.issued = st.calls.map ProgramCall.fn

theorem Aligned.length {st : Sleeper W} (h : Aligned st) :
    st.mail.host.deliveries.length + st.mail.host.waiting.toList.length = st.calls.length := by
  have hlen := congrArg List.length h.mail.answered
  rw [h.issued] at hlen
  simpa using hlen

/-- The results after a step, next to those before it. -/
structure Gains (st st' : Sleeper W) (event : SleepEvent) (new : List (ProgramCall × Term)) :
    Prop where
  aligned : Aligned st'
  returned : st'.returned = st.returned ++ new
  undisturbed : Undisturbed st event ↔ ∀ r ∈ new, r.1.isSleep = false

/-! ## The steps -/

/-- A message for a call that waits. -/
theorem gains_deliver {st : Sleeper W} (h : Aligned st)
    (hawait : st.mail.proc.awaitingReceive = true) (message : Term) {mail : Mail W}
    (hst : handleEvent sys st.mail (.jsMessage message) = some mail) :
    ∃ call, Gains st { st with mail } (.arrives message) [(call, message)] := by
  have hspec := mailboxSpec_step h.mail hst
  rw [handleEvent, handleInfo_jsMessage_of_awaiting hawait] at hst
  cases hst
  have hwaiting := h.mail.awaiting.mp hawait
  have hlen := h.length
  rw [hwaiting] at hlen
  have hne : st.calls ≠ [] := by
    intro hnil
    rw [hnil] at hlen
    simp at hlen
  obtain ⟨calls, call, hcalls⟩ := (List.eq_nil_or_concat st.calls).resolve_left hne
  rw [List.concat_eq_append] at hcalls
  have hzip : calls.length = (st.mail.host.deliveries.map Delivery.reply).length := by
    rw [hcalls] at hlen
    simp at hlen
    simp [hlen]
  refine ⟨call, ⟨hspec, h.issued⟩, ?_, ?_⟩
  · show st.calls.zip ((st.mail.host.deliveries ++ [_]).map Delivery.reply) =
      st.calls.zip (st.mail.host.deliveries.map Delivery.reply) ++ [(call, message)]
    have hbefore : st.calls.zip (st.mail.host.deliveries.map Delivery.reply) =
        calls.zip (st.mail.host.deliveries.map Delivery.reply) := by
      have happ : (calls ++ [call]).zip (st.mail.host.deliveries.map Delivery.reply ++ []) =
          calls.zip (st.mail.host.deliveries.map Delivery.reply) ++ [call].zip [] :=
        List.zip_append hzip
      rwa [List.append_nil, List.zip_nil_right, List.append_nil, ← hcalls] at happ
    rw [hbefore, hcalls, List.map_append, List.zip_append hzip]
    rfl
  · have hasleep : st.asleep = call.isSleep := by
      rw [Sleeper.asleep, hawait, hcalls]
      simp
    simp [Undisturbed, hasleep]

/-- A message for a process that does not wait. -/
theorem gains_enqueue {st : Sleeper W} (h : Aligned st)
    (hawait : ¬ st.mail.proc.awaitingReceive = true) (message : Term) {mail : Mail W}
    (hst : handleEvent sys st.mail (.jsMessage message) = some mail) :
    Gains st { st with mail } (.arrives message) [] := by
  have hspec := mailboxSpec_step h.mail hst
  rw [handleEvent, handleInfo_jsMessage_of_not_awaiting hawait] at hst
  cases hst
  refine ⟨⟨hspec, h.issued⟩, (List.append_nil _).symm, ?_⟩
  have hasleep : st.asleep = false := by
    rw [Sleeper.asleep, Bool.eq_false_iff.mpr hawait, Bool.false_and]
  simp [Undisturbed, hasleep]

/-- The results after one more call, with or without a reply. -/
theorem returned_call {st : Sleeper W} (h : Aligned st) (hwaiting : st.mail.host.waiting = none)
    (call : ProgramCall) {mail : Mail W} (replies : List Delivery)
    (hdel : mail.host.deliveries = st.mail.host.deliveries ++ replies) :
    Sleeper.returned ⟨mail, st.calls ++ [call]⟩ =
      st.returned ++ [call].zip (replies.map Delivery.reply) := by
  have hlen := h.length
  rw [hwaiting] at hlen
  show (st.calls ++ [call]).zip (mail.host.deliveries.map Delivery.reply) = _
  rw [hdel, List.map_append, List.zip_append (by simpa using hlen.symm)]
  rfl

/-- A call of the program. -/
theorem gains_call {st : Sleeper W} (h : Aligned st) (call : ProgramCall) {mail : Mail W}
    (hst : handleEvent sys st.mail (.hostCall call.fn call.args) = some mail) :
    ∃ new, Gains st ⟨mail, st.calls ++ [call]⟩ (.calls call) new := by
  have hspec := mailboxSpec_step h.mail hst
  rw [handleEvent] at hst
  split at hst
  · cases hst
  rename_i hnone
  have hwaiting : st.mail.host.waiting = none := by simpa using hnone
  by_cases hfn : call.fn = .receive
  · rw [hfn] at hst
    have hissued : st.mail.host.issued ++ [.receive] =
        (st.calls ++ [call]).map ProgramCall.fn := by
      rw [h.issued, List.map_append, List.map_singleton, hfn]
    cases hmail : st.mail.proc.mailbox with
    | nil =>
      rw [handleInfo_receive_nil hmail] at hst
      cases hst
      refine ⟨[], ⟨hspec, hissued⟩, returned_call h hwaiting call [] (by simp), ?_⟩
      cases call <;> simp [Undisturbed, hmail]
    | cons message mailbox =>
      rw [handleInfo_receive_cons hmail] at hst
      cases hst
      refine ⟨[(call, message)], ⟨hspec, hissued⟩,
        returned_call h hwaiting call [⟨some .receive, message⟩] rfl, ?_⟩
      cases call <;> simp [Undisturbed, hmail, ProgramCall.isSleep]
  · rcases hrun : (handleInfo sys (.hostCall call.fn call.args) st.mail.proc).run hostOp
      { st.mail.host with
        issued := st.mail.host.issued ++ [call.fn], waiting := some call.fn } with ⟨r, host⟩
    rw [hrun] at hst
    cases r with
    | error e => cases hst
    | ok proc =>
      cases hst
      obtain ⟨rfl, hissued, -, reply, hdel⟩ := run_hostCall hfn hrun
      refine ⟨[(call, reply)], ⟨hspec, ?_⟩,
        returned_call h hwaiting call [⟨some call.fn, reply⟩] hdel, ?_⟩
      · show host.issued = _
        rw [hissued, h.issued, List.map_append, List.map_singleton]
      · cases call with
        | receive timeout => exact absurd rfl hfn
        | sleep ms => exact absurd rfl hfn
        | other fn hne args => simp [Undisturbed, ProgramCall.isSleep]

/-- Every step gains some results. -/
theorem gains_step {st st' : Sleeper W} {event : SleepEvent} (h : Aligned st)
    (hst : st.step sys event = some st') : ∃ new, Gains st st' event new := by
  cases event with
  | arrives message =>
    obtain ⟨mail, hmail, rfl⟩ := Option.map_eq_some_iff.mp hst
    by_cases hawait : st.mail.proc.awaitingReceive = true
    · obtain ⟨call, hgain⟩ := gains_deliver h hawait message hmail
      exact ⟨_, hgain⟩
    · exact ⟨_, gains_enqueue h hawait message hmail⟩
  | calls call =>
    obtain ⟨mail, hmail, rfl⟩ := Option.map_eq_some_iff.mp hst
    exact gains_call h call hmail

/-! ## The runs -/

theorem aligned_init {st : Sleeper W} (h : (sleeperLts sys).init st) : Aligned st := by
  obtain ⟨opts, world, rfl⟩ := h
  exact ⟨mailboxSpec_start opts world, rfl⟩

theorem returned_init {st : Sleeper W} (h : (sleeperLts sys).init st) : st.returned = [] := by
  obtain ⟨opts, world, rfl⟩ := h
  rfl

/-- The results of a run are those of `sleep` calls exactly where a step disturbed one. -/
theorem run_undisturbed {st₀ st : Sleeper W} {tr : List (Sleeper W × SleepEvent)}
    (hinit : (sleeperLts sys).init st₀) (hrun : (sleeperLts sys).Run st₀ tr st) :
    Aligned st ∧
      ((∀ e ∈ tr, Undisturbed e.1 e.2) ↔ ∀ r ∈ st.returned, r.1.isSleep = false) := by
  induction hrun with
  | nil =>
    rw [returned_init hinit]
    exact ⟨aligned_init hinit, by simp⟩
  | @snoc s t tr event hrun hst ih =>
    obtain ⟨haligned, hiff⟩ := ih
    obtain ⟨new, hgain⟩ := gains_step haligned hst
    refine ⟨hgain.aligned, ?_⟩
    rw [hgain.returned, List.forall_mem_append, List.forall_mem_append, List.forall_mem_singleton,
      hiff, hgain.undisturbed]

/-- The replies to the host call `receive` are the results of the calls that make it. -/
theorem received_eq {deliveries : List Delivery} {calls : List ProgramCall}
    {waiting : Option HostFn} (h : deliveries.map Delivery.call ++ waiting.toList.map some =
      calls.map fun call => some call.fn) :
    ((calls.zip (deliveries.map Delivery.reply)).filter fun r => r.1.fn = .receive).map Prod.snd =
      (deliveries.filter fun d => d.call = some .receive).map Delivery.reply := by
  induction deliveries generalizing calls with
  | nil => simp
  | cons d deliveries ih =>
    cases calls with
    | nil => simp at h
    | cons call calls =>
      rw [List.map_cons, List.cons_append, List.map_cons, List.cons_eq_cons] at h
      have htail := ih h.2
      by_cases hfn : call.fn = .receive
      · simp [h.1, hfn, htail]
      · simp [h.1, hfn, htail]

/-- Where no `sleep` got a message, the messages are kept. -/
theorem keepsMessages_iff {st : Sleeper W} (h : Aligned st) :
    st.KeepsMessages ↔ ∀ r ∈ st.returned, r.1.isSleep = false := by
  refine ⟨fun hk => hk.sleeps, fun hs => ⟨?_, hs⟩⟩
  have hanswered := h.mail.answered
  rw [h.issued, List.map_map] at hanswered
  have hreceived := received_eq hanswered
  have hfilter : (st.returned.filter fun r => r.1.isReceive) =
      st.returned.filter fun r => r.1.fn = .receive := by
    refine List.filter_congr fun r hr => ?_
    have hsleep := hs r hr
    rcases r with ⟨call, reply⟩
    cases call with
    | receive timeout => rfl
    | sleep ms => cases hsleep
    | other fn hne args => exact (decide_eq_false hne).symm
  rw [hfilter, Sleeper.returned, hreceived]
  exact h.mail.fifo

/-- After every run, `sleep` has not eaten a message exactly if no step disturbed it: it was called
on an empty mailbox only, and nothing arrived while it waited. -/
theorem sleep_keeps_iff (sys : Otp W) {st₀ st : Sleeper W} {tr : List (Sleeper W × SleepEvent)}
    (hinit : (sleeperLts sys).init st₀) (hrun : (sleeperLts sys).Run st₀ tr st) :
    st.KeepsMessages ↔ ∀ e ∈ tr, Undisturbed e.1 e.2 := by
  obtain ⟨haligned, hiff⟩ := run_undisturbed hinit hrun
  rw [keepsMessages_iff haligned, hiff]

end Sleeper

/-- A process alone in its system, after `init`. -/
def loneSleeper : Sleeper Unit := ⟨Mail.start loneOtp ⟨none, none, none⟩ (), []⟩

theorem loneSleeper_init : (sleeperLts loneOtp).init loneSleeper := ⟨_, _, rfl⟩

/-- What a process alone executes is a run. -/
theorem loneSleeper_run (events : List SleepEvent) {st : Sleeper Unit}
    (h : Lts.exec (fun event st => st.step loneOtp event) events loneSleeper = some st) :
    ∃ tr, tr.map Prod.snd = events ∧ (sleeperLts loneOtp).Run loneSleeper tr st :=
  Lts.Run.of_exec (fun _ _ _ hst => hst) h

/-- A `receive` that waits, its message, and a `sleep` after it. -/
theorem sleep_keeps_sample :
    ∃ tr st, tr.map Prod.snd =
        [.calls (.receive (.int 0)), .arrives (.int 1), .calls (.sleep (.int 100))] ∧
      (sleeperLts loneOtp).Run loneSleeper tr st ∧
      (st.KeepsMessages ↔ ∀ e ∈ tr, Undisturbed e.1 e.2) := by
  obtain ⟨tr, htr, hrun⟩ := loneSleeper_run
    [.calls (.receive (.int 0)), .arrives (.int 1), .calls (.sleep (.int 100))] rfl
  exact ⟨tr, _, htr, hrun, sleep_keeps_iff loneOtp loneSleeper_init hrun⟩

/-- A message arrives, and `sleep(100)` returns it. -/
theorem sleep_eats_message :
    ∃ tr st, tr.map Prod.snd = [.arrives (.int 1), .calls (.sleep (.int 100))] ∧
      (sleeperLts loneOtp).Run loneSleeper tr st ∧
      st.returned = [(.sleep (.int 100), .int 1)] ∧ ¬ st.KeepsMessages := by
  obtain ⟨tr, htr, hrun⟩ := loneSleeper_run
    [.arrives (.int 1), .calls (.sleep (.int 100))] rfl
  refine ⟨tr, _, htr, hrun, rfl, fun h => ?_⟩
  cases h.sleeps (.sleep (.int 100), .int 1) List.mem_cons_self

end BeamJS
