import BeamJS.Core.InfoDispatch
import BeamJS.Core.Proofs.MailboxProofs

/-!
# Proofs: messages for a GenServer

The callbacks for calls and casts evaluate two programs only, and the clause for plain messages
none. So no run calls `__genserver_handle_info`, and a run is right exactly if no message arrives in
it.
-/

namespace BeamJS

open Lib JsValue

section Server

variable {W : Type} {sys : Otp W} {programs : DispatchPrograms W}

/-- An operation on the context that evaluates no other program than those of `handle_call` and
`handle_cast`. -/
def Op.isServing {α : Type} : Op W α → Prop
  | .otp _ => False
  | .eval source _ => source = callSource ∨ source = castSource
  | _ => True

/-- A callback of such operations. -/
abbrev Serving {α : Type} (m : Callback W α) : Prop := m.All Op.isServing fun _ => True

theorem serving_keepState (newState : Term) (s : ProcState) {f : ProcState → Callback W Outcome}
    (h : ∀ s, Serving (f s)) : Serving (keepState newState s >>= f) :=
  ⟨trivial, fun _ => h _⟩

theorem serving_callOutcome (result : Term) (s : ProcState) :
    Serving (callOutcome result s : Callback W Outcome) := by
  unfold callOutcome
  split
  · split
    · exact serving_keepState _ _ fun _ => trivial
    · exact serving_keepState _ _ fun _ => trivial
    · trivial
    · split
      · trivial
      · trivial
    · trivial
  · trivial
  · trivial

theorem serving_castOutcome (result : Term) (s : ProcState) :
    Serving (castOutcome result s : Callback W Outcome) := by
  unfold castOutcome
  split
  · split
    · exact serving_keepState _ _ fun _ => trivial
    · trivial
    · trivial
  · trivial

/-- The callbacks for calls and casts. -/
theorem serving_requestCallback (sys : Otp W) (caller : Option Term) (request : Term)
    (s : ProcState) : Serving (requestCallback sys caller request s) := by
  cases caller with
  | some caller =>
    exact ⟨trivial, fun _ => ⟨trivial, fun _ => ⟨.inl rfl, fun t => serving_callOutcome t s⟩⟩⟩
  | none => exact ⟨trivial, fun _ => ⟨.inr rfl, fun t => serving_castOutcome t s⟩⟩

/-- The clause for plain messages. -/
theorem serving_jsMessage (sys : Otp W) (message : Term) (s : ProcState) :
    Serving (handleInfo sys (.jsMessage message) s) := by
  by_cases h : s.awaitingReceive = true
  · rw [handleInfo_jsMessage_of_awaiting h]
    exact ⟨trivial, fun _ => trivial⟩
  · rw [handleInfo_jsMessage_of_not_awaiting h]
    trivial

/-- No message was passed to `__genserver_handle_info`. -/
def Unhandled (c : DispatchContext W) : Prop :=
  c.invoked.filterMap (fun i => i.call.message?) = []

theorem unhandled_op {ord : MapOrder} {α : Type} (op : Op W α) {c : DispatchContext W}
    (hop : op.isServing) (h : Unhandled c) : Unhandled (DispatchContext.op ord programs op c).2 := by
  have hinvoke {call : MethodCall} {run : MethodRun} (hcall : call.message? = none) :
      Unhandled (c.invoke ord call run).2 := by
    rw [Unhandled] at h
    simp [Unhandled, DispatchContext.invoke, h, hcall]
  cases op with
  | otp f => exact hop.elim
  | setGlobal name value => exact h
  | deliver reply => exact h
  | eval source filename =>
    rcases hop with hs | hs
    · rw [DispatchContext.op, if_pos hs]
      exact hinvoke rfl
    · rw [DispatchContext.op, if_neg (hs ▸ castSource_ne_callSource), if_pos hs]
      exact hinvoke rfl

theorem unhandled_run (ord : MapOrder) (programs : DispatchPrograms W) {α : Type} {m : Callback W α}
    (hm : Serving m)
    {c : DispatchContext W} (h : Unhandled c) :
    Unhandled (m.run (DispatchContext.op ord programs) c).2 :=
  (hm.run (I := Unhandled) (DispatchContext.op ord programs)
    (fun op _ hop hc => unhandled_op op hop hc) h).1

/-- A step passes no message on, and a message has arrived exactly if the step is one. -/
theorem unhandled_step {st st' : InfoServer W} {event : ServerEvent} (h : Unhandled st.context)
    (hst : st.step sys programs event = some st') :
    Unhandled st'.context ∧ (st'.arrived = [] ↔ st.arrived = [] ∧ event.isRequest = true) := by
  cases event with
  | request caller request =>
    have hrun := unhandled_run sys.maps programs
      (serving_requestCallback sys caller request st.proc) h
    rw [InfoServer.step] at hst
    split at hst
    · rename_i reply proc context heq
      cases hst
      rw [heq] at hrun
      exact ⟨hrun, by simp [ServerEvent.isRequest]⟩
    · rename_i proc context heq
      cases hst
      rw [heq] at hrun
      exact ⟨hrun, by simp [ServerEvent.isRequest]⟩
    · cases hst
    · cases hst
  | message message =>
    have hrun := unhandled_run sys.maps programs
      (serving_jsMessage sys message st.proc) h
    rw [InfoServer.step] at hst
    split at hst
    · rename_i proc context heq
      cases hst
      rw [heq] at hrun
      exact ⟨hrun, by simp [ServerEvent.isRequest]⟩
    · cases hst

theorem unhandled_runs {st₀ st : InfoServer W} {tr : List (InfoServer W × ServerEvent)}
    (hinit : (infoLts sys programs).init st₀) (hrun : (infoLts sys programs).Run st₀ tr st) :
    Unhandled st.context ∧ (st.arrived = [] ↔ ∀ e ∈ tr, e.2.isRequest = true) := by
  induction hrun with
  | nil => exact ⟨by rw [Unhandled, hinit.1]; rfl, by simp [hinit.2]⟩
  | @snoc s t tr event hrun hst ih =>
    obtain ⟨hnone, hiff⟩ := ih
    obtain ⟨hnone', hiff'⟩ := unhandled_step hnone hst
    refine ⟨hnone', ?_⟩
    rw [hiff', hiff, List.forall_mem_append, List.forall_mem_singleton]

/-- Where `__genserver_handle_info` was not called, it was called for nothing that arrived. -/
theorem dispatches_iff {st : InfoServer W} (h : Unhandled st.context) :
    st.Dispatches ↔ st.arrived = [] := by
  constructor
  · intro hd
    have honce := hd.once
    rw [InfoServer.handled, h] at honce
    exact List.forall₂_nil_left_iff.mp honce
  · intro harrived
    have hnot : ∀ i ∈ st.context.invoked, i.call.message?.isSome = true → False := by
      intro i hi hsome
      obtain ⟨v, hv⟩ := Option.isSome_iff_exists.mp hsome
      have hmem : v ∈ st.context.invoked.filterMap fun i => i.call.message? :=
        List.mem_filterMap.mpr ⟨i, hi, hv⟩
      rw [h] at hmem
      cases hmem
    refine ⟨?_, fun i hi hsome => (hnot i hi hsome).elim, ?_⟩
    · rw [InfoServer.handled, h, harrived]
      exact .nil
    · refine List.isChain_iff_forall_rel_of_append_cons_cons.mpr ?_
      intro i j l₁ l₂ hl state hsome
      exact (hnot i (by rw [hl]; simp) hsome).elim

/-- After every run, the messages have reached `__genserver_handle_info` exactly if there was none.
-/
theorem messages_dispatched_iff (sys : Otp W) (programs : DispatchPrograms W)
    {st₀ st : InfoServer W}
    {tr : List (InfoServer W × ServerEvent)} (hinit : (infoLts sys programs).init st₀)
    (hrun : (infoLts sys programs).Run st₀ tr st) :
    st.Dispatches ↔ ∀ e ∈ tr, e.2.isRequest = true := by
  obtain ⟨hnone, hiff⟩ := unhandled_runs hinit hrun
  rw [dispatches_iff hnone, hiff]

end Server

/-- A program whose handlers keep the state. -/
def idlePrograms : DispatchPrograms Unit where
  methods :=
    { handleCall := fun _ _ state => ⟨.ok (.tree .undefined), state⟩
      handleCast := fun _ state => ⟨.ok (.tree .undefined), state⟩ }
  others _ c := (.error (.atom "undef"), c)

/-- A process that serves the program, before the first event. -/
def idleServer : InfoServer Unit where
  proc := initialState loneOtp ⟨none, none, none⟩
  context :=
    { context :=
        { world := (), known := [], state := .tree .null, pendingCallFrom := .undefined,
          pendingCallRequest := .undefined, pendingCastRequest := .undefined }
      invoked := [] }
  arrived := []

/-- What the process executes is a run. -/
theorem idleServer_run (events : List ServerEvent) {st : InfoServer Unit}
    (h : Lts.exec (fun event st => st.step loneOtp idlePrograms event) events idleServer = some st) :
    ∃ tr, tr.map Prod.snd = events ∧ (infoLts loneOtp idlePrograms).Run idleServer tr st :=
  Lts.Run.of_exec (fun _ _ _ hst => hst) h

/-- Two messages for the process. -/
theorem messages_dispatched_sample :
    ∃ tr st, tr.map Prod.snd = [.message (.int 1), .message (.int 2)] ∧
      (infoLts loneOtp idlePrograms).Run idleServer tr st ∧
      (st.Dispatches ↔ ∀ e ∈ tr, e.2.isRequest = true) := by
  obtain ⟨tr, htr, hrun⟩ := idleServer_run [.message (.int 1), .message (.int 2)] rfl
  exact ⟨tr, _, htr, hrun, messages_dispatched_iff loneOtp idlePrograms ⟨rfl, rfl⟩ hrun⟩

/-- A message is put into the mailbox, where it stays, and no method is called. -/
theorem message_not_dispatched :
    ∃ tr st, tr.map Prod.snd = [.message (.int 1)] ∧
      (infoLts loneOtp idlePrograms).Run idleServer tr st ∧
      st.context.invoked.length = 0 ∧ st.proc.mailbox = [.int 1] ∧ ¬ st.Dispatches := by
  obtain ⟨tr, htr, hrun⟩ := idleServer_run [.message (.int 1)] rfl
  refine ⟨tr, _, htr, hrun, rfl, rfl, fun h => ?_⟩
  cases h.once

end BeamJS
