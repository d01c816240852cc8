import BeamJS.Core.System

/-!
# Proofs: the evaluation and its owner wait for each other

Until an evaluation sends a request, nobody delivers a reply: the messages for `handle_info` come
from other processes, and none of them makes it call `deliver_host_reply`. So the first request
finds the slot empty and its owner inside `BeamjsNif.eval`, and there both of them stay.
-/

namespace BeamJS

open Lib

variable {W E G : Type} {sys : Otp W} {engine : Engine E G}

/-! ## Callbacks that deliver nothing -/

/-- Any operation but `deliver_host_reply`. -/
def Op.isQuiet {α : Type} : Op W α → Prop
  | .deliver _ => False
  | _ => True

/-- Work that delivers no reply, and after which the process awaits no `receive`. -/
abbrev QuietWork (work : Callback W (Option ProcState)) : Prop :=
  work.All Op.isQuiet fun o => ∀ s ∈ o, s.awaitingReceive = false

/-- A callback that delivers no reply. -/
abbrev Undelivering {α : Type} (m : Callback W α) (Q : α → Prop) : Prop := m.All Op.isQuiet Q

/-- The outcome leaves a process that awaits no `receive`. -/
def Outcome.calm (o : Outcome) : Prop := ∀ s ∈ o.next, s.awaitingReceive = false

theorem calm_reply {s : ProcState} (h : s.awaitingReceive = false) (t : Term) :
    (Outcome.reply t s).calm := by
  rintro _ ⟨⟩
  exact h

theorem calm_noreply {s : ProcState} (h : s.awaitingReceive = false) : (Outcome.noreply s).calm := by
  rintro _ ⟨⟩
  exact h

theorem calm_stop (reason : Term) (t : Option Term) (s : ProcState) :
    (Outcome.stop reason t s).calm := by
  rintro _ ⟨⟩

theorem undelivering_keepState {s : ProcState} (h : s.awaitingReceive = false) (t : Term)
    {f : ProcState → Outcome} (hf : ∀ s : ProcState, s.awaitingReceive = false → (f s).calm) :
    Undelivering (W := W) (keepState t s >>= fun s => .ret (f s)) Outcome.calm :=
  ⟨trivial, fun _ => hf { s with jsState := t } h⟩

theorem undelivering_callOutcome {s : ProcState} (h : s.awaitingReceive = false) (result : Term) :
    Undelivering (W := W) (callOutcome result s) Outcome.calm := by
  unfold callOutcome
  split
  · split
    · exact undelivering_keepState h _ fun s hs => calm_reply hs _
    · exact undelivering_keepState h _ fun s hs => calm_noreply hs
    · exact calm_stop _ _ _
    · split
      · exact calm_reply h _
      · trivial
    · trivial
  · exact calm_reply h _
  · trivial

theorem undelivering_castOutcome {s : ProcState} (h : s.awaitingReceive = false) (result : Term) :
    Undelivering (W := W) (castOutcome result s) Outcome.calm := by
  unfold castOutcome
  split
  · split
    · exact undelivering_keepState h _ fun s hs => calm_noreply hs
    · exact calm_stop _ _ _
    · exact calm_noreply h
  · exact calm_noreply h

theorem undelivering_handleCall {s : ProcState} (h : s.awaitingReceive = false) (request : Request)
    (caller : Term) : Undelivering (handleCall sys request caller s) Outcome.calm := by
  cases request with
  | eval source => exact ⟨trivial, fun result => calm_reply h result⟩
  | jsCall request =>
    exact ⟨trivial, fun _ => ⟨trivial, fun _ => ⟨trivial, undelivering_callOutcome h⟩⟩⟩

theorem undelivering_handleCast {s : ProcState} (h : s.awaitingReceive = false) (request : Term) :
    Undelivering (W := W) (handleCast request s) Outcome.calm :=
  ⟨trivial, fun _ => ⟨trivial, undelivering_castOutcome h⟩⟩

/-- A message that does not come from the NIF delivers nothing. -/
theorem quietWork_handle {s : ProcState} (h : s.awaitingReceive = false) {m : Message}
    (hm : m.fromNif = false) : QuietWork (m.handle sys s) := by
  cases m with
  | call request caller => exact (undelivering_handleCall h request caller).bind fun o ho => ho
  | cast request => exact (undelivering_handleCast h request).bind fun o ho => ho
  | info i =>
    cases i with
    | jsMessage message =>
      simp only [Message.handle, handleInfo, h]
      rintro _ ⟨⟩
      rfl
    | other message =>
      rintro _ ⟨⟩
      exact h
    | hostCall fn args => cases hm
    | loadModule name => cases hm

theorem quietWork_none {α : Type} {m : Callback W α} {Q : α → Prop} (h : Undelivering m Q) :
    QuietWork (m >>= fun _ => .ret none) := by
  refine h.bind fun a _ => ?_
  rintro _ ⟨⟩

theorem undelivering_eval {α : Type} {source filename : Bytes} {f : Term → Callback W α}
    {Q : α → Prop} (h : ∀ t, Undelivering (f t) Q) :
    Undelivering (Callback.eval source filename >>= f) Q := ⟨trivial, h⟩

theorem undelivering_init (opts : InitOpts) :
    Undelivering (init sys opts) fun r => ∀ s, r = .ok s → s.awaitingReceive = false := by
  simp only [init]
  split
  · refine undelivering_eval fun result => ?_
    split
    · rintro _ ⟨⟩
      rfl
    · refine ⟨trivial, fun _ => ?_⟩
      rintro _ ⟨⟩
    · trivial
  · rintro _ ⟨⟩
    rfl

theorem undelivering_taskBody (source : Bytes) :
    Undelivering (W := W) (taskBody source) fun _ => True := by
  refine undelivering_eval fun result => ?_
  split <;> trivial

theorem undelivering_agentUpdateBody (fnSource : Bytes) (current : Term) :
    Undelivering (W := W) (agentUpdateBody fnSource current) fun _ => True := by
  refine ⟨trivial, fun _ => undelivering_eval fun result => ?_⟩
  split <;> trivial

theorem quietWork_entry (entry : Entry) : QuietWork (entry.work sys) := by
  cases entry with
  | process opts =>
    refine (undelivering_init opts).bind fun r hr => ?_
    cases r with
    | ok s =>
      rintro _ ⟨⟩
      exact hr s rfl
    | error reason =>
      rintro _ ⟨⟩
  | evalSync source filename => exact quietWork_none (Q := fun _ => True) ⟨trivial, fun _ => trivial⟩
  | task source => exact quietWork_none (undelivering_taskBody source)
  | agentUpdate fnSource current => exact quietWork_none (undelivering_agentUpdateBody ..)

/-! ## Before the first request -/

/-- The owner is inside `BeamjsNif.eval` exactly while an evaluation runs, and what it does next
delivers no reply. -/
inductive Together : Owner W → Phase E → Prop
  | looping {s : ProcState} (h : s.awaitingReceive = false) : Together (.looping s) .idle
  | running {work : Work W} (h : QuietWork work) : Together (.running work) .idle
  | evaluating {resume : Term → Work W} (h : ∀ t, QuietWork (resume t)) (e : E) :
    Together (.evaluating resume) (.running e)
  | gone : Together .gone .idle

/-- No request has been sent. -/
structure Unasked (x : System W E G) : Prop where
  no_reply : x.eval.slot.ready = false
  external : ∀ m ∈ x.inbox, m.fromNif = false
  together : Together x.owner x.eval.phase

theorem Unasked.start (entry : Entry) (world : W) : Unasked (System.start sys engine entry world) where
  no_reply := rfl
  external := by simp [System.start]
  together := .running (quietWork_entry entry)

theorem Unasked.not_deadlock {x : System W E G} (h : Unasked x) : ¬ Deadlock x := by
  rintro ⟨hwait, _, heval⟩
  have htogether := h.together
  rcases x with ⟨owner, world, inbox, globals, ⟨phase, loaders, slot⟩⟩
  cases htogether <;> cases hwait

/-- The callback takes a step. -/
theorem unasked_workStep {x y : System W E G} {work : Work W} (hno : x.eval.slot.ready = false)
    (hext : ∀ m ∈ x.inbox, m.fromNif = false) (hidle : x.eval.phase = .idle)
    (hwork : QuietWork work) (hst : workStep engine x work = some y) : Unasked y := by
  cases work with
  | ret o =>
    cases o with
    | none =>
      cases hst
      exact ⟨hno, hext, hidle ▸ .gone⟩
    | some s =>
      cases hst
      exact ⟨hno, hext, hidle ▸ .looping (hwork s rfl)⟩
  | raise e =>
    cases hst
    exact ⟨hno, hext, hidle ▸ .gone⟩
  | perform op next =>
    cases op with
    | otp f =>
      simp only [workStep] at hst
      rcases hf : f x.world with ⟨r, world⟩
      rw [hf] at hst
      cases r with
      | ok a =>
        cases hst
        exact ⟨hno, hext, hidle ▸ .running (hwork.2 a)⟩
      | error e =>
        cases hst
        exact ⟨hno, hext, hidle ▸ .gone⟩
    | setGlobal name value =>
      cases hst
      exact ⟨hno, hext, hidle ▸ .running (hwork.2 ())⟩
    | eval source filename =>
      cases hst
      exact ⟨hno, hext, .evaluating hwork.2 _⟩
    | deliver reply => exact absurd hwork.1 id

/-- A step of the thread that sends no request. -/
theorem unasked_thread {x y : System W E G} (h : Unasked x) (hreq : ¬ Requesting engine x)
    (hst : systemStep sys engine .thread x = some y) : Unasked y := by
  obtain ⟨hno, hext, htogether⟩ := h
  rcases x with ⟨owner, world, inbox, globals, ⟨phase, loaders, slot⟩⟩
  simp only at hno hext htogether
  cases htogether with
  | looping | running | gone => simp [systemStep, threadStep] at hst
  | @evaluating resume hresume e =>
    cases hn : engine.next e with
    | compute e' =>
      simp [systemStep, threadStep, requestOf, hn] at hst
      subst hst
      exact ⟨hno, hext, .evaluating hresume e'⟩
    | request r =>
      refine absurd ?_ hreq
      simp [Requesting, requestOf, hn]
    | loaded e' =>
      cases loaders with
      | zero => simp [systemStep, threadStep, hn] at hst
      | succ loaders =>
        simp [systemStep, threadStep, requestOf, hn] at hst
        subst hst
        exact ⟨rfl, hext, .evaluating hresume e'⟩
    | done result globals => simp [systemStep, threadStep, hn] at hst

/-- A step that is no request. -/
theorem unasked_step {x y : System W E G} {act : SystemAct} (h : Unasked x)
    (hreq : ¬ (act = .thread ∧ Requesting engine x))
    (hst : systemStep sys engine act x = some y) : Unasked y := by
  cases act with
  | arrive m =>
    simp only [systemStep] at hst
    cases hm : m.fromNif with
    | true => simp [hm] at hst
    | false =>
      simp only [hm, Bool.false_eq_true, if_false, Option.some.injEq] at hst
      subst hst
      refine ⟨h.no_reply, fun m' hmem => ?_, h.together⟩
      rcases List.mem_append.mp hmem with hmem | hmem
      · exact h.external m' hmem
      · rw [List.mem_singleton.mp hmem]
        exact hm
  | take =>
    obtain ⟨hno, hext, htogether⟩ := h
    rcases x with ⟨owner, world, inbox, globals, ⟨phase, loaders, slot⟩⟩
    simp only at hno hext htogether
    cases htogether with
    | running | evaluating | gone => simp [systemStep] at hst
    | looping hs =>
      cases inbox with
      | nil => simp [systemStep] at hst
      | cons m inbox =>
        cases hst
        obtain ⟨hm, hext⟩ := List.forall_mem_cons.mp hext
        exact ⟨hno, hext, .running (quietWork_handle hs hm)⟩
  | work =>
    obtain ⟨hno, hext, htogether⟩ := h
    rcases x with ⟨owner, world, inbox, globals, ⟨phase, loaders, slot⟩⟩
    simp only at hno hext htogether
    cases htogether with
    | looping | evaluating | gone => simp [systemStep] at hst
    | running hwork => exact unasked_workStep hno hext rfl hwork hst
  | thread => exact unasked_thread h (fun hr => hreq ⟨rfl, hr⟩) hst
  | finish =>
    obtain ⟨hno, hext, htogether⟩ := h
    rcases x with ⟨owner, world, inbox, globals, ⟨phase, loaders, slot⟩⟩
    simp only at hno hext htogether
    cases htogether with
    | looping | running | gone => simp [systemStep] at hst
    | @evaluating resume hresume e =>
      cases hn : engine.next e with
      | compute | request | loaded => simp [systemStep, hn] at hst
      | done result globals' =>
        simp only [systemStep, hn, Option.some.injEq] at hst
        subst hst
        cases result with
        | ok t => exact ⟨hno, hext, .running (hresume t)⟩
        | error e => exact ⟨hno, hext, .gone⟩

/-! ## After it -/

/-- The first request finds its owner inside `BeamjsNif.eval`. -/
theorem deadlock_of_request {x y : System W E G} (h : Unasked x) (hreq : Requesting engine x)
    (hst : systemStep sys engine .thread x = some y) : Deadlock y := by
  obtain ⟨hno, _, htogether⟩ := h
  rcases x with ⟨owner, world, inbox, globals, ⟨phase, loaders, slot⟩⟩
  simp only at hno htogether
  cases htogether with
  | looping | running | gone => simp [Requesting, requestOf] at hreq
  | @evaluating resume _ e =>
    cases hn : engine.next e with
    | compute | loaded | done => simp [Requesting, requestOf, hn] at hreq
    | request r =>
      simp [systemStep, threadStep, requestOf, hn] at hst
      subst hst
      exact ⟨.locking r, hno, .evaluating resume⟩

/-- Neither the evaluation nor the process ever gets out of a deadlock. -/
theorem deadlock_step {x y : System W E G} {act : SystemAct} (h : Deadlock x)
    (hst : systemStep sys engine act x = some y) : Deadlock y := by
  obtain ⟨hwait, hno, heval⟩ := h
  rcases x with ⟨owner, world, inbox, globals, ⟨phase, loaders, ⟨holder, ready, reply, unread⟩⟩⟩
  simp only at hwait hno heval
  subst hno
  cases heval with
  | evaluating resume =>
    cases act with
    | arrive m =>
      simp only [systemStep] at hst
      split at hst
      · cases hst
      · cases hst
        exact ⟨hwait, rfl, .evaluating resume⟩
    | take | work => simp [systemStep] at hst
    | finish => cases hwait <;> simp [systemStep] at hst
    | thread =>
      cases hwait with
      | locking r | sleeping r =>
        cases holder with
        | free =>
          simp [systemStep, threadStep, requestOf] at hst
          subst hst
          exact ⟨.checking r, rfl, .evaluating resume⟩
        | evaluation | owner => simp [systemStep, threadStep] at hst
      | checking r =>
        simp [systemStep, threadStep, requestOf] at hst
        subst hst
        exact ⟨.sleeping r, rfl, .evaluating resume⟩

/-- The step sends a request to the owner. -/
def SendsRequest (engine : Engine E G) (x : System W E G) (act : SystemAct) : Prop :=
  act = .thread ∧ Requesting engine x

/-- A run that has sent a request is in a deadlock. -/
theorem deadlock_of_run {entry : Entry} {world : W} {tr : List (System W E G × SystemAct)}
    {x y : System W E G} (hrun : (system sys engine entry world).Run x tr y) (hx : Unasked x) :
    Unasked y ∧ (∀ e ∈ tr, ¬ SendsRequest engine e.1 e.2) ∨ Deadlock y := by
  induction hrun with
  | nil => exact .inl ⟨hx, by simp⟩
  | @snoc z w tr act hrun hst ih =>
    rcases ih with ⟨hz, htr⟩ | hz
    · by_cases hsend : SendsRequest engine z act
      · obtain ⟨rfl, hreq⟩ := hsend
        exact .inr (deadlock_of_request hz hreq hst)
      · refine .inl ⟨unasked_step hz hsend hst, fun e he => ?_⟩
        rcases List.mem_append.mp he with he | he
        · exact htr e he
        · rw [List.mem_singleton.mp he]
          exact hsend
    · exact .inr (deadlock_step hz hst)

/-- A run is free of deadlocks exactly if none of its steps sends a request to the owner. -/
theorem no_deadlock_iff_no_request (sys : Otp W) (engine : Engine E G) (entry : Entry) (world : W)
    {tr : List (System W E G × SystemAct)} {y : System W E G}
    (hrun : (system sys engine entry world).Run (System.start sys engine entry world) tr y) :
    (∀ z ∈ Lts.visited tr y, ¬ Deadlock z) ↔ ∀ e ∈ tr, ¬ SendsRequest engine e.1 e.2 := by
  have hstart : Unasked (System.start sys engine entry world) := .start entry world
  constructor
  · intro hno
    rcases deadlock_of_run hrun hstart with ⟨_, htr⟩ | hy
    · exact htr
    · exact absurd hy (hno y (by simp [Lts.visited]))
  · intro htr z hz
    have hrun' := hrun.restrict (C := fun x act => ¬ SendsRequest engine x act) htr
    have hstep : ∀ u act v, Unasked u →
        ((system sys engine entry world).restrict fun x act => ¬ SendsRequest engine x act).step u act v →
        Unasked v := fun u act v hu hst => unasked_step hu hst.2 hst.1
    exact (hrun'.visited_invariant hstart hstep z hz).not_deadlock

/-- The points of the program `__beamjs_self()`. -/
inductive CallSelf where
  | calling | called

/-- An engine with the program `__beamjs_self()` for every source. -/
def callSelf : Engine CallSelf Unit where
  fresh := ()
  setGlobal _ _ _ := ()
  start _ _ _ := .calling
  next
    | .calling => .request (.hostCall .self [] fun _ => .called)
    | .called => .done (.ok (.tuple [.atom "ok", .atom "undefined"])) ()

/-- `eval_sync("__beamjs_self()")`. -/
def selfEntry : Entry := .evalSync (bytes "__beamjs_self()") (bytes "<eval>")

/-- A call of `self()` is a deadlock. -/
theorem self_deadlocks :
    ∃ x, (system loneOtp callSelf selfEntry ()).Reachable x ∧ Deadlock x := by
  have hexec : ∃ x, Lts.exec (systemStep loneOtp callSelf) [.work, .thread]
      (System.start loneOtp callSelf selfEntry ()) = some x ∧ Deadlock x :=
    ⟨_, rfl, .locking _, rfl, .evaluating _⟩
  obtain ⟨x, hx, hdead⟩ := hexec
  obtain ⟨tr, _, hrun⟩ := Lts.Run.of_exec (M := system loneOtp callSelf selfEntry ()) (fun _ _ _ h => h) hx
  exact ⟨x, ⟨_, tr, rfl, hrun⟩, hdead⟩

/-- A process without source that gets a message sends no request. -/
theorem message_without_deadlock :
    ∃ tr x, (system loneOtp callSelf (.process ⟨none, none, none⟩) ()).Run
        (System.start loneOtp callSelf (.process ⟨none, none, none⟩) ()) tr x ∧
      tr.map Prod.snd = [.work, .arrive (.info (.jsMessage .ok)), .take, .work] ∧
      ∀ z ∈ Lts.visited tr x, ¬ Deadlock z := by
  have hexec : ∃ x, Lts.exec (systemStep loneOtp callSelf)
      [.work, .arrive (.info (.jsMessage .ok)), .take, .work]
      (System.start loneOtp callSelf (.process ⟨none, none, none⟩) ()) = some x := ⟨_, rfl⟩
  obtain ⟨x, hx⟩ := hexec
  obtain ⟨tr, htr, hrun⟩ := Lts.Run.of_exec
    (M := system loneOtp callSelf (.process ⟨none, none, none⟩) ()) (fun _ _ _ h => h) hx
  refine ⟨tr, x, hrun, htr, (no_deadlock_iff_no_request _ _ _ _ hrun).mpr fun e he hsend => ?_⟩
  have hmem : SystemAct.thread ∈ tr.map Prod.snd := List.mem_map.mpr ⟨e, he, hsend.1⟩
  simp [htr] at hmem

end BeamJS
