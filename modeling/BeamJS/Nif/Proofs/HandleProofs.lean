import BeamJS.Nif.Handle

/-!
# Proofs: the engine behind a handle

A run whose operations suit their handles keeps every destroyed handle free of waiting calls, and no
operation of it meets an engine that is gone.
-/

namespace BeamJS

open Lib BeamjsContext

/-- Both parts of the engine are there or gone, and nobody waits for an engine that is gone. -/
structure Tidy (c : BeamjsContext) : Prop where
  parts : c.rt = c.ctx
  deserted : c.ctx = .null → c.waiting = 0

/-- The end of an operation on a destroyed handle. -/
def CallEnd.Refuses (e : CallEnd) : Prop :=
  e = .done (.returns .ok) ∨ ∃ reason, e = .done (.returns (.errorTuple reason))

/-- What an operation may make of a tidy handle. -/
structure Harmless (c : BeamjsContext) (r : BeamjsContext × CallEnd) : Prop where
  tidy : Tidy r.1
  no_fault : r.2 ≠ .faults
  refuses : c.ctx = .null → r.2.Refuses

section Call

variable {c : BeamjsContext}

theorem tidy_new : Tidy .new := ⟨rfl, nofun⟩

/-- Where the engine is there, using it is harmless. -/
theorem useEngine_harmless (hc : Tidy c) (hlive : c.ctx = .live) {p : EnginePtr} (hp : p = .live)
    (run : EngineRun) : Harmless c (c.useEngine p run) := by
  have hnull : ∀ {P : Prop}, c.ctx = .null → P := fun h => by rw [hlive] at h; cases h
  subst hp
  cases run with
  | ends result => exact ⟨hc, nofun, hnull⟩
  | hostCall => exact ⟨⟨hc.parts, hnull⟩, nofun, hnull⟩

theorem withText_harmless (hc : Tidy c) (hlive : c.ctx = .live) {body : BeamjsContext × CallEnd}
    (hbody : Harmless c body) (arg : Term) : Harmless c (c.withText arg body) := by
  unfold withText
  cases inspectIolist arg with
  | some _ => exact hbody
  | none =>
    refine ⟨hc, nofun, fun h => ?_⟩
    rw [hlive] at h
    cases h

/-- The guard turns calls on a destroyed handle away. -/
theorem guarded_harmless (hc : Tidy c) {body : BeamjsContext × CallEnd}
    (hbody : c.ctx = .live → Harmless c body) : Harmless c (c.guarded body) := by
  unfold guarded
  cases hctx : c.ctx with
  | live => exact hbody hctx
  | null => exact ⟨hc, nofun, fun _ => .inr ⟨_, rfl⟩⟩

/-- A call that suits a tidy handle is harmless. -/
theorem call_harmless (hc : Tidy c) {op : HandleCall} (hop : op.Suits c) :
    Harmless c (c.call op) := by
  have hrt : c.ctx = .live → c.rt = .live := fun h => hc.parts.trans h
  cases op with
  | destroyContext => exact ⟨⟨rfl, fun _ => hop⟩, nofun, fun _ => .inl rfl⟩
  | eval source filename run =>
    refine guarded_harmless hc fun hlive => ?_
    refine withText_harmless hc hlive (withText_harmless hc hlive ?_ filename) source
    exact useEngine_harmless hc hlive (hrt hlive) run
  | callFunction name args run =>
    refine guarded_harmless hc fun hlive => withText_harmless hc hlive ?_ name
    exact useEngine_harmless hc hlive (hrt hlive) run
  | setGlobal name value run =>
    exact withText_harmless hc hop (useEngine_harmless hc hop hop run) name
  | getGlobal name run => exact withText_harmless hc hop (useEngine_harmless hc hop hop run) name
  | executePendingJobs run => exact useEngine_harmless hc hop (hrt hop) run
  | deliverHostReply reply => exact ⟨⟨hc.parts, hc.deserted⟩, nofun, fun _ => .inl rfl⟩

/-- A call that waits has its engine still when it goes on. -/
theorem wake_harmless (hc : Tidy c) {run : EngineRun} {r : BeamjsContext × CallEnd}
    (h : c.wake run = some r) : Harmless c r := by
  unfold wake at h
  split at h
  · rename_i waiting hwaiting hready
    cases h
    have hlive : c.ctx = .live := by
      cases hctx : c.ctx with
      | live => rfl
      | null =>
        have hzero := hc.deserted hctx
        omega
    have hnull : ∀ {P : Prop}, c.ctx = .null → P := fun h => by rw [hlive] at h; cases h
    have hnext : Tidy { c with waiting, hostReplyReady := false } := ⟨hc.parts, hnull⟩
    have hharmless := useEngine_harmless hnext hlive hlive run
    exact ⟨hharmless.tidy, hharmless.no_fault, hnull⟩
  · cases h

end Call

/-! ## Runs -/

section System

variable {handles handles' : List BeamjsContext} {act : NifAct} {e : CallEnd}

/-- Every handle is tidy. -/
def AllTidy (handles : List BeamjsContext) : Prop := ∀ c ∈ handles, Tidy c

theorem AllTidy.set (h : AllTidy handles) {c : BeamjsContext} (hc : Tidy c) (i : ℕ) :
    AllTidy (handles.set i c) := by
  intro c' hc'
  rcases List.mem_or_eq_of_mem_set hc' with hmem | rfl
  · exact h c' hmem
  · exact hc

/-- One operation: the handles stay tidy, and what the operation comes to is harmless. -/
theorem step_harmless (h : AllTidy handles) (hact : Suitable handles act)
    (hstep : nifStep act handles = some (handles', e)) :
    AllTidy handles' ∧ e ≠ .faults ∧ (OnDestroyed handles act → e.Refuses) := by
  cases act with
  | newContext creation =>
    cases creation with
    | created =>
      cases hstep
      refine ⟨fun c hc => ?_, nofun, False.elim⟩
      rcases List.mem_append.mp hc with hc | hc
      · exact h c hc
      · obtain rfl := List.mem_singleton.mp hc
        exact tidy_new
    | noRuntime | noContext =>
      cases hstep
      exact ⟨h, nofun, False.elim⟩
  | call i op =>
    obtain ⟨c, hc, hres⟩ := Option.map_eq_some_iff.mp hstep
    cases hres
    have hharmless := call_harmless (h c (List.mem_of_getElem? hc)) (hact c hc)
    refine ⟨h.set hharmless.tidy i, hharmless.no_fault, ?_⟩
    rintro ⟨c', hc', hnull⟩
    obtain rfl : c = c' := by simpa [hc] using hc'
    exact hharmless.refuses hnull
  | wake i run =>
    obtain ⟨c, hc, hwake⟩ := Option.bind_eq_some_iff.mp hstep
    obtain ⟨r, hr, hres⟩ := Option.map_eq_some_iff.mp hwake
    cases hres
    have hharmless := wake_harmless (h c (List.mem_of_getElem? hc)) hr
    refine ⟨h.set hharmless.tidy i, hharmless.no_fault, ?_⟩
    rintro ⟨c', hc', hnull⟩
    obtain rfl : c = c' := by simpa [hc] using hc'
    exact hharmless.refuses hnull

/-- In a run whose operations all suit their handles, no operation uses an engine that is gone. -/
theorem no_use_after_destroy {tr : List (List BeamjsContext × NifAct)}
    (hinit : nifSystem.init handles) (hrun : nifSystem.Run handles tr handles')
    (hsuits : ∀ s ∈ tr, Suitable s.1 s.2) : ∀ s ∈ tr, EngineSafe s.1 s.2 := by
  have hstart : AllTidy handles := by
    obtain rfl : handles = [] := hinit
    intro c hc
    cases hc
  have hkept : ∀ s act s', AllTidy s → (nifSystem.restrict Suitable).step s act s' → AllTidy s' := by
    rintro s act s' hs ⟨⟨e, hstep⟩, hact⟩
    exact (step_harmless hs hact hstep).1
  intro s hs
  obtain ⟨htidy, -⟩ := (hrun.restrict hsuits).step_of_mem hstart hkept s hs
  constructor
  · intro next hfault
    exact (step_harmless htidy (hsuits s hs) hfault).2.1 rfl
  · intro hdestroyed next e hstep
    exact (step_harmless htidy (hsuits s hs) hstep).2.2 hdestroyed

end System

/-! ## Where the engine is gone -/

/-- The handle that `destroy_context` leaves behind while `waiting` calls wait. -/
def destroyedContext (waiting : ℕ) (ready : Bool) : BeamjsContext := ⟨.null, .null, ready, waiting⟩

/-- A context is created and destroyed, and used again. -/
def destroyedThenUsed : List NifAct := [.newContext .created, .call 0 .destroyContext]

/-- A context is destroyed while an evaluation waits for a reply, and the reply is delivered. -/
def destroyedWhileWaiting : List NifAct :=
  [.newContext .created, .call 0 (.eval (.binary []) (.binary []) .hostCall),
    .call 0 .destroyContext, .call 0 (.deliverHostReply .null)]

theorem reachable_of_exec (acts : List NifAct) {handles : List BeamjsContext}
    (h : Lts.exec (fun act s => (nifStep act s).map Prod.fst) acts [] = some handles) :
    nifSystem.Reachable handles := by
  have hstep : ∀ s act t, (nifStep act s).map Prod.fst = some t → nifSystem.step s act t := by
    intro s act t hst
    obtain ⟨⟨t', e⟩, ht, rfl⟩ := Option.map_eq_some_iff.mp hst
    exact ⟨e, ht⟩
  exact .of_exec hstep rfl h

/-- A context is created and destroyed, and a further evaluation is turned away. -/
theorem no_use_after_destroy_evaluated :
    EngineSafe [destroyedContext 0 false]
      (.call 0 (.eval (.binary []) (.binary []) .hostCall)) := by
  have hcreate := (Lts.Run.nil (M := nifSystem) []).snoc (a := .newContext .created) ⟨_, rfl⟩
  have hdestroy := hcreate.snoc (a := .call 0 .destroyContext) ⟨_, rfl⟩
  have hrun := hdestroy.snoc (a := .call 0 (.eval (.binary []) (.binary []) .hostCall)) ⟨_, rfl⟩
  have hsuits : ∀ s ∈ [([], NifAct.newContext .created), ([BeamjsContext.new],
      NifAct.call 0 .destroyContext), ([destroyedContext 0 false],
      NifAct.call 0 (.eval (.binary []) (.binary []) .hostCall))], Suitable s.1 s.2 := by
    simp [Suitable, HandleCall.Suits, BeamjsContext.new]
  exact no_use_after_destroy rfl hrun hsuits ([destroyedContext 0 false], _)
    (List.mem_append_right _ (List.mem_singleton.mpr rfl))

/-- Both orders lead to an operation on an engine that is gone. -/
theorem destroyed_engine_used :
    (nifSystem.Reachable [destroyedContext 0 false] ∧
        ¬ EngineSafe [destroyedContext 0 false]
          (.call 0 (.setGlobal (.binary []) .null (.ends (.returns .ok))))) ∧
      (nifSystem.Reachable [destroyedContext 1 true] ∧
        ¬ EngineSafe [destroyedContext 1 true] (.wake 0 (.ends (.returns .ok)))) :=
  ⟨⟨reachable_of_exec destroyedThenUsed rfl, fun h => h.no_fault _ rfl⟩,
    ⟨reachable_of_exec destroyedWhileWaiting rfl, fun h => h.no_fault _ rfl⟩⟩

end BeamJS
