import BeamJS.Core.Sessions
import BeamJS.Nif.Proofs.HandleProofs

/-!
# Proofs: the callers of the NIF

A caller is in custody of the context that it created, since a callback cannot name another one. So
it has the engine to itself, and no call of it waits while it makes the next.
-/

namespace BeamJS

open Lib

variable {W G : Type}

/-! ## Custody -/

/-- The code is in custody of the context `held`. -/
abbrev Holding (Q : Option ℕ → Prop) (held : Option ℕ) (p : SessionProgram W) : Prop :=
  InCustody ContextUse.isDestroy Q held p

variable {Q : Option ℕ → Prop} {h : ℕ}

theorem holding_newContext {body : ℕ → SessionProgram W}
    (hbody : ∀ h, Holding Q (some h) (body h)) : Holding Q none (newContext body) := by
  refine ⟨rfl, fun b => ?_⟩
  cases b with
  | some h => exact hbody h
  | none => trivial

theorem holding_destroyContext {next : SessionProgram W} (hnext : Holding Q none next) :
    Holding Q (some h) (destroyContext h next) :=
  ⟨rfl, fun _ => hnext⟩

/-- An operation of a callback is made on its own context, and leaves it there. -/
theorem holding_op {α : Type} (op : Op W α) {k : Except Term α → SessionProgram W}
    (hk : ∀ r, Holding Q (some h) (k r)) : Holding Q (some h) (op.on h k) := by
  cases op with
  | otp f => exact ⟨trivial, hk⟩
  | setGlobal name value => exact ⟨rfl, fun _ => hk _⟩
  | eval source filename => exact ⟨rfl, hk⟩
  | deliver reply => exact ⟨rfl, fun _ => hk _⟩

theorem holding_callback {α : Type} (m : Callback W α) {k : Except Term α → SessionProgram W}
    (hk : ∀ r, Holding Q (some h) (k r)) : Holding Q (some h) (m.on h k) := by
  induction m with
  | ret a => exact hk _
  | raise e => exact hk _
  | perform op next ih =>
    rw [Callback.on]
    refine holding_op op fun r => ?_
    cases r with
    | ok b => exact ih b
    | error e => exact hk _

/-- The context of a temporary evaluation is gone when it returns. -/
theorem holding_evalSyncSession (source filename : Bytes) :
    Holding (W := W) (· = none) none (evalSyncSession source filename) := by
  refine holding_newContext fun h => holding_callback _ fun r => ?_
  cases r with
  | ok result => exact holding_destroyContext rfl
  | error e => trivial

theorem holding_taskSession (source : Bytes) :
    Holding (W := W) (· = none) none (taskSession source) := by
  refine holding_newContext fun h => holding_callback _ fun r => ?_
  cases r with
  | ok result =>
    refine holding_destroyContext ?_
    split <;> trivial
  | error e => trivial

theorem holding_agentUpdateSession (fnSource : Bytes) (current : Term) :
    Holding (W := W) (· = none) none (agentUpdateSession fnSource current) := by
  refine holding_newContext fun h => holding_callback _ fun r => ?_
  split
  · exact holding_destroyContext rfl
  · exact holding_destroyContext rfl
  · trivial
  · trivial

theorem holding_processLoop (sys : Otp W) (messages : List Message) (s : ProcState) :
    Holding (fun _ => True) (some h) (processLoop sys h messages s) := by
  induction messages generalizing s with
  | nil => trivial
  | cons m messages ih =>
    refine holding_callback _ fun r => ?_
    split
    · exact ih _
    · exact holding_destroyContext trivial
    · exact holding_destroyContext trivial

theorem holding_processSession (sys : Otp W) (opts : InitOpts) (messages : List Message) :
    Holding (fun _ => True) none (processSession sys opts messages) := by
  refine holding_newContext fun h => holding_callback _ fun r => ?_
  split
  · exact holding_processLoop sys messages _
  · trivial
  · trivial

/-! ## The engine of a caller -/

/-- A live context with that many calls that wait. -/
structure LiveContext (c : BeamjsContext) (waiting : ℕ) : Prop where
  rt : c.rt = .live
  ctx : c.ctx = .live
  waiting : c.waiting = waiting

variable {engine : Runtime G} {c : BeamjsContext} {g : G}

theorem LiveContext.tidy {n : ℕ} (hc : LiveContext c n) : Tidy c :=
  ⟨hc.rt.trans hc.ctx.symm, fun h => by rw [hc.ctx] at h; cases h⟩

/-- The calls that wait after a call with this answer. -/
def waitingAfter : Option (Except Term Term) → ℕ
  | some _ => 0
  | none => 1

/-- The engine is used, and keeps or answers the call. -/
theorem useEngine_live (hc : LiveContext c 0) (run : EngineRun) {s : BeamjsContext}
    {e : CallEnd} {a : Option (Except Term Term)} (hs : c.useEngine .live run = (s, e))
    (ha : e.answer = some a) : LiveContext s (waitingAfter a) := by
  cases run with
  | ends result =>
    cases hs
    cases result <;> cases ha <;> exact hc
  | hostCall =>
    cases hs
    cases ha
    exact ⟨hc.rt, hc.ctx, by rw [hc.waiting]; rfl⟩

/-- A use other than `destroy_context` leaves the context live. -/
theorem use_live (hc : LiveContext c 0) {u : ContextUse} (hu : u.isDestroy = false)
    {s : BeamjsContext × G} {a : Option (Except Term Term)}
    (hs : (contexts engine).use u (c, g) = some (s, a)) : LiveContext s.1 (waitingAfter a) := by
  obtain ⟨b, ha, hres⟩ := Option.map_eq_some_iff.mp hs
  cases hres
  cases u with
  | eval source filename =>
    refine useEngine_live hc (engine.eval source filename g).1 ?_ ha
    simp [ContextUse.call, BeamjsContext.guarded, hc.ctx, hc.rt, BeamjsContext.withText,
      inspectIolist]
  | setGlobal name value =>
    refine useEngine_live hc (engine.setGlobal name value g).1 ?_ ha
    simp [ContextUse.call, hc.ctx, BeamjsContext.withText, inspectIolist]
  | deliver reply =>
    cases ha
    exact ⟨hc.rt, hc.ctx, hc.waiting⟩
  | destroy => cases hu

/-- A call that waited goes on. -/
theorem resume_live (hc : LiveContext c 1) {s : BeamjsContext × G}
    {a : Option (Except Term Term)} (hs : (contexts engine).resume (c, g) = some (s, a)) :
    LiveContext s.1 (waitingAfter a) := by
  obtain ⟨⟨s', e⟩, hwake, hres⟩ := Option.bind_eq_some_iff.mp hs
  obtain ⟨b, ha, hres⟩ := Option.map_eq_some_iff.mp hres
  cases hres
  rcases c with ⟨rt, ctx, ready, waiting⟩
  obtain ⟨rfl, rfl, rfl⟩ := hc
  cases ready with
  | false => cases hwake
  | true =>
    have hone : LiveContext ⟨.live, .live, false, 0⟩ 0 := ⟨rfl, rfl, rfl⟩
    exact useEngine_live hone (engine.wake g).1 (Option.some.inj hwake) ha

/-- The calls of the client that wait. -/
def waitingOf {ε α : Type} : Client ContextUse (Except Term Term) W ε α → ℕ
  | .waits _ _ => 1
  | .runs _ | .ended => 0

theorem waitingOf_answered {ε α : Type}
    (next : Except Term Term → Program (PoolOp ContextUse (Except Term Term) W) ε α)
    (a : Option (Except Term Term)) : waitingOf (.answered h next a) = waitingAfter a := by
  cases a <;> rfl

/-- The context that a caller holds is live, and a call of it waits only while the caller does. -/
def HoldsLive {ε α : Type} (z : Alone ContextUse (Except Term Term) (BeamjsContext × G) W ε α) :
    Prop :=
  ∀ h s, z.cell = some (h, s) → LiveContext s.1 (waitingOf z.client)

theorem holdsLive_step {ε α : Type}
    {z z' : Alone ContextUse (Except Term Term) (BeamjsContext × G) W ε α}
    (hst : AloneStep (contexts engine) z z') (hz : HoldsLive z) : HoldsLive z' := by
  cases hst with
  | create handle =>
    rintro h s ⟨⟩
    exact ⟨rfl, rfl, rfl⟩
  | refuse => exact hz
  | @use handle u next s s' a hu =>
    intro h t ht
    cases hdestroy : u.isDestroy with
    | true =>
      rw [show (contexts engine).closes u = true from hdestroy] at ht
      cases ht
    | false =>
      rw [show (contexts engine).closes u = false from hdestroy] at ht
      cases ht
      rw [waitingOf_answered]
      exact use_live (hz handle s rfl) hdestroy hu
  | env w => exact hz
  | @resume handle next s s' a hr =>
    rintro h t ⟨⟩
    rw [waitingOf_answered]
    exact resume_live (hz handle s rfl) hr
  | kill => exact hz

theorem holdsLive_of_reachable {ε α : Type}
    {p : Program (PoolOp ContextUse (Except Term Term) W) ε α}
    {z : Alone ContextUse (Except Term Term) (BeamjsContext × G) W ε α}
    (hz : (alone (contexts engine) p).Reachable z) : HoldsLive z := by
  refine hz.invariant (I := HoldsLive) ?_ fun u _ v hu hst => holdsLive_step hst hu
  rintro z rfl h s hs
  cases hs

/-! ## The calls of a virtual machine -/

/-- An operation on a live context, made where no other call of it waits. -/
theorem engineSafe_call {handles : List BeamjsContext} {i : ℕ} (hi : handles[i]? = some c)
    (hc : LiveContext c 0) (u : ContextUse) (run : EngineRun) :
    EngineSafe handles (.call i (u.call run)) := by
  have hsuits : (u.call run).Suits c := by
    cases u with
    | eval | deliver => trivial
    | setGlobal => exact hc.ctx
    | destroy => exact hc.waiting
  have hharmless := call_harmless hc.tidy hsuits
  constructor
  · intro handles' hstep
    obtain ⟨c', hc', hres⟩ := Option.map_eq_some_iff.mp hstep
    obtain rfl := Option.some.inj (hi.symm.trans hc')
    exact hharmless.no_fault (congrArg Prod.snd hres)
  · rintro ⟨c', hc', hnull⟩
    obtain rfl := Option.some.inj (hi.symm.trans hc')
    cases hc.ctx.symm.trans hnull

theorem engineSafe_wake {handles : List BeamjsContext} {i n : ℕ} (hi : handles[i]? = some c)
    (hc : LiveContext c n) (run : EngineRun) : EngineSafe handles (.wake i run) := by
  constructor
  · intro handles' hstep
    obtain ⟨c', hc', hbind⟩ := Option.bind_eq_some_iff.mp hstep
    obtain rfl := Option.some.inj (hi.symm.trans hc')
    obtain ⟨r, hr, hres⟩ := Option.map_eq_some_iff.mp hbind
    exact (wake_harmless hc.tidy hr).no_fault (congrArg Prod.snd hres)
  · rintro ⟨c', hc', hnull⟩
    obtain rfl := Option.some.inj (hi.symm.trans hc')
    cases hc.ctx.symm.trans hnull

theorem engineSafe_newContext (handles : List BeamjsContext) (creation : Creation) :
    EngineSafe handles (.newContext creation) := by
  refine ⟨fun handles' hstep => ?_, False.elim⟩
  cases creation <;> cases hstep

variable {ι ε α : Type} {R : ι → Option ℕ → Prop}
  {p : ι → Program (PoolOp ContextUse (Except Term Term) W) ε α}
  {x : Pool ι ContextUse (Except Term Term) (BeamjsContext × G) W ε α}
  {cells : ι → Option (ℕ × BeamjsContext × G)}

/-- The caller that is about to use a context runs a program that does. -/
theorem useOf_eq_some {client : Client ContextUse (Except Term Term) W ε α} {h : ℕ} {u : ContextUse}
    (hu : useOf client = some (h, u)) : ∃ next, client = .runs (.perform (.use h u) next) := by
  rcases client with ⟨_ | _ | ⟨op, next⟩⟩ | ⟨handle, next⟩ | _
  case runs.perform =>
    cases op with
    | use handle u' =>
      cases hu
      exact ⟨next, rfl⟩
    | create | env => cases hu
  all_goals cases hu

/-- Where the callers keep apart, the next call of each is safe. -/
theorem engineSafe_of_apart (hx : x.Apart (contexts engine) R p cells) {i : ι} {run : EngineRun}
    {act : NifAct} (hact : nifActOf run (x.clients i) = some act) :
    EngineSafe (handlesOf x) act := by
  have hcustody := hx.custody i
  have hlive := holdsLive_of_reachable (hx.alone i)
  rcases hc : x.clients i with ⟨_ | _ | ⟨op, next⟩⟩ | ⟨handle, next⟩ | _
  case runs.perform =>
    rw [hc] at hact hcustody hlive
    cases op with
    | create =>
      cases hact
      exact engineSafe_newContext ..
    | use handle u =>
      cases hact
      obtain ⟨s, hs, htable⟩ := hx.holds hcustody.1
      refine engineSafe_call ?_ (hlive handle s hs) u run
      rw [handlesOf, List.getElem?_map, htable]
      rfl
    | env f => cases hact
  case waits =>
    rw [hc] at hact hcustody hlive
    cases hact
    obtain ⟨s, hs, htable⟩ := hx.holds hcustody.1
    refine engineSafe_wake ?_ (hlive handle s hs) run
    rw [handlesOf, List.getElem?_map, htable]
    rfl
  all_goals
    rw [hc] at hact
    cases hact

end BeamJS
