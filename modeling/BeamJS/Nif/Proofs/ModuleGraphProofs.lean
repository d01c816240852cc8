import BeamJS.Nif.ModuleGraph

/-!
# The order in which a module graph is loaded and run

The loader evaluates the first module that the entry requests before the entry is linked. It gets
that far only with a module that requests no other one: a request of a new module waits for the lock
that the loader holds, and one of the entry goes through an entry of its table that is still `NULL`.
-/

namespace BeamJS

open Lib Lib.Stateful

namespace Load

variable {α : Type}

/-! ## What is kept

A property of the log is kept by every computation that writes no event, and by each of the walks if
the events that it writes keep it. -/

section Keeps

variable {P : List (LoadEvent α) → Prop}

theorem record_keeps {event : LoadEvent α} (hP : ∀ l, P l → P (l ++ [event])) :
    Keeps (fun E : LoadEngine α => P E.log) (record event) := Keeps.modify fun E => hP E.log

theorem require_keeps (h : Halt) (c : Bool) :
    Keeps (fun E : LoadEngine α => P E.log) (require h c) := by
  unfold require
  split
  · exact Keeps.pure ()
  · exact Keeps.raise h

theorem deref_keeps (m : Option α) : Keeps (fun E : LoadEngine α => P E.log) (deref m) := by
  cases m with
  | some m => exact Keeps.pure m
  | none => exact Keeps.raise _

theorem moduleOf_keeps (m : α) : Keeps (fun E : LoadEngine α => P E.log) (moduleOf m) := by
  refine Keeps.bind Keeps.get fun E => ?_
  cases E.modules m with
  | some d => exact Keeps.pure d
  | none => exact Keeps.raise _

theorem evaluationRoot_keeps (m : α) :
    Keeps (fun E : LoadEngine α => P E.log) (evaluationRoot m) := by
  refine Keeps.bind (moduleOf_keeps m) fun d => ?_
  split
  · exact deref_keeps _
  · exact deref_keeps _
  · exact Keeps.pure m

variable [DecidableEq α]

theorem update_log {R : Halt → LoadEngine α → Prop} (m : α) (f : ModuleDef α → ModuleDef α) :
    Triple (fun E : LoadEngine α => P E.log) (update m f) (fun _ E => P E.log) R :=
  Triple.modify fun _ => id

theorem update_keeps (m : α) (f : ModuleDef α → ModuleDef α) :
    Keeps (fun E : LoadEngine α => P E.log) (update m f) := update_log m f

theorem createFunction_keeps (n : ℕ) (m : Option α) :
    Keeps (fun E : LoadEngine α => P E.log) (createFunction n m) := by
  induction n generalizing m with
  | zero => exact Keeps.raise _
  | succ n ih =>
    refine Keeps.bind (deref_keeps m) fun m => Keeps.bind (moduleOf_keeps m) fun d => ?_
    split
    · exact Keeps.pure ()
    · exact Keeps.bind (update_keeps m _) fun _ => Keeps.forEach ih _

theorem push_keeps (m : α) (status : ModuleStatus) :
    Keeps (fun E : LoadEngine α => P E.log) (push m status) :=
  Keeps.bind Keeps.get fun _ => Keeps.bind (update_keeps m _) fun _ => Keeps.modify fun _ => id

theorem joinAncestor_keeps (m r : α) :
    Keeps (fun E : LoadEngine α => P E.log) (joinAncestor m r) :=
  Keeps.bind (moduleOf_keeps r) fun _ => update_keeps m _

theorem popComponent_keeps (m : α) {f : α → Load α Unit}
    (hf : ∀ a, Keeps (fun E : LoadEngine α => P E.log) (f a)) :
    Keeps (fun E : LoadEngine α => P E.log) (popComponent m f) := by
  refine Keeps.bind (moduleOf_keeps m) fun d => ?_
  split
  · exact Keeps.bind Keeps.get fun E =>
      Keeps.bind (Keeps.forEach hf _) fun _ => Keeps.modify fun _ => id
  · exact Keeps.pure ()

theorem innerModuleLinking_keeps (hP : ∀ l a, P l → P (l ++ [.linked a])) (n : ℕ) (m : Option α) :
    Keeps (fun E : LoadEngine α => P E.log) (innerModuleLinking n m) := by
  induction n generalizing m with
  | zero => exact Keeps.raise _
  | succ n ih =>
    refine Keeps.bind (deref_keeps m) fun m => Keeps.bind (moduleOf_keeps m) fun d => ?_
    have hbody : ∀ entry, Keeps (fun E : LoadEngine α => P E.log) (do
        innerModuleLinking n entry
        let r ← deref entry
        let d₁ ← moduleOf r
        if d₁.status = .linking then joinAncestor m r else pure ()) := by
      intro entry
      refine Keeps.bind (ih entry) fun _ => Keeps.bind (deref_keeps entry) fun r =>
        Keeps.bind (moduleOf_keeps r) fun d₁ => ?_
      split
      · exact joinAncestor_keeps m r
      · exact Keeps.pure ()
    have hset : ∀ a, Keeps (fun E : LoadEngine α => P E.log) (setLinked a) := fun a =>
      Keeps.bind (update_keeps a _) fun _ => record_keeps fun l => hP l a
    split
    · exact Keeps.pure ()
    · exact Keeps.pure ()
    · exact Keeps.pure ()
    · exact Keeps.pure ()
    · exact Keeps.raise _
    · exact Keeps.bind (push_keeps m _) fun _ => Keeps.bind (Keeps.forEach hbody _) fun _ =>
        Keeps.bind (require_keeps _ _) fun _ => popComponent_keeps m hset

theorem linkModule_keeps (hP : ∀ l a, P l → P (l ++ [.linked a])) (n : ℕ) (m : α) :
    Keeps (fun E : LoadEngine α => P E.log) (linkModule n m) := by
  refine Keeps.bind (Keeps.modify fun _ => id) fun _ =>
    Keeps.onError (innerModuleLinking_keeps hP n _) fun h => Keeps.bind Keeps.get fun E => ?_
  dsimp only
  split
  · exact Keeps.bind (Keeps.forEach (fun a => update_keeps a _) _) fun _ => Keeps.raise h
  · exact Keeps.raise h

theorem executeModule_keeps (hP : ∀ l a, P l → P (l ++ [.ran a])) (m : α) (text : ModuleText α) :
    Keeps (fun E : LoadEngine α => P E.log) (executeModule m text) := by
  have hran := record_keeps (P := P) fun l => hP l m
  unfold executeModule
  split
  · exact Keeps.bind (update_keeps m _) fun _ => hran
  · exact Keeps.bind hran fun _ => require_keeps _ _

theorem innerModuleEvaluation_keeps (hP : ∀ l a, P l → P (l ++ [.ran a])) (n : ℕ) (m : Option α) :
    Keeps (fun E : LoadEngine α => P E.log) (innerModuleEvaluation n m) := by
  induction n generalizing m with
  | zero => exact Keeps.raise _
  | succ n ih =>
    refine Keeps.bind (deref_keeps m) fun m => Keeps.bind (moduleOf_keeps m) fun d => ?_
    split
    · exact require_keeps _ _
    · exact require_keeps _ _
    · exact Keeps.pure ()
    · exact Keeps.raise _
    · exact Keeps.raise _
    · refine Keeps.bind (push_keeps m _) fun _ => Keeps.bind (update_keeps m _) fun _ =>
        Keeps.bind (Keeps.forEach (fun entry => ?_) _) fun _ =>
          Keeps.bind (moduleOf_keeps m) fun d => ?_
      · refine Keeps.bind (ih entry) fun _ => Keeps.bind (deref_keeps entry) fun r =>
          Keeps.bind (moduleOf_keeps r) fun d₁ => ?_
        have hcount : ∀ d₂ : ModuleDef α, Keeps (fun E : LoadEngine α => P E.log)
            (if d₂.asyncEvaluation then
              update m fun d =>
                { d with pendingAsyncDependencies := d.pendingAsyncDependencies + 1 }
            else pure ()) := by
          intro d₂
          split
          · exact update_keeps m _
          · exact Keeps.pure ()
        dsimp only
        split
        · exact Keeps.bind (joinAncestor_keeps m r) fun _ => hcount d₁
        · exact Keeps.bind (deref_keeps _) fun root => Keeps.bind (moduleOf_keeps root) fun d₂ =>
            Keeps.bind (require_keeps _ _) fun _ => hcount d₂
      · have hpop : Keeps (fun E : LoadEngine α => P E.log) (popComponent m (setEvaluated m)) :=
          popComponent_keeps m fun a => update_keeps a _
        dsimp only
        split
        · exact Keeps.bind (update_keeps m _) fun _ => hpop
        · exact Keeps.bind (executeModule_keeps hP m d.text) fun _ => hpop

theorem evaluateModule_keeps (hP : ∀ l a, P l → P (l ++ [.ran a])) (n : ℕ) (m : α) :
    Keeps (fun E : LoadEngine α => P E.log) (evaluateModule n m) := by
  refine Keeps.bind (evaluationRoot_keeps m) fun m => Keeps.bind (moduleOf_keeps m) fun d => ?_
  split
  · exact Keeps.pure ()
  · refine Keeps.bind (update_keeps m _) fun _ => Keeps.bind (Keeps.modify fun _ => id) fun _ =>
      Keeps.onError (innerModuleEvaluation_keeps hP n _) fun h => Keeps.bind Keeps.get fun E => ?_
    split
    · exact Keeps.forEach (fun a => update_keeps a _) _
    · exact Keeps.raise h

theorem evalFunction_keeps (hP : ∀ l event, P l → P (l ++ [event])) (n : ℕ) (m : α) :
    Keeps (fun E : LoadEngine α => P E.log) (evalFunction n m) :=
  Keeps.bind (createFunction_keeps n _) fun _ =>
    Keeps.bind (linkModule_keeps (fun l _ => hP l _) n m) fun _ =>
      evaluateModule_keeps (fun l _ => hP l _) n m

theorem compileModule_keeps (hP : ∀ l event, P l → P (l ++ [event]))
    (source : α → Option (ModuleText α)) {resolve : α → Load α Unit}
    (hresolve : ∀ m, Keeps (fun E : LoadEngine α => P E.log) (resolve m)) (m : α) :
    Keeps (fun E : LoadEngine α => P E.log) (compileModule source resolve m) := by
  unfold compileModule
  split
  · exact Keeps.raise _
  · refine Keeps.bind (Keeps.modify fun _ => id) fun _ =>
      Keeps.bind (record_keeps fun l => hP l _) fun _ => Keeps.onError (hresolve m) fun h => ?_
    dsimp only
    split
    · exact Keeps.bind (Keeps.modify fun _ => id) fun _ => Keeps.raise h
    · exact Keeps.raise h

theorem resolve_load_keeps (hP : ∀ l event, P l → P (l ++ [event]))
    (source : α → Option (ModuleText α)) (n : ℕ) :
    (∀ m, Keeps (fun E : LoadEngine α => P E.log) (resolveModule source n m)) ∧
      ∀ m, Keeps (fun E : LoadEngine α => P E.log) (loadModule source n m) := by
  induction n with
  | zero =>
    constructor
    · intro m
      unfold resolveModule
      exact Keeps.raise _
    · intro m
      unfold loadModule
      exact Keeps.raise _
  | succ n ih =>
    obtain ⟨ihResolve, ihLoad⟩ := ih
    constructor
    · intro m
      unfold resolveModule
      refine Keeps.bind (moduleOf_keeps m) fun d => ?_
      split
      · exact Keeps.pure ()
      · refine Keeps.bind (update_keeps m _) fun _ => Keeps.forEach (fun r => ?_) _
        refine Keeps.bind (Keeps.bind Keeps.get fun E => ?_) fun _ =>
          Keeps.bind (update_keeps m _) fun _ => ihResolve r
        split
        · exact Keeps.pure ()
        · exact ihLoad r
    · intro m
      unfold loadModule
      refine Keeps.bind Keeps.get fun E => ?_
      split
      · exact Keeps.raise _
      · refine Keeps.bind (Keeps.modify fun _ => id) fun _ =>
          Keeps.bind (Keeps.onError ?_ fun h => ?_) fun _ => Keeps.modify fun _ => id
        · exact Keeps.bind (compileModule_keeps hP source ihResolve m) fun _ =>
            evalFunction_keeps hP n m
        · dsimp only
          split
          · exact Keeps.bind (Keeps.modify fun _ => id) fun _ => Keeps.raise h
          · exact Keeps.raise h

end Keeps

end Load

/-! ## Engines with a known module -/

/-- The engine with one module set. -/
def LoadEngine.set {α : Type} [DecidableEq α] (E : LoadEngine α) (m : α) (d : ModuleDef α) :
    LoadEngine α :=
  { E with modules := Function.update E.modules m (some d) }

/-- A module whose requests have all been found to be itself. -/
def ModuleDef.resolvedAlone {α : Type} (text : ModuleText α) : ModuleDef α :=
  { ModuleDef.compiled text with resolved := true, filled := text.requests }

theorem ModuleDef.entries_resolvedAlone {α : Type} (text : ModuleText α) :
    (ModuleDef.resolvedAlone text).entries = text.requests.map some := by
  show text.requests.map some ++ List.replicate (text.requests.length - text.requests.length) none =
    text.requests.map some
  rw [Nat.sub_self, List.replicate_zero, List.append_nil]

namespace Load

variable {α : Type} {E : LoadEngine α} {m : α} {d : ModuleDef α} {text : ModuleText α}
  {source : α → Option (ModuleText α)}

theorem moduleOf_of_some (h : E.modules m = some d) :
    moduleOf m E = (.ok d, E) := by
  unfold moduleOf
  rw [bind_ok (show Stateful.get E = (.ok E, E) from rfl), h]
  rfl

theorem hostResolve_of_some {load : α → Load α Unit} {r : α} (h : E.modules r = some d) :
    hostResolve load r E = (.ok (), E) := by
  unfold hostResolve
  rw [bind_ok (show Stateful.get E = (.ok E, E) from rfl), h]
  rfl

theorem hostResolve_of_none {load : α → Load α Unit} {r : α} (h : E.modules r = none) :
    hostResolve load r E = load r E := by
  unfold hostResolve
  rw [bind_ok (show Stateful.get E = (.ok E, E) from rfl), h]
  rfl

variable [DecidableEq α]

theorem moduleOf_set : moduleOf m (E.set m d) = (.ok d, E.set m d) :=
  moduleOf_of_some (Function.update_self ..)

theorem update_set (f : ModuleDef α → ModuleDef α) :
    update m f (E.set m d) = (.ok (), E.set m (f d)) := by
  show (Except.ok (), LoadEngine.mk _ _ _ _ _) = _
  simp [LoadEngine.set]

theorem push_set (status : ModuleStatus) :
    push m status (E.set m d) =
      (.ok (), { E with stack := m :: E.stack, index := E.index + 1 }.set m
        { d with status := status, dfsIndex := E.index, dfsAncestorIndex := E.index }) := by
  show (Except.ok (), LoadEngine.mk _ _ _ _ _) = _
  simp [LoadEngine.set]

theorem joinAncestor_set : joinAncestor m m (E.set m d) = (.ok (), E.set m d) := by
  unfold joinAncestor
  rw [bind_ok moduleOf_set, update_set, Nat.min_self]

/-! ## Resolution of modules that are there -/

theorem resolveModule_of_resolved (n : ℕ) {r : α} (h : E.modules r = some d)
    (hd : d.resolved = true) : resolveModule source (n + 1) r E = (.ok (), E) := by
  unfold resolveModule
  rw [bind_ok (moduleOf_of_some h), if_pos hd]
  rfl

/-- In the course of the resolution of `m`, the request of a module that is there is a pointer to it
and nothing else. -/
theorem resolveRequest_known (n : ℕ) {r : α} (hd : d.resolved = true)
    (hr : r ≠ m → ∃ d', E.modules r = some d' ∧ d'.resolved = true) :
    Triple (fun s => s = E.set m d)
      (do
        hostResolve (loadModule source n) r
        update m fun d => { d with filled := d.filled ++ [r] }
        resolveModule source n r)
      (fun _ s => s = E.set m { d with filled := d.filled ++ [r] })
      (fun _ s => n = 0 ∧ s.log = E.log) := by
  have hknown : ∀ D : ModuleDef α, D.resolved = true →
      ∃ d', (E.set m D).modules r = some d' ∧ d'.resolved = true := by
    intro D hD
    by_cases hrm : r = m
    · exact ⟨D, hrm ▸ Function.update_self .., hD⟩
    · obtain ⟨d', hd', hres⟩ := hr hrm
      exact ⟨d', (Function.update_of_ne hrm ..).trans hd', hres⟩
  obtain ⟨d₁, hd₁, -⟩ := hknown d hd
  obtain ⟨d₂, hd₂, hres⟩ := hknown { d with filled := d.filled ++ [r] } hd
  refine Triple.step (hostResolve_of_some hd₁) (Triple.step (update_set _) ?_)
  cases n with
  | zero =>
    unfold resolveModule
    exact Triple.raise fun s hs => ⟨rfl, hs ▸ rfl⟩
  | succ n => exact Triple.ofRun (resolveModule_of_resolved n hd₂ hres) rfl

theorem loadModule_locked (n : ℕ) (r : α) (h : E.locked = true) :
    Triple (fun s => s = E) (loadModule source n r) (fun _ _ => False)
      (fun _ s => s.log = E.log) := by
  unfold loadModule
  cases n with
  | zero => exact Triple.raise fun s hs => hs ▸ rfl
  | succ n =>
    refine Triple.step (show Stateful.get E = (.ok E, E) from rfl) ?_
    rw [if_pos h]
    exact Triple.raise fun s hs => hs ▸ rfl

/-- The resolution of a module while the lock is held, or of one that requests known ones only. -/
theorem resolveModule_known (source : α → Option (ModuleText α)) (text : ModuleText α) (n : ℕ)
    (hrequests : ∀ r ∈ text.requests, r ≠ m →
      (∃ d, E.modules r = some d ∧ d.resolved = true) ∨ E.modules r = none ∧ E.locked = true) :
    Triple (fun s => s = E.set m (.compiled text)) (resolveModule source n m)
      (fun _ s => (∀ r ∈ text.requests, r ≠ m → E.modules r ≠ none) ∧
        s = E.set m (.resolvedAlone text))
      (fun _ s => s.log = E.log ∧
        ((∀ r ∈ text.requests, r ≠ m → E.modules r ≠ none) → n < 2)) := by
  unfold resolveModule
  cases n with
  | zero => exact Triple.raise fun s hs => ⟨hs ▸ rfl, fun _ => by omega⟩
  | succ n =>
    refine Triple.step moduleOf_set ?_
    rw [if_neg (show ¬ (ModuleDef.compiled text).resolved = true from Bool.false_ne_true)]
    refine Triple.step (update_set _) (Triple.pre (Triple.forEach (I := fun done s =>
      (∀ r ∈ done, r ≠ m → E.modules r ≠ none) ∧ s = E.set m
        { ModuleDef.compiled text with resolved := true, filled := done }) ?_) ?_)
    · intro done r rest hl
      have hr : r ∈ text.requests := by
        show r ∈ (ModuleDef.compiled text).text.requests
        rw [hl]
        exact List.mem_append_right _ List.mem_cons_self
      refine Triple.assume fun hdone => ?_
      by_cases hknown : r ≠ m → E.modules r ≠ none
      · have hthere := fun hrm => (hrequests r hr hrm).resolve_right fun h => hknown hrm h.1
        refine (resolveRequest_known n rfl hthere).weaken (fun _ hs => hs) ?_ ?_
        · rintro _ s rfl
          refine ⟨fun a ha => ?_, rfl⟩
          rcases List.mem_append.mp ha with ha | ha
          · exact hdone a ha
          · exact List.mem_singleton.mp ha ▸ hknown
        · rintro _ s ⟨hn, hlog⟩
          exact ⟨hlog, fun _ => by omega⟩
      · push Not at hknown
        obtain ⟨hrm, hnone⟩ := hknown
        have hlock : E.locked = true := by
          rcases hrequests r hr hrm with ⟨d, hd, -⟩ | ⟨-, hlock⟩
          · rw [hd] at hnone
            cases hnone
          · exact hlock
        have hload : Triple (fun s => s = E.set m
              { ModuleDef.compiled text with resolved := true, filled := done })
            (hostResolve (loadModule source n) r) (fun _ _ => False) fun _ s => s.log = E.log := by
          rintro s rfl
          rw [hostResolve_of_none ((Function.update_of_ne hrm ..).trans hnone)]
          exact loadModule_locked (E := E.set m _) n r hlock _ rfl
        refine Triple.stop (hload.weaken (fun _ => id) (fun _ _ => id) ?_)
        rintro _ s hs
        exact ⟨hs, fun hall => absurd hnone (hall r hr hrm)⟩
    · rintro s rfl
      exact ⟨fun r hr => absurd hr List.not_mem_nil, rfl⟩

/-! ## Evaluation of a module that requests itself only -/

theorem createFunction_created (n : ℕ) (hd : d.funcCreated = true) :
    createFunction (n + 1) (some m) (E.set m d) = (.ok (), E.set m d) := by
  unfold createFunction
  rw [bind_ok (show deref (some m) (E.set m d) = (.ok m, E.set m d) from rfl),
    bind_ok moduleOf_set, if_pos hd]
  rfl

theorem createFunction_alone (n : ℕ) (hd : d.funcCreated = false)
    (hentries : ∀ a ∈ d.entries, a = some m) :
    Triple (fun s => s = E.set m d) (createFunction n (some m))
      (fun _ s => s = E.set m { d with funcCreated := true })
      (fun _ s => n < 2 ∧ s.log = E.log) := by
  unfold createFunction
  cases n with
  | zero => exact Triple.raise fun s hs => ⟨by omega, hs ▸ rfl⟩
  | succ n =>
    refine Triple.step (show deref (some m) (E.set m d) = (.ok m, E.set m d) from rfl)
      (Triple.step moduleOf_set ?_)
    rw [if_neg (by rw [hd]; exact Bool.false_ne_true)]
    refine Triple.step (update_set _) (Triple.forEach
      (I := fun _ s => s = E.set m { d with funcCreated := true }) ?_)
    intro done a rest hl
    obtain rfl := hentries a (hl ▸ List.mem_append_right _ List.mem_cons_self)
    cases n with
    | zero => exact Triple.raise fun s hs => ⟨by omega, hs ▸ rfl⟩
    | succ n => exact Triple.ofRun (createFunction_created n rfl) rfl

/-- The component of a module that is alone on the stack. -/
theorem popComponent_alone {f : α → Load α Unit} {E' : LoadEngine α}
    (hd : d.dfsIndex = d.dfsAncestorIndex) (hstack : E.stack = [m])
    (hf : f m (E.set m d) = (.ok (), E')) (hstack' : E'.stack = [m]) :
    popComponent m f (E.set m d) = (.ok (), { E' with stack := [] }) := by
  unfold popComponent
  rw [bind_ok moduleOf_set, if_pos hd,
    bind_ok (show Stateful.get (E.set m d) = (.ok (E.set m d), E.set m d) from rfl)]
  have hcomp : component m (E.set m d).stack = [m] := by
    show component m E.stack = [m]
    rw [hstack]
    simp [component]
  have hloop : Stateful.forEach f [m] (E.set m d) = (.ok (), E') := by
    show (f m >>= fun _ => pure ()) (E.set m d) = _
    rw [bind_ok hf]
    rfl
  rw [hcomp, bind_ok hloop]
  show (Except.ok (), LoadEngine.mk _ _ _ _ _) = _
  rw [hstack']
  simp

theorem setLinked_set : setLinked m (E.set m d) = (.ok (),
    { E with log := E.log ++ [LoadEvent.linked m] }.set m { d with status := .linked }) := by
  unfold setLinked
  rw [bind_ok (update_set _)]
  rfl

theorem innerModuleLinking_linking (n : ℕ) (hd : d.status = .linking) :
    innerModuleLinking (n + 1) (some m) (E.set m d) = (.ok (), E.set m d) := by
  unfold innerModuleLinking
  rw [bind_ok (show deref (some m) (E.set m d) = (.ok m, E.set m d) from rfl),
    bind_ok moduleOf_set, hd]
  rfl

theorem innerModuleLinking_alone (n : ℕ) (hd : d.status = .unlinked) (hstack : E.stack = [])
    (hentries : ∀ a ∈ d.entries, a = some m) :
    Triple (fun s => s = E.set m d) (innerModuleLinking n (some m))
      (fun _ s => d.text.links = true ∧
        s = { E with index := E.index + 1, log := E.log ++ [LoadEvent.linked m] }.set m
          { d with status := .linked, dfsIndex := E.index, dfsAncestorIndex := E.index })
      (fun _ s => s.log = E.log ∧ (d.text.links = true → n < 2)) := by
  unfold innerModuleLinking
  cases n with
  | zero => exact Triple.raise fun s hs => ⟨hs ▸ rfl, fun _ => by omega⟩
  | succ n =>
    refine Triple.step (show deref (some m) (E.set m d) = (.ok m, E.set m d) from rfl)
      (Triple.step moduleOf_set ?_)
    rw [hd]
    refine Triple.step (push_set _) (Triple.bind (Triple.forEach
      (I := fun _ s => s = LoadEngine.set { E with stack := m :: E.stack, index := E.index + 1 } m
        { d with status := .linking, dfsIndex := E.index, dfsAncestorIndex := E.index }) ?_)
      fun _ => ?_)
    · intro done a rest hl
      obtain rfl := hentries a (hl ▸ List.mem_append_right _ List.mem_cons_self)
      cases n with
      | zero => exact Triple.stop (Triple.raise fun s hs => ⟨hs ▸ rfl, fun _ => by omega⟩)
      | succ n =>
        refine Triple.step (innerModuleLinking_linking n rfl) (Triple.step rfl
          (Triple.step moduleOf_set ?_))
        rw [if_pos rfl]
        exact Triple.ofRun joinAncestor_set rfl
    · cases hlinks : d.text.links with
      | false =>
        refine Triple.stop (Triple.raise fun s hs => ?_)
        exact ⟨hs ▸ rfl, fun h => absurd h Bool.false_ne_true⟩
      | true =>
        refine Triple.step rfl (Triple.ofRun (popComponent_alone rfl ?_ setLinked_set ?_) ?_)
        · exact congrArg (m :: ·) hstack
        · exact congrArg (m :: ·) hstack
        · refine ⟨rfl, ?_⟩
          rw [hstack]
          rfl

theorem linkModule_alone (n : ℕ) (hd : d.status = .unlinked)
    (hentries : ∀ a ∈ d.entries, a = some m) :
    Triple (fun s => s = E.set m d) (linkModule n m)
      (fun _ s => d.text.links = true ∧
        s = { E with stack := [], index := 1, log := E.log ++ [LoadEvent.linked m] }.set m
          { d with status := .linked, dfsIndex := 0, dfsAncestorIndex := 0 })
      (fun _ s => s.log = E.log ∧ (d.text.links = true → n < 2)) := by
  unfold linkModule
  have hstart : Stateful.modify (fun E : LoadEngine α => { E with stack := [], index := 0 })
      (E.set m d) = ((.ok () : Except Halt Unit),
        LoadEngine.set { E with stack := [], index := 0 } m d) := rfl
  refine Triple.step hstart
    (Triple.onError (innerModuleLinking_alone n hd rfl hentries) fun h => ?_)
  -- the handler changes no log and raises again
  refine Triple.bind (Keeps.get (I := fun s : LoadEngine α =>
    s.log = E.log ∧ (d.text.links = true → n < 2))) fun E₁ => ?_
  dsimp only
  split
  · refine Triple.bind (Keeps.forEach (fun a => ?_) _) fun _ => Triple.raise fun _ => id
    exact update_keeps (P := fun l => l = E.log ∧ (d.text.links = true → n < 2)) a _
  · exact Triple.raise fun _ => id

theorem innerModuleEvaluation_evaluating (n : ℕ) (hd : d.status = .evaluating) :
    innerModuleEvaluation (n + 1) (some m) (E.set m d) = (.ok (), E.set m d) := by
  unfold innerModuleEvaluation
  rw [bind_ok (show deref (some m) (E.set m d) = (.ok m, E.set m d) from rfl),
    bind_ok moduleOf_set, hd]
  rfl

theorem executeModule_set (text : ModuleText α) (hd : d.dfsIndex = d.dfsAncestorIndex) :
    Triple (fun s => s = E.set m d) (executeModule m text)
      (fun _ s => ∃ d', d'.dfsIndex = d'.dfsAncestorIndex ∧
        s = { E with log := E.log ++ [LoadEvent.ran m] }.set m d')
      (fun h s => h = .exception ∧ s.log = E.log ++ [.ran m]) := by
  unfold executeModule
  split
  · exact Triple.step (update_set _)
      (Triple.ofRun rfl ⟨{ d with asyncEvaluation := true }, hd, rfl⟩)
  · refine Triple.step (show record (.ran m) (E.set m d) =
      (.ok (), LoadEngine.set { E with log := E.log ++ [LoadEvent.ran m] } m d) from rfl) ?_
    cases text.throws with
    | true => exact Triple.ofError rfl ⟨rfl, rfl⟩
    | false => exact Triple.ofRun rfl ⟨d, hd, rfl⟩

theorem setEvaluated_set (root : α) : setEvaluated root m (E.set m d) =
    (.ok (), E.set m { d with
      status := if d.asyncEvaluation then .evaluatingAsync else .evaluated
      cycleRoot := some root }) := update_set _

theorem innerModuleEvaluation_alone (n : ℕ) (hd : d.status = .linked) (hstack : E.stack = [])
    (hasync : d.asyncEvaluation = false) (hentries : ∀ a ∈ d.entries, a = some m) :
    Triple (fun s => s = E.set m d) (innerModuleEvaluation n (some m))
      (fun _ s => s.log = E.log ++ [.ran m])
      (fun h s => h = .exception ∧ s.log = E.log ++ [.ran m] ∨
        h = .outOfFuel ∧ n < 2 ∧ s.log = E.log) := by
  unfold innerModuleEvaluation
  cases n with
  | zero => exact Triple.raise fun s hs => .inr ⟨rfl, by omega, hs ▸ rfl⟩
  | succ n =>
    refine Triple.step (show deref (some m) (E.set m d) = (.ok m, E.set m d) from rfl)
      (Triple.step moduleOf_set ?_)
    rw [hd]
    refine Triple.step (push_set _) (Triple.step (update_set _) (Triple.bind (Triple.forEach
      (I := fun _ s => s = LoadEngine.set { E with stack := m :: E.stack, index := E.index + 1 } m
        { d with
          status := .evaluating
          dfsIndex := E.index
          dfsAncestorIndex := E.index
          pendingAsyncDependencies := 0 }) ?_) fun _ => ?_))
    · intro done a rest hl
      obtain rfl := hentries a (hl ▸ List.mem_append_right _ List.mem_cons_self)
      cases n with
      | zero => exact Triple.stop (Triple.raise fun s hs => .inr ⟨rfl, by omega, hs ▸ rfl⟩)
      | succ n =>
        refine Triple.step (innerModuleEvaluation_evaluating n rfl) (Triple.step rfl
          (Triple.step moduleOf_set ?_))
        dsimp only
        rw [if_pos rfl]
        refine Triple.step joinAncestor_set (Triple.step rfl ?_)
        dsimp only
        rw [if_neg (show ¬ d.asyncEvaluation = true by rw [hasync]; exact Bool.false_ne_true)]
        exact Triple.pure fun _ => id
    · refine Triple.step moduleOf_set ?_
      dsimp only
      rw [if_neg (Nat.lt_irrefl 0)]
      refine Triple.bind ((executeModule_set d.text rfl).weaken (fun _ => id) (fun _ _ => id)
        fun _ _ => .inl) fun _ => ?_
      intro s hs
      obtain ⟨d', hd', hs⟩ := hs
      have hstack' : m :: E.stack = [m] := congrArg (m :: ·) hstack
      exact Triple.ofRun
        (popComponent_alone hd' hstack' (setEvaluated_set m) (by exact hstack')) rfl s hs

theorem evaluateModule_alone (n : ℕ) (hd : d.status = .linked) (hpromise : d.promise = false)
    (hasync : d.asyncEvaluation = false) (hentries : ∀ a ∈ d.entries, a = some m) :
    Triple (fun s => s = E.set m d) (evaluateModule n m)
      (fun _ s => s.log = E.log ++ [.ran m]) (fun _ s => n < 2 ∧ s.log = E.log) := by
  have hroot : evaluationRoot m (E.set m d) = (.ok m, E.set m d) := by
    unfold evaluationRoot
    rw [bind_ok moduleOf_set, hd]
    rfl
  have hstart : Stateful.modify (fun E : LoadEngine α => { E with stack := [], index := 0 })
      (E.set m { d with promise := true }) = ((.ok () : Except Halt Unit),
        LoadEngine.set { E with stack := [], index := 0 } m { d with promise := true }) := rfl
  unfold evaluateModule
  refine Triple.step hroot (Triple.step moduleOf_set ?_)
  rw [if_neg (by rw [hpromise]; exact Bool.false_ne_true)]
  refine Triple.step (update_set _) (Triple.step hstart (Triple.onError
    (innerModuleEvaluation_alone n hd rfl hasync hentries) fun h => ?_))
  by_cases hh : h = .exception
  · subst hh
    refine Triple.bind (Q := fun _ s => s.log = E.log ++ [.ran m]) (Triple.get ?_) fun E₁ => ?_
    · rintro s (⟨-, hlog⟩ | ⟨hh, -⟩)
      · exact hlog
      · cases hh
    · rw [if_pos rfl]
      exact Triple.forEach (I := fun _ (s : LoadEngine α) => s.log = E.log ++ [.ran m])
        fun _ a _ _ => update_log (P := fun l => l = E.log ++ [.ran m]) a _
  · refine Triple.bind (Q := fun _ s => n < 2 ∧ s.log = E.log) (Triple.get ?_) fun E₁ => ?_
    · rintro s (⟨hexc, -⟩ | ⟨-, hn, hlog⟩)
      · exact absurd hexc hh
      · exact ⟨hn, hlog⟩
    · rw [if_neg hh]
      exact Triple.raise fun _ => id

/-- A module that requests itself only is linked and runs, or fails to link. -/
theorem evalFunction_alone (n : ℕ) (h : ∀ r ∈ text.requests, r = m) :
    Triple (fun s => s = E.set m (.resolvedAlone text)) (evalFunction n m)
      (fun _ s => text.links = true ∧ s.log = E.log ++ [.linked m, .ran m])
      (fun _ s => (text.links = true → n < 2) ∧
        (s.log = E.log ∨ text.links = true ∧ s.log = E.log ++ [.linked m])) := by
  have hentries : ∀ a ∈ (ModuleDef.resolvedAlone text).entries, a = some m := by
    intro a ha
    rw [ModuleDef.entries_resolvedAlone] at ha
    obtain ⟨r, hr, rfl⟩ := List.mem_map.mp ha
    rw [h r hr]
  have hcreate := createFunction_alone (E := E) n rfl hentries
  have hlink := linkModule_alone (E := E)
    (d := { ModuleDef.resolvedAlone text with funcCreated := true }) n rfl hentries
  have heval := evaluateModule_alone
    (E := { E with stack := [], index := 1, log := E.log ++ [LoadEvent.linked m] })
    (d := { ModuleDef.resolvedAlone text with
      funcCreated := true, status := .linked, dfsIndex := 0, dfsAncestorIndex := 0 })
    n rfl rfl rfl hentries
  unfold evalFunction
  refine Triple.bind (hcreate.weaken (fun _ => id) (fun _ _ => id) ?_) fun _ =>
    Triple.bind (hlink.weaken (fun _ => id) (fun _ _ => id) ?_) fun _ =>
      Triple.assume fun hlinks => heval.weaken (fun _ => id) ?_ ?_
  · rintro _ s ⟨hn, hlog⟩
    exact ⟨fun _ => hn, .inl hlog⟩
  · rintro _ s ⟨hlog, hn⟩
    exact ⟨hn, .inl hlog⟩
  · intro _ s hlog
    exact ⟨hlinks, hlog.trans (List.append_assoc ..)⟩
  · rintro _ s ⟨hn, hlog⟩
    exact ⟨fun _ => hn, .inr ⟨hlinks, hlog⟩⟩

/-! ## An ancestor that is still being resolved -/

/-- A module with an entry that is still `NULL` cannot be made a function. -/
theorem createFunction_null (n : ℕ) (hm : E.modules m = some d) (hd : d.funcCreated = false)
    (hnull : none ∈ d.entries) :
    Triple (fun s => s = E) (createFunction n (some m)) (fun _ _ => False)
      (fun _ s => s.log = E.log) := by
  unfold createFunction
  cases n with
  | zero => exact Triple.raise fun s hs => hs ▸ rfl
  | succ n =>
    refine Triple.step (show deref (some m) E = (.ok m, E) from rfl)
      (Triple.step (moduleOf_of_some hm) ?_)
    rw [if_neg (by rw [hd]; exact Bool.false_ne_true)]
    refine Triple.bind (Q := fun _ s => none ∉ ([] : List (Option α)) ∧ s.log = E.log) ?_ fun _ =>
      (Triple.forEach (I := fun done (s : LoadEngine α) => none ∉ done ∧ s.log = E.log) ?_).post
        fun _ s hs => hs.1 hnull
    · exact Triple.modify fun s hs => ⟨List.not_mem_nil, hs ▸ rfl⟩
    · intro done a rest hl
      refine Triple.assume fun hdone => ?_
      cases a with
      | none =>
        refine Triple.weaken (Q := fun _ _ => False) ?_ (fun _ => id) (fun _ _ => False.elim)
          fun _ _ => id
        unfold createFunction
        cases n with
        | zero => exact Triple.raise fun _ => id
        | succ n => exact Triple.stop (Triple.raise fun _ => id)
      | some a =>
        refine Triple.post (createFunction_keeps (P := fun l => l = E.log) n (some a)) ?_
        intro _ s hs
        refine ⟨fun hmem => ?_, hs⟩
        rcases List.mem_append.mp hmem with hmem | hmem
        · exact hdone hmem
        · cases List.mem_singleton.mp hmem

/-- Neither can one that requests such a module. -/
theorem createFunction_ancestor (n : ℕ) {e : α} {D : ModuleDef α} (hd : d.funcCreated = false)
    (hentries : ∀ a ∈ d.entries, a = some m ∨ a = some e) (hmem : some e ∈ d.entries) (hem : e ≠ m)
    (he : E.modules e = some D) (hD : D.funcCreated = false) (hnull : none ∈ D.entries) :
    Triple (fun s => s = E.set m d) (createFunction n (some m)) (fun _ _ => False)
      (fun _ s => s.log = E.log) := by
  unfold createFunction
  cases n with
  | zero => exact Triple.raise fun s hs => hs ▸ rfl
  | succ n =>
    refine Triple.step (show deref (some m) (E.set m d) = (.ok m, E.set m d) from rfl)
      (Triple.step moduleOf_set ?_)
    rw [if_neg (by rw [hd]; exact Bool.false_ne_true)]
    refine Triple.step (update_set _) (Triple.pre (P := fun s => some e ∉ ([] : List (Option α)) ∧
      s = E.set m { d with funcCreated := true }) ?_ fun s hs => ⟨List.not_mem_nil, hs⟩)
    refine (Triple.forEach (I := fun done s => some e ∉ done ∧
      s = E.set m { d with funcCreated := true }) ?_).post fun _ s hs => hs.1 hmem
    intro done a rest hl
    refine Triple.assume fun hdone => ?_
    rcases hentries a (hl ▸ List.mem_append_right _ List.mem_cons_self) with rfl | rfl
    · cases n with
      | zero => exact Triple.raise fun s hs => hs ▸ rfl
      | succ n =>
        refine Triple.ofRun (createFunction_created n rfl) ⟨fun hmem => ?_, rfl⟩
        rcases List.mem_append.mp hmem with hmem | hmem
        · exact hdone hmem
        · exact hem (Option.some.inj (List.mem_singleton.mp hmem))
    · exact (createFunction_null n ((Function.update_of_ne hem ..).trans he) hD hnull).post
        fun _ _ => False.elim

/-! ## The loader -/

theorem compileModule_of_some {resolve : α → Load α Unit} {Q : Unit → LoadEngine α → Prop}
    {P : List (LoadEvent α) → Prop} (hsource : source m = some text)
    (hresolve : Triple
      (fun s => s = { E with log := E.log ++ [LoadEvent.loaded m] }.set m (.compiled text))
      (resolve m) Q (fun _ s => P s.log)) :
    Triple (fun s => s = E) (compileModule source resolve m) Q (fun _ s => P s.log) := by
  unfold compileModule
  rw [hsource]
  refine Triple.step rfl (Triple.step rfl (Triple.onError hresolve fun h => ?_))
  dsimp only
  split
  · exact Triple.bind (Keeps.modify fun _ => id) fun _ => Triple.raise fun _ => id
  · exact Triple.raise fun _ => id

omit [DecidableEq α] in
theorem requests_of_runsAlone (h : RunsAlone source m) (hsource : source m = some text) :
    text.links = true ∧ ∀ r ∈ text.requests, r = m := by
  obtain ⟨text', htext, hlinks, hrequests⟩ := h
  rw [hsource] at htext
  cases htext
  exact ⟨hlinks, hrequests⟩

/-- The compilation and evaluation of a module under the lock, for `e` whose requests are being
resolved. -/
theorem compileEval_first (source : α → Option (ModuleText α)) (n : ℕ) {e : α}
    {D : ModuleDef α} (hlock : E.locked = true) (hem : e ≠ m)
    (he : E.modules e = some D) (hresolved : D.resolved = true) (hcreated : D.funcCreated = false)
    (hnull : none ∈ D.entries) (hothers : ∀ r, r ≠ e → E.modules r = none) :
    Triple (fun s => s = E) (do
        compileModule source (resolveModule source n) m
        evalFunction n m)
      (fun _ s => RunsAlone source m ∧ s.log = E.log ++ [.loaded m, .linked m, .ran m])
      (fun _ s => (RunsAlone source m → n < 2) ∧
        ∃ l, (∀ a, LoadEvent.ran a ∉ l) ∧ s.log = E.log ++ l) := by
  cases hsource : source m with
  | none =>
    have hraise : compileModule source (resolveModule source n) m E = (.error .exception, E) := by
      unfold compileModule
      rw [hsource]
      rfl
    · refine Triple.stop (Triple.ofError hraise ?_)
      refine ⟨fun halone => ?_, [], by simp, by simp⟩
      obtain ⟨text, htext, -⟩ := halone
      rw [hsource] at htext
      cases htext
  | some text =>
    have hresolve := resolveModule_known (m := m)
      (E := { E with log := E.log ++ [LoadEvent.loaded m] }) source text n fun r _ _ => by
        by_cases hre : r = e
        · exact .inl ⟨D, hre ▸ he, hresolved⟩
        · exact .inr ⟨hothers r hre, hlock⟩
    refine Triple.bind (compileModule_of_some (P := fun l' => (RunsAlone source m → n < 2) ∧
      ∃ l, (∀ a, LoadEvent.ran a ∉ l) ∧ l' = E.log ++ l) hsource
        (hresolve.weaken (fun _ => id) (fun _ _ => id) ?_)) fun _ => Triple.assume fun hknown => ?_
    · rintro _ s ⟨hlog, hn⟩
      refine ⟨fun halone => hn fun r hr hrm => ?_, [.loaded m], by simp, hlog⟩
      exact absurd ((requests_of_runsAlone halone hsource).2 r hr) hrm
    by_cases halone : ∀ r ∈ text.requests, r = m
    · refine (evalFunction_alone n halone).weaken (fun _ => id) ?_ ?_
      · rintro _ s ⟨hlinks, hlog⟩
        exact ⟨⟨text, hsource, hlinks, halone⟩, hlog.trans (List.append_assoc ..)⟩
      · rintro _ s ⟨hn, hlog | ⟨-, hlog⟩⟩
        · exact ⟨fun h => hn (requests_of_runsAlone h hsource).1, [.loaded m], by simp, hlog⟩
        · exact ⟨fun h => hn (requests_of_runsAlone h hsource).1, [.loaded m, .linked m], by simp,
            hlog.trans (List.append_assoc ..)⟩
    · -- a request other than `m` is one of `e`, whose entries are half filled
      have hentries : ∀ a ∈ (ModuleDef.resolvedAlone text).entries, a = some m ∨ a = some e := by
        intro a ha
        rw [ModuleDef.entries_resolvedAlone] at ha
        obtain ⟨r, hr, rfl⟩ := List.mem_map.mp ha
        by_cases hrm : r = m
        · exact .inl (congrArg some hrm)
        · refine .inr (congrArg some ?_)
          by_contra hre
          exact hknown r hr hrm (hothers r hre)
      have hmem : some e ∈ (ModuleDef.resolvedAlone text).entries := by
        push Not at halone
        obtain ⟨r, hr, hrm⟩ := halone
        have hin : some r ∈ (ModuleDef.resolvedAlone text).entries := by
          rw [ModuleDef.entries_resolvedAlone]
          exact List.mem_map_of_mem hr
        rcases hentries _ hin with h | h
        · exact absurd (Option.some.inj h) hrm
        · rwa [h] at hin
      unfold evalFunction
      refine Triple.stop ((createFunction_ancestor
        (E := { E with log := E.log ++ [LoadEvent.loaded m] }) n rfl hentries hmem hem he hcreated
          hnull).weaken (fun _ => id) (fun _ _ => id) ?_)
      intro _ s hlog
      exact ⟨fun h => absurd (requests_of_runsAlone h hsource).2 halone, [.loaded m], by simp, hlog⟩

/-- The first module that is loaded for `e` runs at once if it can run alone, and otherwise the
loading does not go on. -/
theorem loadModule_first (n : ℕ) {e : α} {D : ModuleDef α} (hlock : E.locked = false) (hem : e ≠ m)
    (he : E.modules e = some D) (hresolved : D.resolved = true) (hcreated : D.funcCreated = false)
    (hnull : none ∈ D.entries) (hothers : ∀ r, r ≠ e → E.modules r = none) :
    Triple (fun s => s = E) (loadModule source n m)
      (fun _ s => RunsAlone source m ∧ s.log = E.log ++ [.loaded m, .linked m, .ran m])
      (fun _ s => (RunsAlone source m → n < 3) ∧
        ∃ l, (∀ a, LoadEvent.ran a ∉ l) ∧ s.log = E.log ++ l) := by
  unfold loadModule
  cases n with
  | zero => exact Triple.raise fun s hs => ⟨fun _ => by omega, [], by simp, by simp [hs]⟩
  | succ n =>
    refine Triple.step (show Stateful.get E = (.ok E, E) from rfl) ?_
    rw [if_neg (by rw [hlock]; exact Bool.false_ne_true)]
    have hstart : Stateful.modify (fun E : LoadEngine α => { E with locked := true }) E =
      ((.ok () : Except Halt Unit), { E with locked := true }) := rfl
    have hrun := compileEval_first (E := { E with locked := true }) source n rfl hem he
      hresolved hcreated hnull hothers
    refine Triple.step hstart (Triple.bind (Triple.onError hrun fun h => ?_) fun _ =>
      Triple.modify fun _ => id)
    refine Triple.weaken (Q := fun _ _ => False) (R := fun _ s => (RunsAlone source m → n < 2) ∧
      ∃ l, (∀ a, LoadEvent.ran a ∉ l) ∧ s.log = E.log ++ l) ?_ (fun _ => id)
        (fun _ _ => False.elim) fun _ _ hs => ⟨fun h => by have := hs.1 h; omega, hs.2⟩
    dsimp only
    split
    · exact Triple.bind (Keeps.modify fun _ => id) fun _ => Triple.raise fun _ => id
    · exact Triple.raise fun _ => id

/-! ## The entry -/

theorem resolveModule_first (n : ℕ) {first : α} {P : List (LoadEvent α) → Prop}
    {R : Halt → LoadEngine α → Prop} (hP : ∀ l event, P l → P (l ++ [event]))
    (hPR : ∀ h s, P s.log → R h s)
    (hfirst : text.requests.find? (fun r => decide (r ≠ m)) = some first)
    (hzero : ∀ h s, n = 0 → s.log = E.log → R h s)
    (hload : ∀ done, done.length < text.requests.length → Triple
      (fun s => s = E.set m { ModuleDef.compiled text with resolved := true, filled := done })
      (loadModule source n first) (fun _ s => P s.log) R)
    (hnone : E.modules first = none) :
    Triple (fun s => s = E.set m (.compiled text)) (resolveModule source (n + 1) m)
      (fun _ s => P s.log) R := by
  unfold resolveModule
  refine Triple.step moduleOf_set ?_
  rw [if_neg (show ¬ (ModuleDef.compiled text).resolved = true from Bool.false_ne_true)]
  refine Triple.step (update_set _) (Triple.weaken (R := R) (Triple.forEach (I := fun done s =>
    ((∀ r ∈ done, r = m) ∧
      s = E.set m { ModuleDef.compiled text with resolved := true, filled := done }) ∨ P s.log) ?_)
    (fun s hs => .inl ⟨by simp, hs⟩) ?_ fun _ _ => id)
  · intro done r rest hl
    change text.requests = done ++ r :: rest at hl
    obtain ⟨hresolve, hloads⟩ := resolve_load_keeps hP source n
    -- what comes after the first load keeps the property
    have hrest : Triple (fun s : LoadEngine α => P s.log) (do
        update m fun d => { d with filled := d.filled ++ [r] }
        resolveModule source n r)
        (fun _ s => ((∀ a ∈ done ++ [r], a = m) ∧ s = E.set m
          { ModuleDef.compiled text with resolved := true, filled := done ++ [r] }) ∨ P s.log) R :=
      Triple.bind (update_log m _) fun _ =>
        (hresolve r).weaken (fun _ => id) (fun _ _ => .inr) fun h s => hPR h s
    refine Triple.cases (Triple.assume fun hdone => ?_) ?_
    · by_cases hrm : r = m
      · subst hrm
        refine (resolveRequest_known n rfl fun h => absurd rfl h).weaken (fun _ => id) ?_ ?_
        · intro _ s hs
          refine .inl ⟨fun a ha => ?_, hs⟩
          rcases List.mem_append.mp ha with ha | ha
          · exact hdone a ha
          · exact List.mem_singleton.mp ha
        · rintro h s ⟨hn, hlog⟩
          exact hzero h s hn hlog
      · have hr : r = first := by
          rw [hl, List.find?_append, List.find?_eq_none.mpr (by simpa using hdone), Option.none_or,
            List.find?_cons_of_pos (by simpa using hrm)] at hfirst
          exact Option.some.inj hfirst
        subst hr
        refine Triple.bind (Q := fun _ s => P s.log) ?_ fun _ => hrest
        rintro s rfl
        rw [hostResolve_of_none ((Function.update_of_ne hrm ..).trans hnone)]
        refine hload done ?_ _ rfl
        rw [hl, List.length_append, List.length_cons]
        omega
    · refine Triple.bind ?_ fun _ => hrest
      refine Triple.bind (Triple.get (Q := fun _ (s : LoadEngine α) => P s.log) fun _ => id)
        fun _ => ?_
      split
      · exact Triple.pure fun _ => id
      · exact (hloads r).weaken (fun _ => id) (fun _ _ => id) fun h s => hPR h s
  · rintro _ s (⟨hall, -⟩ | hs)
    · have hmem := List.mem_of_find?_eq_some hfirst
      have hne := List.find?_some hfirst
      exact absurd (hall first hmem) (of_decide_eq_true hne)
    · exact hs

/-- The engine in which the entry is compiled. -/
def entryEngine (entry : α) : LoadEngine α := { LoadEngine.empty with log := [.loaded entry] }

/-- The first load, after the requests of the entry for itself. -/
theorem loadModule_entry (n : ℕ) {first : α} (hne : first ≠ m) (done : List α)
    (hlen : done.length < text.requests.length) :
    Triple (fun s => s = (entryEngine m).set m
        { ModuleDef.compiled text with resolved := true, filled := done })
      (loadModule source n first)
      (fun _ s => RunsAlone source first ∧
        s.log = [.loaded m, .loaded first, .linked first, .ran first])
      (fun _ s => (RunsAlone source first → n < 3) ∧
        ∃ l, (∀ a, LoadEvent.ran a ∉ l) ∧ s.log = .loaded m :: l) := by
  refine loadModule_first n rfl hne.symm (Function.update_self ..) rfl rfl ?_ fun r hr =>
    Function.update_of_ne hr ..
  refine List.mem_append_right _ (List.mem_replicate.mpr ⟨?_, rfl⟩)
  exact Nat.sub_ne_zero_of_lt hlen

/-- An entry that requests itself only. -/
theorem loadEntry_alone (n : ℕ) (hsource : source m = some text) (h : ∀ r ∈ text.requests, r = m) :
    Triple (fun s => s = LoadEngine.empty) (loadEntry source n m)
      (fun _ s => text.links = true ∧ s.log = [.loaded m, .linked m, .ran m])
      (fun _ s => ∀ a, LoadEvent.ran a ∉ s.log) := by
  have hresolve := resolveModule_known (m := m) (E := entryEngine m) source text n
    fun r hr hrm => absurd (h r hr) hrm
  refine Triple.bind (compileModule_of_some (P := fun l => ∀ a, LoadEvent.ran a ∉ l) hsource
    (hresolve.weaken (fun _ => id) (fun _ _ hs => hs.2) ?_)) fun _ =>
      (evalFunction_alone n h).weaken (fun _ => id) (fun _ _ => id) ?_
  · rintro _ s ⟨hlog, -⟩
    rw [hlog]
    simp [entryEngine]
  · rintro _ s ⟨-, hlog | ⟨-, hlog⟩⟩
    · rw [hlog]
      simp [entryEngine]
    · rw [hlog]
      simp [entryEngine]

/-- An entry whose first request cannot run alone. -/
theorem loadEntry_blocked (n : ℕ) {first : α} (hsource : source m = some text)
    (hfirst : text.requests.find? (fun r => decide (r ≠ m)) = some first)
    (halone : ¬ RunsAlone source first) :
    Triple (fun s => s = LoadEngine.empty) (loadEntry source n m) (fun _ _ => False)
      (fun _ s => ∀ a, LoadEvent.ran a ∉ s.log) := by
  have hne : first ≠ m := by simpa using List.find?_some hfirst
  have hentry : ∀ a, LoadEvent.ran a ∉ (entryEngine m).log := by simp [entryEngine]
  refine Triple.stop (compileModule_of_some (P := fun l => ∀ a, LoadEvent.ran a ∉ l)
    (E := LoadEngine.empty) hsource ?_)
  cases n with
  | zero =>
    unfold resolveModule
    exact Triple.raise fun s hs => by rw [hs]; exact hentry
  | succ n =>
    refine resolveModule_first (E := entryEngine m) (P := fun _ => False) n (fun _ _ => False.elim)
      (fun _ _ => False.elim) hfirst ?_ ?_ rfl
    · rintro _ s - hlog
      rw [hlog]
      exact hentry
    · intro done hlen
      refine (loadModule_entry n hne done hlen).weaken (fun _ => id) ?_ ?_
      · rintro _ s ⟨h, -⟩
        exact halone h
      · rintro _ s ⟨-, l, hl, hlog⟩
        rw [hlog]
        simpa using hl

/-- An entry whose first request runs alone. -/
theorem loadEntry_early {first : α} (hsource : source m = some text)
    (hfirst : text.requests.find? (fun r => decide (r ≠ m)) = some first)
    (halone : RunsAlone source first) :
    [.loaded m, .loaded first, .linked first, .ran first] <+:
      (loadEntry source 4 m LoadEngine.empty).2.log := by
  have hne : first ≠ m := by simpa using List.find?_some hfirst
  obtain ⟨start, hstart⟩ : ∃ start : List (LoadEvent α),
    [.loaded m, .loaded first, .linked first, .ran first] = start := ⟨_, rfl⟩
  rw [hstart]
  have hgrows : ∀ (l : List (LoadEvent α)) event, start <+: l → start <+: l ++ [event] :=
    fun l event h => h.trans (List.prefix_append l [event])
  have hresolve : Triple (fun s => s = (entryEngine m).set m (.compiled text))
      (resolveModule source 4 m) (fun _ s => start <+: s.log) (fun _ s => start <+: s.log) := by
    refine resolveModule_first 3 hgrows (fun _ _ => id) hfirst (fun _ _ h => absurd h (by decide))
      ?_ rfl
    intro done hlen
    refine (loadModule_entry 3 hne done hlen).weaken (fun _ => id) ?_ ?_
    · rintro _ s ⟨-, hlog⟩
      have hsame : s.log = start := hlog.trans hstart
      exact hsame ▸ List.prefix_refl start
    · rintro _ s ⟨h, -⟩
      exact absurd (h halone) (by decide)
  have hrun : Triple (fun s => s = LoadEngine.empty) (loadEntry source 4 m)
      (fun _ s => start <+: s.log) (fun _ s => start <+: s.log) :=
    Triple.bind (compileModule_of_some (P := fun l => start <+: l) (E := LoadEngine.empty) hsource
      hresolve) fun _ => evalFunction_keeps (P := fun l => start <+: l) hgrows 4 m
  have hend := hrun LoadEngine.empty rfl
  revert hend
  rcases loadEntry source 4 m LoadEngine.empty with ⟨r, s⟩
  cases r with
  | ok _ => exact id
  | error _ => exact id

end Load

/-! ## The order of loads and runs -/

section Order

variable {α : Type} [DecidableEq α] {source : α → Option (ModuleText α)} {entry : α}
  {log : List (LoadEvent α)}

theorem graphFirst_of_no_run (h : ∀ a, LoadEvent.ran a ∉ log) : GraphFirst source entry log := by
  refine ⟨fun before m after hlog => absurd ?_ (h m), fun _ => h, fun m => ?_⟩
  · rw [hlog]
    exact List.mem_append_right _ List.mem_cons_self
  · rw [List.count_eq_zero.mpr (h m)]
    exact Nat.zero_le 1

omit [DecidableEq α] in
/-- A module that requests itself only reaches nothing else. -/
theorem reaches_alone {text : ModuleText α} (hsource : source entry = some text)
    (h : ∀ r ∈ text.requests, r = entry) {a : α} (ha : Reaches source entry a) : a = entry := by
  induction ha with
  | refl => rfl
  | tail _ hstep ih =>
    obtain ⟨text', htext, hmem⟩ := hstep
    rw [ih, hsource] at htext
    cases htext
    exact h _ hmem

theorem graphFirst_alone {text : ModuleText α} (hsource : source entry = some text)
    (h : ∀ r ∈ text.requests, r = entry) (hlinks : text.links = true) :
    GraphFirst source entry [.loaded entry, .linked entry, .ran entry] := by
  constructor
  · intro before m after hlog a ha
    obtain rfl := reaches_alone hsource h ha
    have hsplit : before = [.loaded a, .linked a] := by
      rcases before with _ | ⟨b, _ | ⟨c, _ | ⟨d, rest⟩⟩⟩
      · simp at hlog
      · simp at hlog
      · simp at hlog
        rw [hlog.1, hlog.2.1]
      · simp at hlog
    rw [hsplit]
    simp
  · rintro ⟨a, ha, hload⟩ _
    obtain rfl := reaches_alone hsource h ha
    exact absurd ⟨text, hsource, hlinks⟩ hload
  · intro m
    rw [List.count_cons_of_ne (by simp), List.count_cons_of_ne (by simp), List.count_singleton]
    split
    · exact Nat.le_refl 1
    · exact Nat.zero_le 1

theorem loadEntry_graphFirst_iff (source : α → Option (ModuleText α)) (entry : α) :
    (∀ n, GraphFirst source entry (Load.loadEntry source n entry LoadEngine.empty).2.log) ↔
      ¬ RunsEarly source entry := by
  constructor
  · rintro hfirst ⟨text, first, hsource, hfind, halone⟩
    obtain ⟨rest, hlog⟩ := Load.loadEntry_early hsource hfind halone
    have hcomplete := (hfirst 4).complete [.loaded entry, .loaded first, .linked first] first rest
      (by rw [← hlog]; rfl) entry .refl
    have hne : first ≠ entry := by simpa using List.find?_some hfind
    simpa [hne.symm] using hcomplete.2
  · intro hearly n
    cases hsource : source entry with
    | none =>
      have hlog : (Load.loadEntry source n entry LoadEngine.empty).2.log = [] := by
        unfold Load.loadEntry Load.compileModule
        rw [hsource]
        rfl
      rw [hlog]
      exact graphFirst_of_no_run fun _ => List.not_mem_nil
    | some text =>
      cases hfind : text.requests.find? (fun r => decide (r ≠ entry)) with
      | some first =>
        have hrun := Load.loadEntry_blocked n hsource hfind
          (fun halone => hearly ⟨text, first, hsource, hfind, halone⟩) LoadEngine.empty rfl
        revert hrun
        rcases Load.loadEntry source n entry LoadEngine.empty with ⟨r, s⟩
        cases r with
        | ok _ => exact False.elim
        | error _ => exact graphFirst_of_no_run
      | none =>
        have hself : ∀ r ∈ text.requests, r = entry := by simpa using hfind
        have hrun := Load.loadEntry_alone n hsource hself LoadEngine.empty rfl
        revert hrun
        rcases Load.loadEntry source n entry LoadEngine.empty with ⟨r, s⟩
        cases r with
        | ok _ =>
          rintro ⟨hlinks, hlog⟩
          dsimp only at hlog ⊢
          rw [hlog]
          exact graphFirst_alone hsource hself hlinks
        | error _ => exact graphFirst_of_no_run

end Order

/-- A graph whose entry requests a module without requests, and then one that is missing. -/
def sampleGraph (name : String) : Option (ModuleText String) :=
  if name = "./main.js" then
    some { requests := ["./b.js", "./c.js"], links := true, hasTla := false, throws := false }
  else if name = "./b.js" then
    some { requests := [], links := true, hasTla := false, throws := false }
  else none

/-- The first module runs although the second is missing. -/
theorem sampleGraph_runs_early : ¬ GraphFirst sampleGraph "./main.js"
    (Load.loadEntry sampleGraph 4 "./main.js" LoadEngine.empty).2.log := by
  intro h
  have hmissing : Reaches sampleGraph "./main.js" "./c.js" :=
    .single ⟨{ requests := ["./b.js", "./c.js"], links := true, hasTla := false, throws := false },
      rfl, by decide⟩
  refine h.noEffect ⟨"./c.js", hmissing, ?_⟩ "./b.js" (by decide)
  rintro ⟨text, htext, -⟩
  cases htext

end BeamJS
