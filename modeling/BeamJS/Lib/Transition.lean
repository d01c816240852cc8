/-!
# Labelled transition systems

Runs of a system with an initial condition and labelled steps, the invariant rule, and the
restriction of a system to the steps that meet a condition. Nothing here refers to a particular
program.
-/

namespace Lib

universe u v w z

/-- A labelled transition system: the initial states and the steps. -/
structure Lts (σ : Type u) (α : Type v) where
  /-- The states a run may start in. -/
  init : σ → Prop
  /-- `step s a t`: the system moves from `s` to `t` by the action `a`. -/
  step : σ → α → σ → Prop

namespace Lts

variable {σ : Type u} {α : Type v} {M : Lts σ α}

/-- `M.Run s tr t`: a run from `s` to `t`. The trace `tr` lists each step as the state it was taken
in and its action. -/
inductive Run (M : Lts σ α) : σ → List (σ × α) → σ → Prop where
  /-- The run that takes no step. -/
  | nil (s : σ) : Run M s [] s
  /-- A run followed by one more step. -/
  | snoc {s t u : σ} {tr : List (σ × α)} {a : α} :
      Run M s tr t → M.step t a u → Run M s (tr ++ [(t, a)]) u

/-- The states a run with trace `tr` and last state `t` goes through. -/
def visited (tr : List (σ × α)) (t : σ) : List σ := tr.map Prod.fst ++ [t]

/-- A state some run from an initial state ends in. -/
def Reachable (M : Lts σ α) (t : σ) : Prop := ∃ s tr, M.init s ∧ M.Run s tr t

/-- The system in which a step is only taken where `C` allows it. -/
def restrict (M : Lts σ α) (C : σ → α → Prop) : Lts σ α where
  init := M.init
  step s a t := M.step s a t ∧ C s a

/-- The invariant rule along a run. -/
theorem Run.invariant {I : σ → Prop} {s t : σ} {tr : List (σ × α)} (h : M.Run s tr t) (hs : I s)
    (hstep : ∀ u a v, I u → M.step u a v → I v) : I t := by
  induction h with
  | nil => exact hs
  | snoc _ hst ih => exact hstep _ _ _ ih hst

/-- The invariant rule: what holds initially and is kept by every step holds in every reachable
state. -/
theorem Reachable.invariant {I : σ → Prop} (hinit : ∀ s, M.init s → I s)
    (hstep : ∀ u a v, I u → M.step u a v → I v) {t : σ} (h : M.Reachable t) : I t := by
  obtain ⟨s, tr, hs, hrun⟩ := h
  exact hrun.invariant (hinit s hs) hstep

theorem Reachable.of_init {s : σ} (h : M.init s) : M.Reachable s := ⟨s, [], h, .nil s⟩

theorem Reachable.step {s t : σ} {a : α} (h : M.Reachable s) (hst : M.step s a t) :
    M.Reachable t := by
  obtain ⟨s0, tr, h0, hrun⟩ := h
  exact ⟨s0, tr ++ [(s, a)], h0, hrun.snoc hst⟩

theorem Run.append {s t u : σ} {tr tr' : List (σ × α)} (h : M.Run s tr t) (h' : M.Run t tr' u) :
    M.Run s (tr ++ tr') u := by
  induction h' with
  | nil => simpa using h
  | snoc _ hst ih =>
    rw [← List.append_assoc]
    exact ih.snoc hst

/-- A run goes through each step of its trace. -/
theorem Run.split {s t : σ} {tr tr' : List (σ × α)} {e : σ × α} (h : M.Run s (tr ++ e :: tr') t) :
    M.Run s tr e.1 ∧ ∃ u, M.step e.1 e.2 u ∧ M.Run u tr' t := by
  generalize htr : tr ++ e :: tr' = l at h
  induction h generalizing tr' with
  | nil => simp at htr
  | @snoc v w l a hrun hst ih =>
    rcases List.eq_nil_or_concat tr' with rfl | ⟨tr₀, e', rfl⟩
    · obtain ⟨rfl, rfl⟩ := List.append_inj' htr rfl |>.imp id List.singleton_inj.mp
      exact ⟨hrun, w, hst, .nil w⟩
    · rw [List.concat_eq_append, ← List.cons_append, ← List.append_assoc] at htr
      obtain ⟨rfl, he⟩ := List.append_inj' htr rfl
      obtain rfl := List.singleton_inj.mp he
      obtain ⟨hleft, u, hu, hright⟩ := ih rfl
      rw [List.concat_eq_append]
      exact ⟨hleft, u, hu, hright.snoc hst⟩

/-- A step function run through a list of actions. -/
def exec (f : α → σ → Option σ) (acts : List α) (s : σ) : Option σ :=
  match acts with
  | [] => some s
  | a :: acts => (f a s).bind fun t => exec f acts t

/-- What a step function executes is a run. -/
theorem Run.of_exec {f : α → σ → Option σ} (hf : ∀ s a t, f a s = some t → M.step s a t)
    {acts : List α} {s t : σ} (h : exec f acts s = some t) :
    ∃ tr, tr.map Prod.snd = acts ∧ M.Run s tr t := by
  induction acts generalizing s with
  | nil =>
    cases h
    exact ⟨[], rfl, .nil _⟩
  | cons a acts ih =>
    obtain ⟨u, hu, hrest⟩ := Option.bind_eq_some_iff.mp h
    obtain ⟨tr, htr, hrun⟩ := ih hrest
    have hfirst : M.Run s ([] ++ [(s, a)]) u := (Run.nil s).snoc (hf s a u hu)
    exact ⟨(s, a) :: tr, by rw [List.map_cons, htr], hfirst.append hrun⟩

/-- What a step function executes from an initial state is reachable. -/
theorem Reachable.of_exec {f : α → σ → Option σ} (hf : ∀ s a t, f a s = some t → M.step s a t)
    {acts : List α} {s t : σ} (hs : M.init s) (h : exec f acts s = some t) : M.Reachable t := by
  obtain ⟨tr, -, hrun⟩ := Run.of_exec hf h
  exact ⟨s, tr, hs, hrun⟩

/-- The simulation rule: where every step of `M` is matched by some run of `N`, what `M` reaches is
related to something that `N` reaches. -/
theorem Reachable.simulate {τ : Type w} {β : Type z} {N : Lts τ β} {R : σ → τ → Prop}
    (hinit : ∀ s, M.init s → ∃ t, N.init t ∧ R s t)
    (hstep : ∀ s a s' t, M.step s a s' → N.Reachable t → R s t → ∃ t', N.Reachable t' ∧ R s' t')
    {s : σ} (h : M.Reachable s) : ∃ t, N.Reachable t ∧ R s t := by
  refine h.invariant (I := fun s => ∃ t, N.Reachable t ∧ R s t) (fun s hs => ?_) ?_
  · obtain ⟨t, ht, hR⟩ := hinit s hs
    exact ⟨t, .of_init ht, hR⟩
  · rintro s a s' ⟨t, ht, hR⟩ hst
    exact hstep s a s' t hst ht hR

/-- Every step of a run starts in a state the invariant holds in and leads to a state the run goes
through. -/
theorem Run.step_of_mem {I : σ → Prop} {s t : σ} {tr : List (σ × α)} (h : M.Run s tr t) (hs : I s)
    (hstep : ∀ u a v, I u → M.step u a v → I v) :
    ∀ e ∈ tr, I e.1 ∧ ∃ v, M.step e.1 e.2 v ∧ v ∈ visited tr t := by
  induction h with
  | nil => intro e he; simp at he
  | @snoc v w tr a hrun hst ih =>
    intro e he
    rcases List.mem_append.mp he with he | he
    · obtain ⟨hI, v', hv, hmem⟩ := ih e he
      refine ⟨hI, v', hv, ?_⟩
      simp only [visited, List.map_append, List.map_cons, List.map_nil] at hmem ⊢
      exact List.mem_append_left _ hmem
    · have he' : e = (v, a) := by simpa using he
      subst he'
      exact ⟨hrun.invariant hs hstep, w, hst, by simp [visited]⟩

/-- A run whose steps all meet `C` is a run of the restricted system. -/
theorem Run.restrict {C : σ → α → Prop} {s t : σ} {tr : List (σ × α)} (h : M.Run s tr t)
    (hC : ∀ e ∈ tr, C e.1 e.2) : (M.restrict C).Run s tr t := by
  induction h with
  | nil => exact .nil _
  | @snoc v w tr a _ hst ih =>
    exact .snoc (ih fun e he => hC e (List.mem_append_left _ he)) ⟨hst, hC (v, a) (by simp)⟩

/-- Every state a run goes through satisfies an invariant of the system. -/
theorem Run.visited_invariant {I : σ → Prop} {s t : σ} {tr : List (σ × α)} (h : M.Run s tr t)
    (hs : I s) (hstep : ∀ u a v, I u → M.step u a v → I v) : ∀ x ∈ visited tr t, I x := by
  intro x hx
  rcases List.mem_append.mp hx with hx | hx
  · obtain ⟨e, he, rfl⟩ := List.mem_map.mp hx
    exact (h.step_of_mem hs hstep e he).1
  · have hxt : x = t := by simpa using hx
    exact hxt ▸ h.invariant hs hstep

end Lts

end Lib
