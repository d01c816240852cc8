import BeamJS.Lib.Program

/-!
# Computations that run alike

Two computations on states run alike under a relation of their states if from related states they
return or raise the same and end in related states again. The rules follow the structure of the
computations; programs run alike if their operations do.
-/

namespace Lib

universe u

/-- A computation on a state that returns or raises. -/
abbrev Exec (σ ε : Type) := ExceptT ε (StateM σ)

namespace Exec

variable {σ ε α β : Type}

/-- What a computation returns or raises, and the state that it ends in. -/
def runFrom (m : Exec σ ε α) (s : σ) : Except ε α × σ := m s

/-- The computation that a function of the state is. -/
def of (f : σ → Except ε α × σ) : Exec σ ε α := f

@[simp] theorem runFrom_of (f : σ → Except ε α × σ) : (of f).runFrom = f := rfl

@[simp] theorem runFrom_pure (a : α) (s : σ) : (pure a : Exec σ ε α).runFrom s = (.ok a, s) := rfl

@[simp] theorem runFrom_throw (e : ε) (s : σ) : (throw e : Exec σ ε α).runFrom s = (.error e, s) := rfl

theorem runFrom_bind (m : Exec σ ε α) (f : α → Exec σ ε β) (s : σ) :
    (m >>= f).runFrom s =
      match m.runFrom s with
      | (.ok a, s') => (f a).runFrom s'
      | (.error e, s') => (.error e, s') := by
  change (ExceptT.bind m f : Exec σ ε β) s = _
  unfold ExceptT.bind runFrom
  change ExceptT.bindCont f (m s).1 (m s).2 = _
  rcases m s with ⟨r, s'⟩
  cases r <;> rfl

/-- Go on with `f` after a return and with `g` after an exception. -/
def fold {ε' : Type} (m : Exec σ ε α) (f : α → Exec σ ε' β) (g : ε → Exec σ ε' β) : Exec σ ε' β :=
  of fun s =>
    match m.runFrom s with
    | (.ok a, s') => (f a).runFrom s'
    | (.error e, s') => (g e).runFrom s'

end Exec

/-- From related states the computations return or raise the same and end in related states. -/
def Alike {σ σ' ε α : Type} (R : σ → σ' → Prop) (m : Exec σ ε α) (m' : Exec σ' ε α) : Prop :=
  ∀ s s', R s s' → (m.runFrom s).1 = (m'.runFrom s').1 ∧ R (m.runFrom s).2 (m'.runFrom s').2

namespace Alike

variable {σ σ' ε α β : Type} {R : σ → σ' → Prop}

theorem pure (a : α) : Alike R (pure a : Exec σ ε α) (pure a) := fun _ _ h => ⟨rfl, h⟩

theorem throw (e : ε) : Alike R (throw e : Exec σ ε α) (throw e) := fun _ _ h => ⟨rfl, h⟩

theorem bind {m : Exec σ ε α} {m' : Exec σ' ε α} {f : α → Exec σ ε β} {f' : α → Exec σ' ε β}
    (hm : Alike R m m') (hf : ∀ a, Alike R (f a) (f' a)) : Alike R (m >>= f) (m' >>= f') := by
  intro s s' hs
  obtain ⟨hres, hstate⟩ := hm s s' hs
  rw [Exec.runFrom_bind, Exec.runFrom_bind]
  rcases h : m.runFrom s with ⟨r, t⟩
  rcases h' : m'.runFrom s' with ⟨r', t'⟩
  rw [h, h'] at hres hstate
  obtain rfl : r = r' := hres
  cases r with
  | ok a => exact hf a t t' hstate
  | error e => exact ⟨rfl, hstate⟩

theorem fold {ε' : Type} {m : Exec σ ε α} {m' : Exec σ' ε α} {f : α → Exec σ ε' β}
    {f' : α → Exec σ' ε' β} {g : ε → Exec σ ε' β} {g' : ε → Exec σ' ε' β} (hm : Alike R m m')
    (hf : ∀ a, Alike R (f a) (f' a)) (hg : ∀ e, Alike R (g e) (g' e)) :
    Alike R (m.fold f g) (m'.fold f' g') := by
  intro s s' hs
  obtain ⟨hres, hstate⟩ := hm s s' hs
  simp only [Exec.fold, Exec.runFrom_of]
  rcases h : m.runFrom s with ⟨r, t⟩
  rcases h' : m'.runFrom s' with ⟨r', t'⟩
  rw [h, h'] at hres hstate
  obtain rfl : r = r' := hres
  cases r with
  | ok a => exact hf a t t' hstate
  | error e => exact hg e t t' hstate

/-- Programs run alike if each of their operations does. -/
theorem run {E : Type → Type u} {handle : ∀ {β : Type}, E β → σ → Except ε β × σ}
    {handle' : ∀ {β : Type}, E β → σ' → Except ε β × σ'}
    (hop : ∀ {β : Type} (op : E β), Alike R (Exec.of (handle op)) (Exec.of (handle' op)))
    (m : Program E ε α) : Alike R (Exec.of (m.run handle)) (Exec.of (m.run handle')) := by
  induction m with
  | ret a => exact fun _ _ h => ⟨rfl, h⟩
  | raise e => exact fun _ _ h => ⟨rfl, h⟩
  | perform op next ih =>
    intro s s' hs
    obtain ⟨hres, hstate⟩ := hop op s s' hs
    simp only [Exec.runFrom_of, Program.run] at hres hstate ⊢
    rcases h : handle op s with ⟨r, t⟩
    rcases h' : handle' op s' with ⟨r', t'⟩
    rw [h, h'] at hres hstate
    obtain rfl : r = r' := hres
    cases r with
    | ok b => exact ih b t t' hstate
    | error e => exact ⟨rfl, hstate⟩

end Alike

end Lib
