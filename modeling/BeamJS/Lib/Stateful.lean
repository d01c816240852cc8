/-!
# Computations on a state that may raise

A computation runs on a state and returns or raises, and what it has done to the state stays in both
cases. `Stateful.Triple` is the logic of such computations, with one postcondition for a return and
one for an error; `Stateful.Keeps` is the special case of a property that is there before and
afterwards, however the computation ends. There is a rule for each way to put computations together.
-/

namespace Lib

/-- A computation on states `σ` that returns an `α` or raises an `ε`. -/
def Stateful (σ ε α : Type) := σ → Except ε α × σ

namespace Stateful

variable {σ ε α β : Type}

instance : Monad (Stateful σ ε) where
  pure a := fun s => (.ok a, s)
  bind x f := fun s =>
    match x s with
    | (.ok a, s') => f a s'
    | (.error e, s') => (.error e, s')

/-- Raise an error. -/
def raise (e : ε) : Stateful σ ε α := fun s => (.error e, s)

/-- Read the state. -/
def get : Stateful σ ε σ := fun s => (.ok s, s)

/-- Change the state. -/
def modify (f : σ → σ) : Stateful σ ε Unit := fun s => (.ok (), f s)

/-- Go on with `handle` where `x` raises. -/
def onError (x : Stateful σ ε α) (handle : ε → Stateful σ ε α) : Stateful σ ε α := fun s =>
  match x s with
  | (.ok a, s') => (.ok a, s')
  | (.error e, s') => handle e s'

/-- Run `f` on the elements of a list, one after another. -/
def forEach (f : α → Stateful σ ε Unit) : List α → Stateful σ ε Unit
  | [] => pure ()
  | a :: as => do
    f a
    forEach f as

theorem bind_ok {x : Stateful σ ε α} {f : α → Stateful σ ε β} {s s' : σ} {a : α}
    (hx : x s = (.ok a, s')) : (x >>= f) s = f a s' := by
  show (match x s with
    | (.ok a, s') => f a s'
    | (.error e, s') => (.error e, s')) = f a s'
  rw [hx]

theorem bind_error {x : Stateful σ ε α} {f : α → Stateful σ ε β} {s s' : σ} {e : ε}
    (hx : x s = (.error e, s')) : (x >>= f) s = (.error e, s') := by
  show (match x s with
    | (.ok a, s') => f a s'
    | (.error e, s') => (.error e, s')) = (.error e, s')
  rw [hx]

theorem forEach_append (f : α → Stateful σ ε Unit) (as bs : List α) :
    forEach f (as ++ bs) = (do forEach f as; forEach f bs) := by
  induction as with
  | nil => rfl
  | cons a as ih =>
    funext s
    rcases ha : f a s with ⟨r, s'⟩
    cases r with
    | ok => 
      have hcons : ∀ l, forEach f (a :: l) s = forEach f l s' := fun _ => bind_ok ha
      rcases has : forEach f as s' with ⟨r, s''⟩
      cases r with
      | ok => rw [List.cons_append, hcons, ih, bind_ok has, bind_ok ((hcons as).trans has)]
      | error e => rw [List.cons_append, hcons, ih, bind_error has, bind_error ((hcons as).trans has)]
    | error e =>
      have hcons : ∀ l, forEach f (a :: l) s = (.error e, s') := fun _ => bind_error ha
      rw [List.cons_append, hcons, bind_error (hcons as)]

/-! ## Triples -/

/-- From a state that meets `P`, the computation returns so that `Q` is met, or raises so that `R`
is met. -/
def Triple (P : σ → Prop) (x : Stateful σ ε α) (Q : α → σ → Prop) (R : ε → σ → Prop) : Prop :=
  ∀ s, P s → match x s with
    | (.ok a, s') => Q a s'
    | (.error e, s') => R e s'

section Rules

variable {P P' : σ → Prop} {Q Q' : α → σ → Prop} {S : β → σ → Prop} {R R' : ε → σ → Prop}

theorem Triple.weaken {x : Stateful σ ε α} (h : Triple P x Q R) (hP : ∀ s, P' s → P s)
    (hQ : ∀ a s, Q a s → Q' a s) (hR : ∀ e s, R e s → R' e s) : Triple P' x Q' R' := by
  intro s hs
  have hx := h s (hP s hs)
  revert hx
  rcases x s with ⟨r, s'⟩
  cases r with
  | ok a => exact hQ a s'
  | error e => exact hR e s'

theorem Triple.pre {x : Stateful σ ε α} (h : Triple P x Q R) (hP : ∀ s, P' s → P s) :
    Triple P' x Q R := h.weaken hP (fun _ _ => id) fun _ _ => id

theorem Triple.post {x : Stateful σ ε α} (h : Triple P x Q R) (hQ : ∀ a s, Q a s → Q' a s) :
    Triple P x Q' R := h.weaken (fun _ => id) hQ fun _ _ => id

/-- What is known apart from the state. -/
theorem Triple.assume {x : Stateful σ ε α} {p : Prop} (h : p → Triple P x Q R) :
    Triple (fun s => p ∧ P s) x Q R := fun s hs => h hs.1 s hs.2

/-- Two cases of the state. -/
theorem Triple.cases {x : Stateful σ ε α} (h : Triple P x Q R) (h' : Triple P' x Q R) :
    Triple (fun s => P s ∨ P' s) x Q R := fun s hs => hs.elim (h s) (h' s)

theorem Triple.absurd {x : Stateful σ ε α} : Triple (fun _ => False) x Q R := fun _ => False.elim

theorem Triple.pure {a : α} (h : ∀ s, P s → Q a s) : Triple P (pure a : Stateful σ ε α) Q R := h

theorem Triple.raise {e : ε} (h : ∀ s, P s → R e s) : Triple P (raise e : Stateful σ ε α) Q R := h

theorem Triple.get {Q : σ → σ → Prop} (h : ∀ s, P s → Q s s) :
    Triple P (get : Stateful σ ε σ) Q R := h

theorem Triple.modify {f : σ → σ} {Q : Unit → σ → Prop} (h : ∀ s, P s → Q () (f s)) :
    Triple P (modify f : Stateful σ ε Unit) Q R := h

/-- The rule of composition. -/
theorem Triple.bind {x : Stateful σ ε α} {f : α → Stateful σ ε β} (hx : Triple P x Q R)
    (hf : ∀ a, Triple (Q a) (f a) S R) : Triple P (x >>= f) S R := by
  intro s hs
  have hrun := hx s hs
  have hbind : (x >>= f) s = match x s with
    | (.ok a, s') => f a s'
    | (.error e, s') => (.error e, s') := rfl
  rw [hbind]
  revert hrun
  rcases x s with ⟨r, s'⟩
  cases r with
  | ok a => exact hf a s'
  | error e => exact id

/-- A first step that does not return. -/
theorem Triple.stop {x : Stateful σ ε α} {f : α → Stateful σ ε β}
    (hx : Triple P x (fun _ _ => False) R) : Triple P (x >>= f) S R :=
  hx.bind fun _ => Triple.absurd

/-- A first step whose outcome is known. -/
theorem Triple.step {x : Stateful σ ε α} {f : α → Stateful σ ε β} {s s' : σ} {a : α}
    (hx : x s = (.ok a, s')) (hf : Triple (fun t => t = s') (f a) S R) :
    Triple (fun t => t = s) (x >>= f) S R := by
  rintro t rfl
  rw [bind_ok hx]
  exact hf s' rfl

/-- A computation whose outcome is known. -/
theorem Triple.ofRun {x : Stateful σ ε α} {s s' : σ} {a : α} (hx : x s = (.ok a, s'))
    (h : Q a s') : Triple (fun t => t = s) x Q R := by
  rintro t rfl
  rw [hx]
  exact h

theorem Triple.ofError {x : Stateful σ ε α} {s s' : σ} {e : ε} (hx : x s = (.error e, s'))
    (h : R e s') : Triple (fun t => t = s) x Q R := by
  rintro t rfl
  rw [hx]
  exact h

/-- The rule of the handler. -/
theorem Triple.onError {x : Stateful σ ε α} {handle : ε → Stateful σ ε α} (hx : Triple P x Q R')
    (hh : ∀ e, Triple (R' e) (handle e) Q R) : Triple P (onError x handle) Q R := by
  intro s hs
  have hrun := hx s hs
  unfold Stateful.onError
  revert hrun
  rcases x s with ⟨r, s'⟩
  cases r with
  | ok a => exact id
  | error e => exact hh e s'

/-- The rule of the loop. The invariant knows which elements have been gone through. -/
theorem Triple.forEach {f : α → Stateful σ ε Unit} {I : List α → σ → Prop} {l : List α}
    (h : ∀ done a rest, l = done ++ a :: rest →
      Triple (I done) (f a) (fun _ => I (done ++ [a])) R) :
    Triple (I []) (forEach f l) (fun _ => I l) R := by
  have hfrom : ∀ (done rest : List α), l = done ++ rest →
      Triple (I done) (Stateful.forEach f rest) (fun _ => I l) R := by
    intro done rest
    induction rest generalizing done with
    | nil =>
      intro hl
      rw [List.append_nil] at hl
      exact Triple.pure fun s hs => hl ▸ hs
    | cons a rest ih =>
      intro hl
      refine (h done a rest hl).bind fun _ => ih (done ++ [a]) ?_
      rw [hl, List.append_assoc]
      rfl
  exact hfrom [] l rfl

end Rules

/-! ## Properties that are kept -/

/-- The property is there afterwards if it was there before, however the computation ends. -/
def Keeps (I : σ → Prop) (x : Stateful σ ε α) : Prop := Triple I x (fun _ => I) fun _ => I

section Keeps

variable {I : σ → Prop}

theorem Keeps.pure (a : α) : Keeps I (pure a : Stateful σ ε α) := Triple.pure fun _ => id

theorem Keeps.raise (e : ε) : Keeps I (raise e : Stateful σ ε α) := Triple.raise fun _ => id

theorem Keeps.get : Keeps I (get : Stateful σ ε σ) := Triple.get fun _ => id

theorem Keeps.modify {f : σ → σ} (h : ∀ s, I s → I (f s)) :
    Keeps I (modify f : Stateful σ ε Unit) :=
  Triple.modify h

theorem Keeps.bind {x : Stateful σ ε α} {f : α → Stateful σ ε β} (hx : Keeps I x)
    (hf : ∀ a, Keeps I (f a)) : Keeps I (x >>= f) := Triple.bind hx hf

theorem Keeps.onError {x : Stateful σ ε α} {handle : ε → Stateful σ ε α} (hx : Keeps I x)
    (hh : ∀ e, Keeps I (handle e)) : Keeps I (onError x handle) := Triple.onError hx hh

theorem Keeps.forEach {f : α → Stateful σ ε Unit} (h : ∀ a, Keeps I (f a)) (l : List α) :
    Keeps I (forEach f l) := Triple.forEach fun _ a _ _ => h a

end Keeps

end Stateful

end Lib
