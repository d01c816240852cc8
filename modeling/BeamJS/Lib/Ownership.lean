import Mathlib.Algebra.Order.Group.Multiset
import Mathlib.Tactic.Abel

/-!
# Programs that acquire and give back

A program acquires resources of given kinds, uses them and gives them back. One that uses or gives
back what is not held has no outcome, so that an outcome shows that nothing was used or given back
too late; and what is held at the end shows what was forgotten.
-/

namespace Lib

universe u

/-- Something acquired: its kind, and a number that nothing else has. -/
abbrev Resource (κ : Type) := κ × ℕ

/-- What is held at a moment. -/
structure Holdings (κ : Type) where
  held : Multiset (Resource κ)
  /-- The number of what is acquired next. -/
  next : ℕ

/-- A program over what is held. -/
abbrev Owning (κ : Type) := StateT (Holdings κ) Option

namespace Owning

variable {κ α β : Type}

/-- Nothing is held. -/
def nothing : Holdings κ := ⟨0, 0⟩

/-- Acquire something of the kind. -/
def acquire (kind : κ) : Owning κ (Resource κ) := fun s =>
  some ((kind, s.next), ⟨(kind, s.next) ::ₘ s.held, s.next + 1⟩)

/-- Acquire something for each element. -/
def acquireEach (kind : κ) : List α → Owning κ (List (α × Resource κ))
  | [] => pure []
  | a :: as => do
    let r ← acquire kind
    let rest ← acquireEach kind as
    return (a, r) :: rest

/-- There is no outcome. -/
def fault : Owning κ α := fun _ => none

section Use

variable [DecidableEq κ]

/-- Use a resource. -/
def use (r : Resource κ) : Owning κ Unit := fun s => if r ∈ s.held then some ((), s) else none

/-- Give a resource back. -/
def release (r : Resource κ) : Owning κ Unit := fun s =>
  if r ∈ s.held then some ((), { s with held := s.held.erase r }) else none

/-- Nothing of these kinds may be held. -/
def expectNone (kinds : List κ) : Owning κ Unit := fun s =>
  if ∀ r ∈ s.held, r.1 ∉ kinds then some ((), s) else none

/-- Give back all of some resources. -/
def releaseAll : List (Resource κ) → Owning κ Unit
  | [] => pure ()
  | r :: rs => do
    release r
    releaseAll rs

end Use

/-- Run a program for each element, and list the results. -/
def each (f : α → Owning κ β) : List α → Owning κ (List β)
  | [] => pure []
  | a :: as => do
    let b ← f a
    let bs ← each f as
    return b :: bs

/-- From `P` the program has an outcome, and its result and what is held then meet `Q`. -/
def Triple (P : Multiset (Resource κ)) (m : Owning κ α) (Q : α → Multiset (Resource κ) → Prop) :
    Prop :=
  ∀ n, ∃ a P' n', m ⟨P, n⟩ = some (a, ⟨P', n'⟩) ∧ Q a P'

variable {P R : Multiset (Resource κ)} {m : Owning κ α} {f : α → Owning κ β}
  {Q : α → Multiset (Resource κ) → Prop} {S : β → Multiset (Resource κ) → Prop}

namespace Triple

theorem pure {a : α} (h : Q a P) : Triple P (pure a) Q := fun n => ⟨a, P, n, rfl, h⟩

theorem post {Q' : α → Multiset (Resource κ) → Prop} (h : Triple P m Q)
    (hQ : ∀ a P', Q a P' → Q' a P') : Triple P m Q' := by
  intro n
  obtain ⟨a, P', n', hrun, hpost⟩ := h n
  exact ⟨a, P', n', hrun, hQ a P' hpost⟩

/-- The rule of composition. -/
theorem bind (hm : Triple P m Q) (hf : ∀ a P', Q a P' → Triple P' (f a) S) :
    Triple P (m >>= f) S := by
  intro n
  obtain ⟨a, P', n', hrun, hpost⟩ := hm n
  obtain ⟨b, P'', n'', hrest, hS⟩ := hf a P' hpost n'
  refine ⟨b, P'', n'', ?_, hS⟩
  show (m ⟨P, n⟩).bind _ = _
  rw [hrun]
  exact hrest

/-- What is acquired is held from then on. -/
theorem acquire {kind : κ} {Q : Resource κ → Multiset (Resource κ) → Prop}
    (h : ∀ r : Resource κ, r.1 = kind → Q r (r ::ₘ P)) : Triple P (acquire kind) Q :=
  fun n => ⟨(kind, n), _, n + 1, rfl, h _ rfl⟩

section Use

variable [DecidableEq κ] {r : Resource κ} {k : Unit → Owning κ β}

theorem use {Q : Unit → Multiset (Resource κ) → Prop} (hr : r ∈ P) (h : Q () P) :
    Triple P (use r) Q := fun n => ⟨(), P, n, if_pos hr, h⟩

theorem release {Q : Unit → Multiset (Resource κ) → Prop} (hP : P = r ::ₘ R) (h : Q () R) :
    Triple P (release r) Q := by
  intro n
  refine ⟨(), R, n, ?_, h⟩
  rw [Owning.release, hP, if_pos (Multiset.mem_cons_self r R), Multiset.erase_cons_head]

/-- What is given back is no longer held. -/
theorem release_bind (hP : P = r ::ₘ R) (h : Triple R (k ()) S) :
    Triple P (Owning.release r >>= k) S :=
  bind (release (Q := fun _ P' => P' = R) hP rfl) fun _ _ hP => hP ▸ h

theorem releaseAll {rs : List (Resource κ)} {Q : Unit → Multiset (Resource κ) → Prop}
    (hP : P = ↑rs + R) (h : Q () R) : Triple P (releaseAll rs) Q := by
  induction rs generalizing P with
  | nil =>
    rw [Multiset.coe_nil, Multiset.zero_add] at hP
    exact pure (hP ▸ h)
  | cons r rs ih =>
    rw [← Multiset.cons_coe, Multiset.cons_add] at hP
    exact release_bind hP (ih rfl)

end Use

end Triple

/-! ## Programs that leave what is held as it was -/

/-- The program returns `a` and gives back all that it acquires. -/
def Keeps (P : Multiset (Resource κ)) (m : Owning κ α) (a : α) : Prop :=
  Triple P m fun b P' => b = a ∧ P' = P

theorem Keeps.pure (a : α) : Keeps P (Pure.pure a) a := Triple.pure ⟨rfl, rfl⟩

theorem Keeps.bind {a : α} (hm : Keeps P m a) (hf : Triple P (f a) S) : Triple P (m >>= f) S :=
  Triple.bind hm fun _ _ h => by rw [h.1, h.2]; exact hf

/-- A loop whose rounds leave what is held as it was. -/
theorem Keeps.each {g : α → β} {l : List α} (h : ∀ a ∈ l, Keeps P (f a) (g a)) :
    Keeps P (each f l) (l.map g) := by
  induction l with
  | nil => exact Keeps.pure []
  | cons a l ih =>
    obtain ⟨ha, hl⟩ := List.forall_mem_cons.mp h
    exact ha.bind ((ih hl).bind (Keeps.pure _))

/-- From `P` the program has no outcome. -/
def Faults (P : Multiset (Resource κ)) (m : Owning κ α) : Prop := ∀ n, m ⟨P, n⟩ = none

/-- Nothing follows a fault. -/
theorem Faults.bind (h : Faults P m) : Faults P (m >>= f) := by
  intro n
  show (m ⟨P, n⟩).bind _ = none
  rw [h n]
  rfl

end Owning

end Lib
