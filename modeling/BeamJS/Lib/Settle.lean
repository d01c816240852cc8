import Mathlib.Logic.Function.Iterate

/-!
# Coming to rest

Steps that lower a measure as long as a condition fails, and that keep the condition once it holds.
-/

namespace Lib

universe u v

variable {ι : Type u} {α : Type v} {P : α → Prop}

/-- A condition that every step keeps. -/
theorem kept_foldl {f : ι → α → α} (hkeep : ∀ i x, P x → P (f i x)) (steps : List ι) {x : α}
    (hx : P x) : P (steps.foldl (fun x i => f i x) x) := by
  induction steps generalizing x with
  | nil => exact hx
  | cons i steps ih => exact ih (hkeep i x hx)

/-- The condition holds after as many steps as the measure says, whichever steps they are. -/
theorem settles [Nonempty ι] {f : ι → α → α} {μ : α → ℕ} (hkeep : ∀ i x, P x → P (f i x))
    (hstep : ∀ i x, P x ∨ μ (f i x) < μ x) (steps : List ι) {x : α} (hx : μ x ≤ steps.length) :
    P (steps.foldl (fun x i => f i x) x) := by
  induction steps generalizing x with
  | nil =>
    obtain ⟨i⟩ := ‹Nonempty ι›
    exact (hstep i x).resolve_right (by rw [Nat.le_zero.mp hx]; exact Nat.not_lt_zero _)
  | cons i steps ih =>
    rw [List.foldl_cons]
    by_cases hP : P x
    · exact kept_foldl hkeep steps (hkeep i x hP)
    · have hless := (hstep i x).resolve_left hP
      rw [List.length_cons] at hx
      exact ih (by omega)

/-- The rule for a single step that is taken again and again. -/
theorem settles_iterate {f : α → α} {μ : α → ℕ} (hkeep : ∀ x, P x → P (f x))
    (hstep : ∀ x, P x ∨ μ (f x) < μ x) {n : ℕ} {x : α} (hx : μ x ≤ n) : P (f^[n] x) := by
  have hlength : μ x ≤ (List.replicate n ()).length := by rwa [List.length_replicate]
  have h := settles (f := fun _ : Unit => f) (fun _ => hkeep) (fun _ => hstep) _ hlength
  rwa [List.foldl_const, List.length_replicate] at h

end Lib
