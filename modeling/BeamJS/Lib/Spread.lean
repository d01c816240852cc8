import Mathlib.Logic.Relation
import Mathlib.Data.List.Dedup

/-!
# Spreading over a graph

What is reached in a number of rounds from some nodes, where every round adds the successors of all
nodes reached so far.
-/

namespace Lib

universe u

variable {α : Type u} [DecidableEq α] (next : α → List α)

/-- The nodes reached from `xs` in `n` rounds. -/
def spread : ℕ → List α → List α
  | 0, xs => xs
  | n + 1, xs => spread n (xs ++ ((xs.flatMap next).filter (· ∉ xs)).dedup)

variable {next}

/-- Whatever is kept along the edges holds of all that is reached. -/
theorem spread_induction {P : α → Prop} {n : ℕ} {xs : List α} (hstart : ∀ a ∈ xs, P a)
    (hstep : ∀ a b, P a → b ∈ next a → P b) : ∀ a ∈ spread next n xs, P a := by
  induction n generalizing xs with
  | zero => exact hstart
  | succ n ih =>
    refine ih fun a ha => ?_
    rcases List.mem_append.mp ha with ha | ha
    · exact hstart a ha
    · obtain ⟨b, hb, hab⟩ := List.mem_flatMap.mp (List.mem_filter.mp (List.mem_dedup.mp ha)).1
      exact hstep b a (hstart b hb) hab

end Lib
