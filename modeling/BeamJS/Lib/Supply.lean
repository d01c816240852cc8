import Mathlib.Data.List.Nodup
import Mathlib.Data.List.ReduceOption

/-!
# Labels from a supply

The places of a list are labelled: with a label of their own where they have one, and otherwise with
one from a supply that gives different places different labels.
-/

namespace Lib

variable {α : Type} {supply : ℕ → α} {labels : List (Option α)}

/-- The labels of a list. The missing ones come from the supply, which has one for every place. -/
def fill (supply : ℕ → α) : List (Option α) → List α
  | [] => []
  | label :: labels => label.getD (supply 0) :: fill (fun i => supply (i + 1)) labels

theorem mem_fill {a : α} :
    a ∈ fill supply labels ↔ some a ∈ labels ∨ ∃ i, labels[i]? = some none ∧ supply i = a := by
  induction labels generalizing supply with
  | nil => simp [fill]
  | cons label labels ih =>
    rw [fill, List.mem_cons, ih, List.mem_cons]
    constructor
    · rintro (rfl | hmem | ⟨i, hi, rfl⟩)
      · cases label with
        | none => exact .inr ⟨0, rfl, rfl⟩
        | some b => exact .inl (.inl rfl)
      · exact .inl (.inr hmem)
      · exact .inr ⟨i + 1, hi, rfl⟩
    · rintro ((rfl | hmem) | ⟨i, hi, rfl⟩)
      · exact .inl rfl
      · exact .inr (.inl hmem)
      · cases i with
        | zero =>
          obtain rfl : label = none := by simpa using hi
          exact .inl rfl
        | succ i => exact .inr (.inr ⟨i, hi, rfl⟩)

/-- The labels are distinct exactly if those that the list has are, and none of them is taken from
the supply for another place. -/
theorem nodup_fill (h : Function.Injective supply) :
    (fill supply labels).Nodup ↔ labels.reduceOption.Nodup ∧
      ∀ i, labels[i]? = some none → supply i ∉ labels.reduceOption := by
  induction labels generalizing supply with
  | nil => simp [fill]
  | cons label labels ih =>
    have hshift : Function.Injective fun i => supply (i + 1) := fun i j hij => by
      have := h hij
      omega
    rw [fill, List.nodup_cons, ih hshift, mem_fill]
    cases label with
    | none =>
      -- the label of this place is a new one, so that only an own label can be the same
      have hnew : ¬ ∃ i, labels[i]? = some none ∧ supply (i + 1) = supply 0 := by
        rintro ⟨i, -, hi⟩
        have := h hi
        omega
      rw [List.reduceOption_cons_of_none, Option.getD_none]
      constructor
      · rintro ⟨hfirst, hown, hrest⟩
        refine ⟨hown, fun i hi => ?_⟩
        cases i with
        | zero => exact fun hmem => hfirst (.inl (List.reduceOption_mem_iff.mp hmem))
        | succ i => exact hrest i hi
      · rintro ⟨hown, hall⟩
        refine ⟨?_, hown, fun i hi => hall (i + 1) hi⟩
        rintro (hmem | hmem)
        · exact hall 0 rfl (List.reduceOption_mem_iff.mpr hmem)
        · exact hnew hmem
    | some b =>
      rw [List.reduceOption_cons_of_some, Option.getD_some, List.nodup_cons]
      constructor
      · rintro ⟨hfirst, hown, hrest⟩
        refine ⟨⟨fun hmem => hfirst (.inl (List.reduceOption_mem_iff.mp hmem)), hown⟩, ?_⟩
        intro i hi hmem
        cases i with
        | zero => cases hi
        | succ i =>
          rcases List.mem_cons.mp hmem with heq | hmem
          · exact hfirst (.inr ⟨i, hi, heq⟩)
          · exact hrest i hi hmem
      · rintro ⟨⟨hfirst, hown⟩, hall⟩
        refine ⟨?_, hown, fun i hi hmem => hall (i + 1) hi (List.mem_cons_of_mem _ hmem)⟩
        rintro (hmem | ⟨i, hi, heq⟩)
        · exact hfirst (List.reduceOption_mem_iff.mpr hmem)
        · exact hall (i + 1) hi (heq ▸ List.mem_cons_self)

end Lib
