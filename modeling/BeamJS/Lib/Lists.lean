import Mathlib.Algebra.BigOperators.Group.List.Basic
import Mathlib.Data.List.Chain
import Mathlib.Data.List.Forall2
import Mathlib.Data.List.Infix
import Mathlib.Tactic.Linarith

/-!
# Lists

Facts about lists in general: mapping a partial function that is defined throughout, lists related
element by element, what occurs in the middle of two lists put together, and a list that permutes
another while no element is lighter than the one in its place.
-/

namespace Lib

theorem mapM_of_forall {α β : Type} {f : α → Option β} {g : α → β} {l : List α}
    (h : ∀ a ∈ l, f a = some (g a)) : l.mapM f = some (l.map g) := by
  induction l with
  | nil => rfl
  | cons a l ih =>
    obtain ⟨ha, hl⟩ := List.forall_mem_cons.mp h
    simp [ha, ih hl]

theorem mapM_congr {α β : Type} {f g : α → Option β} {l : List α} (h : ∀ a ∈ l, f a = g a) :
    l.mapM f = l.mapM g := by
  induction l with
  | nil => rfl
  | cons a l ih =>
    obtain ⟨ha, hl⟩ := List.forall_mem_cons.mp h
    simp [ha, ih hl]

theorem forall_of_mapM {α β : Type} {f : α → Option β} {l : List α} {bs : List β}
    (h : l.mapM f = some bs) : List.Forall₂ (fun a b => f a = some b) l bs := by
  induction l generalizing bs with
  | nil =>
    obtain rfl : [] = bs := by simpa using h
    exact .nil
  | cons a l ih =>
    simp only [List.mapM_cons, Option.pure_def, Option.bind_eq_bind, Option.bind_eq_some_iff] at h
    obtain ⟨b, hb, bs', hbs', h⟩ := h
    cases h
    exact .cons hb (ih hbs')

theorem getElem?_of_forall₂ {α β : Type} {R : α → β → Prop} {as : List α} {bs : List β}
    (h : List.Forall₂ R as bs) {i : ℕ} {b : β} (hb : bs[i]? = some b) :
    ∃ a, as[i]? = some a ∧ R a b := by
  induction h generalizing i with
  | nil => simp at hb
  | @cons a b' as bs hab _ ih =>
    cases i with
    | zero =>
      obtain rfl : b' = b := by simpa using hb
      exact ⟨a, rfl, hab⟩
    | succ i => exact ih (by simpa using hb)

theorem exists_of_forall₂ {α β : Type} {R : α → β → Prop} {as : List α} {bs : List β}
    (h : List.Forall₂ R as bs) {a : α} (ha : a ∈ as) : ∃ b ∈ bs, R a b := by
  induction h with
  | nil => simp at ha
  | cons hab _ ih =>
    rcases List.mem_cons.mp ha with rfl | ha
    · exact ⟨_, List.mem_cons_self .., hab⟩
    · obtain ⟨b, hb, hR⟩ := ih ha
      exact ⟨b, List.mem_cons_of_mem _ hb, hR⟩

/-- Two relations between the elements of the same two lists meet in each place. -/
theorem exists_and_of_forall₂ {α β : Type} {R : α → β → Prop} {S : β → α → Prop} {as : List α}
    {bs : List β} (hR : List.Forall₂ R as bs) (hS : List.Forall₂ S bs as) {a : α} (ha : a ∈ as) :
    ∃ b ∈ bs, R a b ∧ S b a := by
  induction hR with
  | nil => simp at ha
  | cons hab _ ih =>
    obtain ⟨hba, hS⟩ := List.forall₂_cons.mp hS
    rcases List.mem_cons.mp ha with rfl | ha
    · exact ⟨_, List.mem_cons_self .., hab, hba⟩
    · obtain ⟨b, hb, hRS⟩ := ih hS ha
      exact ⟨b, List.mem_cons_of_mem _ hb, hRS⟩

/-- A chain stays one where its elements may be exchanged on either side of a link. -/
theorem isChain_of_forall₂ {α : Type} {R S : α → α → Prop}
    (hR : ∀ {a a' b b'}, S a a' → S b b' → R a b → R a' b') {as as' : List α}
    (h : List.Forall₂ S as as') (hchain : as.IsChain R) : as'.IsChain R := by
  induction h with
  | nil => exact .nil
  | cons ha hrest ih =>
    have htail := ih hchain.tail
    cases hrest with
    | nil => exact .singleton _
    | cons hb _ => exact .cons_cons (hR ha hb (List.isChain_cons_cons.mp hchain).1) htail

section Weight

variable {α : Type} {w : α → ℕ}

theorem sum_le_of_forall₂ {as bs : List α} (h : List.Forall₂ (fun a b => w a ≤ w b) as bs) :
    (as.map w).sum ≤ (bs.map w).sum := by
  induction h with
  | nil => exact Nat.le_refl _
  | cons hab _ ih =>
    simp only [List.map_cons, List.sum_cons]
    exact Nat.add_le_add hab ih

/-- Where each `b` is at least as heavy as its `a`, and equal to it if as heavy, a permutation
changes nothing. -/
theorem eq_of_perm_of_weight {as bs : List α}
    (h : List.Forall₂ (fun a b => w a ≤ w b ∧ (w b = w a → b = a)) as bs)
    (hsum : (bs.map w).sum ≤ (as.map w).sum) : bs = as := by
  induction h with
  | nil => rfl
  | @cons a b as bs hab hall ih =>
    have hrest := sum_le_of_forall₂ (hall.imp fun _ _ hp => hp.1)
    simp only [List.map_cons, List.sum_cons] at hsum
    obtain ⟨hle, heq⟩ := hab
    rw [heq (by omega), ih (by omega)]

end Weight

end Lib
