import Mathlib.Logic.Relation
import Mathlib.Data.List.Chain
import Mathlib.Data.List.Duplicate
import Mathlib.Data.Finset.Card
import Mathlib.Data.Fintype.Card

/-!
# Recursion over a graph

A recursive function whose calls follow the edges of an arbitrary graph, run on a call stack of
bounded depth: it overflows on every stack exactly where it can reach a cycle, and otherwise needs
no more frames than there are nodes with an edge, and one.
-/

namespace Lib

open Relation

universe u v

/-- From `a` the relation leads to a cycle. -/
def ReachesCycle {α : Type u} (r : α → α → Prop) (a : α) : Prop :=
  ∃ b, ReflTransGen r a b ∧ TransGen r b b

section Cycle

variable {α : Type u} {r : α → α → Prop} {a b : α}

/-- A first step towards the cycle, or along it. -/
theorem ReachesCycle.exists_step (h : ReachesCycle r a) : ∃ b, r a b ∧ ReachesCycle r b := by
  obtain ⟨c, hac, hcc⟩ := h
  rcases hac.cases_head with rfl | ⟨b, hab, hbc⟩
  · obtain ⟨b, hab, hba⟩ := TransGen.head'_iff.mp hcc
    exact ⟨b, hab, a, hba, hcc⟩
  · exact ⟨b, hab, c, hbc, hcc⟩

/-- A chain from `a` reaches each of its members. -/
theorem reach_of_mem_chain {l : List α} (h : List.IsChain r (a :: l)) (hb : b ∈ a :: l) :
    ReflTransGen r a b := by
  have hchain : List.IsChain (ReflTransGen r) (a :: l) := h.imp fun _ _ => .single
  have hpair : List.Pairwise (ReflTransGen r) (a :: l) := List.isChain_iff_pairwise.mp hchain
  rcases List.mem_cons.mp hb with rfl | hb
  · exact .refl
  · exact List.rel_of_pairwise_cons hpair hb

/-- A chain that visits something twice runs through a cycle. -/
theorem reachesCycle_of_chain {l : List α} (h : List.IsChain r (a :: l)) (hl : ¬ (a :: l).Nodup) :
    ReachesCycle r a := by
  obtain ⟨b, hb⟩ := List.exists_duplicate_iff_not_nodup.mpr hl
  have hchain : List.IsChain (TransGen r) (a :: l) := h.imp fun _ _ => .single
  have hpair : List.Pairwise (TransGen r) (a :: l) := List.isChain_iff_pairwise.mp hchain
  have htwice : List.Pairwise (TransGen r) [b, b] := hpair.sublist (List.duplicate_iff_sublist.mp hb)
  exact ⟨b, reach_of_mem_chain h hb.mem, List.rel_of_pairwise_cons htwice (by simp)⟩

end Cycle

/-- The body of a recursive function: what it returns, given what the calls it makes return. -/
structure Recursion (α : Type u) (β : Type v) where
  /-- The body, with its recursive calls as a parameter. -/
  body : (α → β) → α → β
  /-- The arguments of the calls. -/
  calls : α → List α
  /-- The result on an overflow of the stack. -/
  overflow : β
  /-- The body sees nothing of the function besides the calls. -/
  congr : ∀ {f g : α → β} {a : α}, (∀ c ∈ calls a, f c = g c) → body f a = body g a
  /-- An overflow in a call is one of the caller, and there is no other. -/
  overflow_iff : ∀ {f : α → β} {a : α}, body f a = overflow ↔ ∃ c ∈ calls a, f c = overflow

namespace Recursion

variable {α : Type u} {β : Type v} (R : Recursion α β)

/-- The function on a stack of `depth` frames. -/
def run : ℕ → α → β
  | 0, _ => R.overflow
  | depth + 1, a => R.body (run depth) a

/-- `a` calls `b`. -/
def Calls (a b : α) : Prop := b ∈ R.calls a

variable {R} {a : α}

/-- A stack that is deep enough may as well be one frame deeper. -/
theorem run_succ {depth : ℕ} (h : R.run depth a ≠ R.overflow) :
    R.run (depth + 1) a = R.run depth a := by
  induction depth generalizing a with
  | zero => exact absurd rfl h
  | succ depth ih =>
    refine R.congr fun c hc => ih fun hover => ?_
    exact h (R.overflow_iff.mpr ⟨c, hc, hover⟩)

theorem run_of_le {depth depth' : ℕ} (hle : depth ≤ depth') (h : R.run depth a ≠ R.overflow) :
    R.run depth' a = R.run depth a := by
  induction hle with
  | refl => rfl
  | step _ ih => rw [run_succ (ih ▸ h), ih]

/-- The function never comes to an end on what leads to a cycle. -/
theorem run_of_reachesCycle (h : ReachesCycle R.Calls a) (depth : ℕ) :
    R.run depth a = R.overflow := by
  induction depth generalizing a with
  | zero => rfl
  | succ depth ih =>
    obtain ⟨b, hab, hb⟩ := h.exists_step
    exact R.overflow_iff.mpr ⟨b, hab, ih hb⟩

/-- An overflow leaves a chain of calls on the stack. -/
theorem exists_chain_of_overflow {depth : ℕ} (h : R.run (depth + 1) a = R.overflow) :
    ∃ l, List.IsChain R.Calls (a :: l) ∧ l.length = depth + 1 := by
  induction depth generalizing a with
  | zero =>
    obtain ⟨c, hc, -⟩ := R.overflow_iff.mp h
    exact ⟨[c], .cons_cons hc (.singleton c), rfl⟩
  | succ depth ih =>
    obtain ⟨c, hc, hover⟩ := R.overflow_iff.mp h
    obtain ⟨l, hl, hlen⟩ := ih hover
    exact ⟨c :: l, .cons_cons hc hl, by rw [List.length_cons, hlen]⟩

/-- In a chain everything but the last element makes a call. -/
theorem calls_of_mem_dropLast {l : List α} (h : List.IsChain R.Calls l) :
    ∀ b ∈ l.dropLast, R.calls b ≠ [] := by
  induction h with
  | nil => simp
  | singleton => simp
  | @cons_cons b c l hbc _ ih =>
    intro d hd
    rw [List.dropLast_cons_cons] at hd
    rcases List.mem_cons.mp hd with rfl | hd
    · exact List.ne_nil_of_mem hbc
    · exact ih d hd

/-- Where only the nodes make calls, a function that overflows a stack deeper than they are many
leads to a cycle. -/
theorem reachesCycle_of_overflow {nodes : Finset α} (hnodes : ∀ b, R.calls b ≠ [] → b ∈ nodes)
    {depth : ℕ} (hdepth : nodes.card < depth) (h : R.run depth a = R.overflow) :
    ReachesCycle R.Calls a := by
  obtain ⟨k, rfl⟩ : ∃ k, depth = k + 1 := ⟨depth - 1, by omega⟩
  obtain ⟨l, hl, hlen⟩ := exists_chain_of_overflow h
  refine reachesCycle_of_chain hl fun hnodup => ?_
  have hsub : ∀ b ∈ (a :: l).dropLast, b ∈ nodes := fun b hb =>
    hnodes b (calls_of_mem_dropLast hl b hb)
  have hnodup' : (a :: l).dropLast.Nodup := hnodup.sublist (List.dropLast_sublist _)
  classical
  have hcard : (a :: l).dropLast.length ≤ nodes.card := by
    rw [← List.toFinset_card_of_nodup hnodup']
    exact Finset.card_le_card fun b hb => hsub b (List.mem_toFinset.mp hb)
  rw [List.length_dropLast, List.length_cons, hlen] at hcard
  omega

/-- The function comes to an end, always the same, on every stack that is deeper than the nodes are
many, exactly where it leads to no cycle. -/
theorem ends_iff {nodes : Finset α} (hnodes : ∀ b, R.calls b ≠ [] → b ∈ nodes) :
    (∃ result, result ≠ R.overflow ∧ ∀ depth, nodes.card < depth → R.run depth a = result) ↔
      ¬ ReachesCycle R.Calls a := by
  constructor
  · rintro ⟨result, hresult, hrun⟩ hcycle
    exact hresult ((hrun _ (Nat.lt_succ_self _)).symm.trans (run_of_reachesCycle hcycle _))
  · intro hcycle
    have hends : R.run (nodes.card + 1) a ≠ R.overflow := fun h =>
      hcycle (reachesCycle_of_overflow hnodes (Nat.lt_succ_self _) h)
    exact ⟨_, hends, fun depth hdepth => run_of_le hdepth hends⟩

end Recursion

end Lib
