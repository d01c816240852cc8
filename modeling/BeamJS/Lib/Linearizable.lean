import Mathlib.Data.List.Basic
import Mathlib.Data.List.Nodup

/-!
# Linearizability

Histories of operations that overlap in time, and when they can be put into one sequential order:
each operation takes effect at one point between its call and its return. The rules build such an
order along with the history. Nothing here refers to a particular object.
-/

namespace Lib

variable {S O R : Type*}

/-- An event at the border of the object, with the identifier of its operation. -/
inductive HistoryEvent (O R : Type*) where
  | call (id : ℕ) (op : O)
  | ret (id : ℕ) (result : R)

/-- An operation that took effect, with its result. -/
structure Effect (O R : Type*) where
  id : ℕ
  op : O
  result : R

/-- The object under one operation after another, from the state `s` to the state `t`. -/
inductive Sequential (spec : S → O → R → S → Prop) (s : S) : List (Effect O R) → S → Prop
  | nil : Sequential spec s [] s
  | snoc {order : List (Effect O R)} {t u : S} {e : Effect O R} (h : Sequential spec s order t)
      (he : spec t e.op e.result u) : Sequential spec s (order ++ [e]) u

/-- The operation `a` returned before `b` was called. -/
def Precedes (h : List (HistoryEvent O R)) (a b : ℕ) : Prop :=
  ∃ r op, List.Sublist [.ret a r, .call b op] h

/-- The operations of `order` account for the history, in an order that agrees with time, and lead
the object from `s` to `t`. -/
structure Linearization (spec : S → O → R → S → Prop) (s : S) (h : List (HistoryEvent O R))
    (order : List (Effect O R)) (t : S) : Prop where
  nodup : (order.map Effect.id).Nodup
  called : ∀ e ∈ order, .call e.id e.op ∈ h
  returned : ∀ id r, .ret id r ∈ h → ∃ op, ⟨id, op, r⟩ ∈ order
  realTime : order.Pairwise fun a b => ¬ Precedes h b.id a.id
  sequential : Sequential spec s order t

/-- There is such an order. -/
def Linearizable (spec : S → O → R → S → Prop) (s : S) (h : List (HistoryEvent O R)) : Prop :=
  ∃ order t, Linearization spec s h order t

/-! ## Short runs -/

theorem Sequential.eq_of_nil {spec : S → O → R → S → Prop} {s t : S} {order : List (Effect O R)}
    (h : Sequential spec s order t) (hnil : order = []) : t = s := by
  cases h with
  | nil => rfl
  | snoc => simp at hnil

theorem Sequential.of_singleton {spec : S → O → R → S → Prop} {s t : S} {e : Effect O R}
    (h : Sequential spec s [e] t) : spec s e.op e.result t := by
  generalize hone : [e] = order at h
  cases h with
  | nil => cases hone
  | snoc hfirst hlast =>
    have hsplit : [] ++ [e] = _ ++ [_] := hone
    obtain ⟨hnil, he⟩ := List.append_inj' hsplit rfl
    obtain rfl := hfirst.eq_of_nil hnil.symm
    obtain rfl := List.singleton_inj.mp he
    exact hlast

/-! ## Precedence -/

theorem Precedes.ret_mem {h : List (HistoryEvent O R)} {a b : ℕ} (hab : Precedes h a b) :
    ∃ r, .ret a r ∈ h := by
  obtain ⟨r, op, hsub⟩ := hab
  exact ⟨r, hsub.subset (by simp)⟩

/-- A new event at the end of the history is a call of `b`, or makes no difference. -/
theorem precedes_snoc {h : List (HistoryEvent O R)} {e : HistoryEvent O R} {a b : ℕ}
    (hab : Precedes (h ++ [e]) a b) : Precedes h a b ∨ ∃ op, e = .call b op := by
  obtain ⟨r, op, hsub⟩ := hab
  obtain ⟨l₁, l₂, hl, hl₁, hl₂⟩ := List.sublist_append_iff.mp hsub
  rcases List.sublist_singleton.mp hl₂ with rfl | rfl
  · rw [List.append_nil] at hl
    exact .inl ⟨r, op, hl ▸ hl₁⟩
  · have hsplit : [.ret a r] ++ [.call b op] = l₁ ++ [e] := hl
    obtain ⟨-, he⟩ := List.append_inj' hsplit rfl
    exact .inr ⟨op, (List.singleton_inj.mp he).symm⟩

/-! ## The rules -/

namespace Linearization

variable {spec : S → O → R → S → Prop} {s t u : S} {h : List (HistoryEvent O R)}
  {order : List (Effect O R)}

theorem nil : Linearization spec s [] [] s where
  nodup := .nil
  called := by simp
  returned := by simp
  realTime := .nil
  sequential := .nil

/-- A call under a new identifier. -/
theorem call (hl : Linearization spec s h order t) {id : ℕ} (op : O)
    (hnew : ∀ op', .call id op' ∉ h) : Linearization spec s (h ++ [.call id op]) order t where
  nodup := hl.nodup
  called e he := List.mem_append_left _ (hl.called e he)
  returned id' r hr := by
    rcases List.mem_append.mp hr with hr | hr
    · exact hl.returned id' r hr
    · simp at hr
  realTime := by
    refine hl.realTime.imp_of_mem fun {a b} ha _ hab hprec => ?_
    rcases precedes_snoc hprec with hprec | ⟨op', hop⟩
    · exact hab hprec
    · -- the operation `a` took effect, so that it was called before
      cases hop
      exact hnew _ (hl.called a ha)
  sequential := hl.sequential

/-- A called operation takes effect. -/
theorem effect (hl : Linearization spec s h order t) {e : Effect O R}
    (hcalled : .call e.id e.op ∈ h) (hnew : e.id ∉ order.map Effect.id)
    (hspec : spec t e.op e.result u) : Linearization spec s h (order ++ [e]) u where
  nodup := by
    rw [List.map_append, List.map_singleton]
    exact hl.nodup.append (List.nodup_singleton _) (by simpa using hnew)
  called e' he' := by
    rcases List.mem_append.mp he' with he' | he'
    · exact hl.called e' he'
    · exact List.mem_singleton.mp he' ▸ hcalled
  returned id r hr := by
    obtain ⟨op, hop⟩ := hl.returned id r hr
    exact ⟨op, List.mem_append_left _ hop⟩
  realTime := by
    refine List.pairwise_append.mpr ⟨hl.realTime, List.pairwise_singleton _ _, ?_⟩
    intro a _ b hb hprec
    obtain rfl := List.mem_singleton.mp hb
    -- what has returned has taken effect
    obtain ⟨r, hr⟩ := hprec.ret_mem
    obtain ⟨op, hop⟩ := hl.returned _ r hr
    exact hnew (List.mem_map.mpr ⟨_, hop, rfl⟩)
  sequential := .snoc hl.sequential hspec

/-- An operation that took effect returns its result. -/
theorem ret (hl : Linearization spec s h order t) {e : Effect O R} (he : e ∈ order) :
    Linearization spec s (h ++ [.ret e.id e.result]) order t where
  nodup := hl.nodup
  called e' he' := List.mem_append_left _ (hl.called e' he')
  returned id r hr := by
    rcases List.mem_append.mp hr with hr | hr
    · exact hl.returned id r hr
    · simp only [List.mem_singleton, HistoryEvent.ret.injEq] at hr
      obtain ⟨rfl, rfl⟩ := hr
      exact ⟨e.op, he⟩
  realTime := by
    refine hl.realTime.imp fun {a b} hab hprec => ?_
    rcases precedes_snoc hprec with hprec | ⟨op, hop⟩
    · exact hab hprec
    · cases hop
  sequential := hl.sequential

end Linearization

end Lib
