import Mathlib.Data.List.Forall2
import Mathlib.Data.List.Nodup
import Mathlib.Data.List.Perm.Basic

/-!
# Association lists

Lists of entries read with `List.lookup`: replacing the value of a key, and adding an entry or
replacing it where the key is there already. The order of the entries is kept, because the clients
of this file observe it.
-/

namespace Lib

namespace Assoc

variable {κ β : Type} [DecidableEq κ]

/-- The keys, in the order of the entries. -/
abbrev keys (l : List (κ × β)) : List κ := l.map Prod.fst

/-- Give the entry of `k` the value `v`. -/
def replace (k : κ) (v : β) : List (κ × β) → List (κ × β)
  | [] => []
  | e :: l => if e.1 = k then (k, v) :: l else e :: replace k v l

/-- Give `k` the value `v`, in its own place or at the end. -/
def put (l : List (κ × β)) (k : κ) (v : β) : List (κ × β) :=
  if k ∈ keys l then replace k v l else l ++ [(k, v)]

/-- Put every entry of the second list, in order. -/
def putAll (l : List (κ × β)) (es : List (κ × β)) : List (κ × β) :=
  es.foldl (fun m e => put m e.1 e.2) l

omit [DecidableEq κ] in
theorem mem_keys_of_mem {l : List (κ × β)} {k : κ} {v : β} (h : (k, v) ∈ l) : k ∈ keys l :=
  List.mem_map_of_mem h

omit [DecidableEq κ] in
theorem keys_eq_of_forall₂ {γ : Type} {l : List (κ × β)} {m : List (κ × γ)}
    (h : List.Forall₂ (fun p q => p.1 = q.1) l m) : keys l = keys m := by
  rw [← List.forall₂_eq_eq_eq, keys, keys, List.forall₂_map_left_iff, List.forall₂_map_right_iff]
  exact h

omit [DecidableEq κ] in
theorem forall₂_of_keys_eq {γ : Type} {R : κ × β → κ × γ → Prop} {l : List (κ × β)}
    {m : List (κ × γ)} (hk : keys l = keys m) (h : ∀ a ∈ l, ∀ b ∈ m, a.1 = b.1 → R a b) :
    List.Forall₂ R l m := by
  induction l generalizing m with
  | nil =>
    obtain rfl : m = [] := by simpa using hk.symm
    exact .nil
  | cons a l ih =>
    cases m with
    | nil => simp at hk
    | cons b m =>
      obtain ⟨hab, hk⟩ := List.cons_eq_cons.mp hk
      refine .cons (h a (List.mem_cons_self ..) b (List.mem_cons_self ..) hab) (ih hk ?_)
      exact fun a' ha' b' hb' => h a' (List.mem_cons_of_mem _ ha') b' (List.mem_cons_of_mem _ hb')

@[simp] theorem keys_replace (k : κ) (v : β) (l : List (κ × β)) :
    keys (replace k v l) = keys l := by
  induction l with
  | nil => rfl
  | cons e l ih =>
    by_cases h : e.1 = k
    · simp [replace, h]
    · simpa [replace, h] using ih

theorem put_of_notMem {l : List (κ × β)} {k : κ} (h : k ∉ keys l) (v : β) :
    put l k v = l ++ [(k, v)] := if_neg h

theorem mem_keys_put {l : List (κ × β)} {k x : κ} {v : β} (h : x ∈ keys (put l k v)) :
    x ∈ keys l ∨ x = k := by
  unfold put at h
  split at h
  · rw [keys_replace] at h
    exact .inl h
  · simpa [keys] using h

theorem mem_keys_putAll {l es : List (κ × β)} {x : κ} (h : x ∈ keys (putAll l es)) :
    x ∈ keys l ∨ x ∈ keys es := by
  induction es generalizing l with
  | nil => exact .inl h
  | cons e es ih =>
    rcases ih h with hx | hx
    · rcases mem_keys_put hx with hx | rfl
      · exact .inl hx
      · exact .inr (List.mem_cons_self ..)
    · exact .inr (List.mem_cons_of_mem _ hx)

theorem mem_replace {l : List (κ × β)} {k : κ} {v : β} {e : κ × β} (h : e ∈ replace k v l) :
    e ∈ l ∨ e = (k, v) := by
  induction l with
  | nil => simp [replace] at h
  | cons x l ih =>
    rw [replace] at h
    split at h
    · rcases List.mem_cons.mp h with rfl | h
      · exact .inr rfl
      · exact .inl (List.mem_cons_of_mem _ h)
    · rcases List.mem_cons.mp h with rfl | h
      · exact .inl (List.mem_cons_self ..)
      · exact (ih h).imp_left (List.mem_cons_of_mem _)

theorem mem_put {l : List (κ × β)} {k : κ} {v : β} {e : κ × β} (h : e ∈ put l k v) :
    e ∈ l ∨ e = (k, v) := by
  unfold put at h
  split at h
  · exact mem_replace h
  · simpa using h

/-- Every entry has been put. -/
theorem mem_putAll {l es : List (κ × β)} {e : κ × β} (h : e ∈ putAll l es) : e ∈ l ∨ e ∈ es := by
  induction es generalizing l with
  | nil => exact .inl h
  | cons x es ih =>
    rcases ih h with he | he
    · rcases mem_put he with he | rfl
      · exact .inl he
      · exact .inr (List.mem_cons_self ..)
    · exact .inr (List.mem_cons_of_mem _ he)

theorem nodup_keys_put {l : List (κ × β)} (h : (keys l).Nodup) (k : κ) (v : β) :
    (keys (put l k v)).Nodup := by
  unfold put
  split
  · rwa [keys_replace]
  · rename_i hk
    have hdisj : ∀ a ∈ keys l, ∀ b ∈ [k], a ≠ b := by
      intro a ha b hb hab
      obtain rfl := List.mem_singleton.mp hb
      exact hk (hab ▸ ha)
    simpa [keys] using List.nodup_append.mpr ⟨h, List.nodup_singleton k, hdisj⟩

/-- However often a key is put, it has one entry. -/
theorem nodup_keys_putAll {l : List (κ × β)} (h : (keys l).Nodup) (es : List (κ × β)) :
    (keys (putAll l es)).Nodup := by
  induction es generalizing l with
  | nil => exact h
  | cons e es ih => exact ih (nodup_keys_put h e.1 e.2)

/-- Entries with new and distinct keys are appended. -/
theorem putAll_of_nodup {l es : List (κ × β)} (h : (keys (l ++ es)).Nodup) :
    putAll l es = l ++ es := by
  induction es generalizing l with
  | nil => simp [putAll]
  | cons e es ih =>
    have hk : e.1 ∉ keys l := by
      rw [keys, List.map_append, List.map_cons] at h
      intro hmem
      exact (List.disjoint_of_nodup_append h) hmem (List.mem_cons_self ..)
    have happ : l ++ e :: es = (l ++ [e]) ++ es := by simp
    rw [putAll, List.foldl_cons, put_of_notMem hk]
    rw [happ] at h ⊢
    exact ih h

section Lookup

variable {κ β : Type} [BEq κ] [LawfulBEq κ]

theorem lookup_cons_of_ne {k k' : κ} (h : k ≠ k') (v : β) (l : List (κ × β)) :
    ((k', v) :: l).lookup k = l.lookup k := by
  have hb : (k == k') = false := beq_eq_false_iff_ne.mpr h
  simp only [List.lookup_cons, hb]

theorem lookup_map_snd {γ : Type} (f : β → γ) (l : List (κ × β)) (k : κ) :
    (l.map fun e => (e.1, f e.2)).lookup k = (l.lookup k).map f := by
  induction l with
  | nil => rfl
  | cons e l ih =>
    obtain ⟨k', v⟩ := e
    rcases eq_or_ne k k' with rfl | hk
    · rw [List.map_cons, List.lookup_cons_self, List.lookup_cons_self]
      rfl
    · rw [List.map_cons, lookup_cons_of_ne hk, lookup_cons_of_ne hk, ih]

/-- Renaming the keys by a function that tells `k` from the others keeps its entry. -/
theorem lookup_map_key {κ' γ : Type} [BEq κ'] [LawfulBEq κ'] (f : κ → κ') (g : β → γ)
    {l : List (κ × β)} {k : κ} (h : ∀ e ∈ l, f e.1 = f k → e.1 = k) :
    (l.map fun e => (f e.1, g e.2)).lookup (f k) = (l.lookup k).map g := by
  induction l with
  | nil => rfl
  | cons e l ih =>
    obtain ⟨k', v⟩ := e
    obtain ⟨he, hl⟩ := List.forall_mem_cons.mp h
    rcases eq_or_ne k k' with rfl | hk
    · rw [List.map_cons, List.lookup_cons_self, List.lookup_cons_self]
      rfl
    · have hf : f k ≠ f k' := fun heq => hk (he heq.symm).symm
      rw [List.map_cons, lookup_cons_of_ne hk, lookup_cons_of_ne hf, ih hl]

theorem mem_of_lookup {l : List (κ × β)} {k : κ} {v : β} (h : l.lookup k = some v) :
    (k, v) ∈ l := by
  induction l with
  | nil => simp at h
  | cons e l ih =>
    obtain ⟨k', v'⟩ := e
    rcases eq_or_ne k k' with hk | hk
    · subst hk
      have hv : v' = v := by simpa [List.lookup_cons] using h
      rw [hv]
      exact List.mem_cons_self ..
    · rw [lookup_cons_of_ne hk] at h
      exact List.mem_cons_of_mem _ (ih h)

theorem lookup_of_mem {l : List (κ × β)} {k : κ} {v : β} (hnd : (keys l).Nodup)
    (h : (k, v) ∈ l) : l.lookup k = some v := by
  induction l with
  | nil => simp at h
  | cons e l ih =>
    obtain ⟨k', v'⟩ := e
    obtain ⟨hne, hnd⟩ := List.nodup_cons.mp hnd
    rcases List.mem_cons.mp h with heq | hl
    · cases heq
      exact List.lookup_cons_self
    · have hk : k ≠ k' := by
        rintro rfl
        exact hne (mem_keys_of_mem hl)
      rw [lookup_cons_of_ne hk]
      exact ih hnd hl

theorem lookup_replace_self [DecidableEq κ] {l : List (κ × β)} {k : κ} (h : k ∈ keys l) (v : β) :
    (replace k v l).lookup k = some v := by
  induction l with
  | nil => simp at h
  | cons e l ih =>
    rw [replace]
    split
    · exact List.lookup_cons_self
    · rename_i hne
      have hk : k ∈ keys l := by
        rcases List.mem_cons.mp h with rfl | h
        · exact absurd rfl hne
        · exact h
      rw [lookup_cons_of_ne (Ne.symm hne)]
      exact ih hk

theorem lookup_eq_none {l : List (κ × β)} {k : κ} : l.lookup k = none ↔ k ∉ keys l := by
  constructor
  · intro h hmem
    obtain ⟨e, he, rfl⟩ := List.mem_map.mp hmem
    simpa using List.lookup_eq_none_iff.mp h e he
  · intro h
    refine List.lookup_eq_none_iff.mpr fun e he => ?_
    simpa using fun heq : k = e.1 => h (heq ▸ mem_keys_of_mem he)

end Lookup

end Assoc

end Lib
