import BeamJS.Erl.Term

/-!
# Equality of terms

`=:=` on terms, by which the tables of the virtual machine compare their keys, and the same up to
the order in which the entries of a map are listed.
-/

namespace BeamJS

namespace Term

mutual

/-- `a =:= b`. -/
def same : Term → Term → Bool
  | .int m, .int n => m == n
  | .float d, .float e => d == e
  | .atom a, .atom b => a == b
  | .binary a, .binary b => a == b
  | .tuple as, .tuple bs => sameElems as bs
  | .list as, .list bs => sameElems as bs
  | .map es, .map fs => sameEntries es fs
  | .pid p, .pid q => p == q
  | .ref r, .ref s => r == s
  | .other, .other => true
  | _, _ => false

/-- The elements are the same. -/
def sameElems : List Term → List Term → Bool
  | [], [] => true
  | a :: as, b :: bs => same a b && sameElems as bs
  | _, _ => false

/-- The entries are the same, in the one order in which maps are iterated. -/
def sameEntries : List (Term × Term) → List (Term × Term) → Bool
  | [], [] => true
  | (k, a) :: es, (l, b) :: fs => same k l && (same a b && sameEntries es fs)
  | _, _ => false

end

mutual

theorem same_iff (a b : Term) : same a b = true ↔ a = b := by
  cases a with
  | tuple as => cases b <;> simp [same, sameElems_iff as]
  | list as => cases b <;> simp [same, sameElems_iff as]
  | map es => cases b <;> simp [same, sameEntries_iff es]
  | _ => cases b <;> simp [same, Subtype.ext_iff]

theorem sameElems_iff (as bs : List Term) : sameElems as bs = true ↔ as = bs := by
  cases as with
  | nil => cases bs <;> simp [sameElems]
  | cons a as => cases bs <;> simp [sameElems, same_iff a, sameElems_iff as]

theorem sameEntries_iff (es fs : List (Term × Term)) : sameEntries es fs = true ↔ es = fs := by
  cases es with
  | nil => cases fs <;> simp [sameEntries]
  | cons e es =>
    obtain ⟨k, a⟩ := e
    cases fs with
    | nil => simp [sameEntries]
    | cons f fs =>
      obtain ⟨l, b⟩ := f
      simp [sameEntries, same_iff k, same_iff a, sameEntries_iff es, and_assoc]

end

instance : DecidableEq Term := fun a b => decidable_of_iff (same a b = true) (same_iff a b)

/-- Induction over a term with its elements and entries. -/
@[elab_as_elim]
theorem induction_on {P : Term → Prop} (int : ∀ n, P (.int n)) (float : ∀ d, P (.float d))
    (atom : ∀ name, P (.atom name)) (binary : ∀ b, P (.binary b))
    (tuple : ∀ elems, (∀ t ∈ elems, P t) → P (.tuple elems))
    (list : ∀ elems, (∀ t ∈ elems, P t) → P (.list elems))
    (map : ∀ entries, (∀ e ∈ entries, P e.1 ∧ P e.2) → P (.map entries))
    (pid : ∀ p, P (.pid p)) (ref : ∀ r, P (.ref r)) (other : P .other) (t : Term) : P t := by
  refine @Term.rec P (fun ts => ∀ t ∈ ts, P t) (fun es => ∀ e ∈ es, P e.1 ∧ P e.2)
    (fun e => P e.1 ∧ P e.2) int float atom binary tuple list map pid ref other ?_ ?_ ?_ ?_ ?_ t
  · simp
  · exact fun t ts ht hts => List.forall_mem_cons.mpr ⟨ht, hts⟩
  · simp
  · exact fun e es he hes => List.forall_mem_cons.mpr ⟨he, hes⟩
  · exact fun k t hk ht => ⟨hk, ht⟩

/-! ## Up to the order of entries -/

mutual

/-- The terms are the same where the order of the entries of maps does not count. -/
def equal : Term → Term → Bool
  | .int m, .int n => m == n
  | .float d, .float e => d == e
  | .atom a, .atom b => a == b
  | .binary a, .binary b => a == b
  | .tuple as, .tuple bs => equalElems as bs
  | .list as, .list bs => equalElems as bs
  | .map es, .map fs => es.length == fs.length && equalEntries es fs
  | .pid p, .pid q => p == q
  | .ref r, .ref s => r == s
  | .other, .other => true
  | _, _ => false

/-- The elements are equal one by one. -/
def equalElems : List Term → List Term → Bool
  | [], [] => true
  | a :: as, b :: bs => equal a b && equalElems as bs
  | _, _ => false

/-- Every entry of the first list is one of the second. -/
def equalEntries : List (Term × Term) → List (Term × Term) → Bool
  | [], _ => true
  | (k, a) :: es, fs =>
    (match fs.lookup k with
      | some b => equal a b
      | none => false) && equalEntries es fs

end

theorem equalEntries_iff {es fs : List (Term × Term)} :
    equalEntries es fs = true ↔
      ∀ e ∈ es, ∃ b, fs.lookup e.1 = some b ∧ equal e.2 b = true := by
  induction es with
  | nil => simp [equalEntries]
  | cons e es ih =>
    obtain ⟨k, a⟩ := e
    simp only [equalEntries, Bool.and_eq_true, ih, List.forall_mem_cons]
    refine and_congr_left fun _ => ?_
    cases fs.lookup k <;> simp

end Term

end BeamJS
