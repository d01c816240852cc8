import BeamJS.Js.PlainData
import Mathlib.Data.List.Perm.Subperm

/-!
# Proofs: properties of objects

What `JS_SetProperty` does to the own properties of an object, for one property and for the loop
that builds an object, and deep equality read property by property.
-/

namespace BeamJS

open Lib

theorem insertProp_perm (k : JsString) (v : JsValue) (props : List (JsString × JsValue)) :
    (insertProp k v props).Perm ((k, v) :: props) := by
  unfold insertProp
  split
  · rename_i i _
    have hmid : (props.takeWhile (indexBefore i) ++ (k, v) :: props.dropWhile (indexBefore i)).Perm
        ((k, v) :: (props.takeWhile (indexBefore i) ++ props.dropWhile (indexBefore i))) :=
      List.perm_middle
    rwa [List.takeWhile_append_dropWhile] at hmid
  · exact List.perm_append_singleton _ _

namespace JsValue

/-- An own property hides the inherited one. -/
theorem getProp?_object (builtins : Builtins) (k : JsString) (proto : Option JsValue)
    (props : List (JsString × JsValue)) :
    getProp? builtins k (.object proto props) =
      (props.lookup k).or (proto.elim (builtins .object k) (getProp? builtins k)) := by
  cases hl : props.lookup k <;> cases proto <;> simp [getProp?, hl]

/-- What `JS_SetProperty` can do: it adds a property under a new name, or it leaves the names as
they are. -/
theorem setProp_cases (proto : Option JsValue) (props : List (JsString × JsValue)) (k : JsString)
    (v : JsValue) :
    (k ∉ Assoc.keys props ∧ ¬ (k = js "__proto__" ∧ (object proto []).leadsToAccessor) ∧
      setProp (.object proto props) k v = .object proto (insertProp k v props)) ∨
    (∃ proto' props', setProp (.object proto props) k v = .object proto' props' ∧
      Assoc.keys props' = Assoc.keys props) := by
  by_cases hk : k ∈ Assoc.keys props
  · refine .inr ⟨proto, Assoc.replace k v props, ?_, Assoc.keys_replace k v props⟩
    simp only [setProp, if_pos hk]
  by_cases hp : k = js "__proto__" ∧ (object proto []).leadsToAccessor
  · right
    simp only [setProp, if_neg hk, if_pos hp, setProto]
    split
    · exact ⟨_, _, rfl, rfl⟩
    · split
      · exact ⟨_, _, rfl, rfl⟩
      · exact ⟨_, _, rfl, rfl⟩
  · refine .inl ⟨hk, hp, ?_⟩
    simp only [setProp, if_neg hk, if_neg hp]

theorem setProp_new {proto : Option JsValue} {props : List (JsString × JsValue)} {k : JsString}
    (hk : k ∉ Assoc.keys props) (hp : k ≠ js "__proto__") (v : JsValue) :
    setProp (.object proto props) k v = .object proto (insertProp k v props) := by
  have hp' : ¬ (k = js "__proto__" ∧ (object proto []).leadsToAccessor) := fun h => hp h.1
  simp only [setProp, if_neg hk, if_neg hp']

/-- Set each property in turn. -/
def setProps (obj : JsValue) (es : List (JsString × JsValue)) : JsValue :=
  es.foldl (fun o e => o.setProp e.1 e.2) obj

/-- The loop makes at most one property for each entry, and its names are those of the entries. -/
theorem setProps_bound (es : List (JsString × JsValue)) (proto : Option JsValue)
    (acc : List (JsString × JsValue)) :
    ∃ proto' props, setProps (.object proto acc) es = .object proto' props ∧
      props.length ≤ acc.length + es.length ∧
      (∀ k ∈ Assoc.keys props, k ∈ Assoc.keys acc ∨ k ∈ Assoc.keys es) ∧
      ((Assoc.keys acc).Nodup → (Assoc.keys props).Nodup) := by
  induction es generalizing proto acc with
  | nil => exact ⟨proto, acc, rfl, by simp, fun k hk => .inl hk, id⟩
  | cons e es ih =>
    rcases setProp_cases proto acc e.1 e.2 with ⟨hk, _, heq⟩ | ⟨proto', acc', heq, hkeys⟩
    · have hperm := insertProp_perm e.1 e.2 acc
      have hpk : (Assoc.keys (insertProp e.1 e.2 acc)).Perm (e.1 :: Assoc.keys acc) :=
        hperm.map Prod.fst
      obtain ⟨p, props, hrun, hlen, hsub, hnd⟩ := ih proto (insertProp e.1 e.2 acc)
      refine ⟨p, props, ?_, ?_, ?_, ?_⟩
      · rw [setProps, List.foldl_cons, heq]
        exact hrun
      · have := hperm.length_eq
        simp only [List.length_cons] at this ⊢
        omega
      · intro k hmem
        rcases hsub k hmem with h | h
        · rcases List.mem_cons.mp (hpk.mem_iff.mp h) with rfl | h
          · exact .inr (List.mem_cons_self ..)
          · exact .inl h
        · exact .inr (List.mem_cons_of_mem _ h)
      · intro hacc
        exact hnd (hpk.nodup_iff.mpr (List.nodup_cons.mpr ⟨hk, hacc⟩))
    · obtain ⟨p, props, hrun, hlen, hsub, hnd⟩ := ih proto' acc'
      have hl : acc'.length = acc.length := by simpa using congrArg List.length hkeys
      refine ⟨p, props, ?_, ?_, ?_, ?_⟩
      · rw [setProps, List.foldl_cons, heq]
        exact hrun
      · simp only [List.length_cons]
        omega
      · intro k hmem
        rcases hsub k hmem with h | h
        · exact .inl (hkeys ▸ h)
        · exact .inr (List.mem_cons_of_mem _ h)
      · rw [hkeys] at hnd
        exact hnd

/-- Entries under new and distinct names other than `__proto__` all become properties. -/
theorem setProps_new (proto : Option JsValue) (acc : List (JsString × JsValue))
    {es : List (JsString × JsValue)}
    (hnd : (Assoc.keys (acc ++ es)).Nodup) (hp : js "__proto__" ∉ Assoc.keys es) :
    ∃ props, setProps (.object proto acc) es = .object proto props ∧ props.Perm (acc ++ es) := by
  induction es generalizing acc with
  | nil => exact ⟨acc, rfl, by simp⟩
  | cons e es ih =>
    obtain ⟨hpe, hpes⟩ : e.1 ≠ js "__proto__" ∧ js "__proto__" ∉ Assoc.keys es := by
      simpa [eq_comm] using hp
    have hperm : (acc ++ e :: es).Perm (insertProp e.1 e.2 acc ++ es) :=
      List.perm_middle.trans ((insertProp_perm e.1 e.2 acc).symm.append_right es)
    have hk : e.1 ∉ Assoc.keys acc := by
      intro hmem
      rw [Assoc.keys, List.map_append] at hnd
      exact List.disjoint_of_nodup_append hnd hmem (List.mem_cons_self ..)
    obtain ⟨props, hrun, hprops⟩ := ih (insertProp e.1 e.2 acc) ((hperm.map Prod.fst).nodup_iff.mp hnd) hpes
    refine ⟨props, ?_, hprops.trans hperm.symm⟩
    rw [setProps, List.foldl_cons, setProp_new hk hpe]
    exact hrun

/-- A loop from an object without `__proto__` accessor in the way that makes a property for every
entry had distinct names, none of them `__proto__`. -/
theorem setProps_full (acc : List (JsString × JsValue)) {es : List (JsString × JsValue)}
    (hacc : (Assoc.keys acc).Nodup ∧ js "__proto__" ∉ Assoc.keys acc) {proto : Option JsValue}
    {props : List (JsString × JsValue)} (h : setProps (.object none acc) es = .object proto props)
    (hlen : acc.length + es.length ≤ props.length) :
    (Assoc.keys (acc ++ es)).Nodup ∧ js "__proto__" ∉ Assoc.keys es := by
  induction es generalizing acc with
  | nil => simpa using hacc.1
  | cons e es ih =>
    rw [setProps, List.foldl_cons] at h
    rcases setProp_cases none acc e.1 e.2 with ⟨hk, hne, heq⟩ | ⟨proto', acc', heq, hkeys⟩
    · have hpe : e.1 ≠ js "__proto__" := fun he => hne ⟨he, rfl⟩
      have hperm : (acc ++ e :: es).Perm (insertProp e.1 e.2 acc ++ es) :=
        List.perm_middle.trans ((insertProp_perm e.1 e.2 acc).symm.append_right es)
      have hpk : (Assoc.keys (insertProp e.1 e.2 acc)).Perm (e.1 :: Assoc.keys acc) :=
        (insertProp_perm e.1 e.2 acc).map Prod.fst
      have hacc' : (Assoc.keys (insertProp e.1 e.2 acc)).Nodup ∧
          js "__proto__" ∉ Assoc.keys (insertProp e.1 e.2 acc) := by
        refine ⟨hpk.nodup_iff.mpr (List.nodup_cons.mpr ⟨hk, hacc.1⟩), fun hmem => ?_⟩
        rcases List.mem_cons.mp (hpk.mem_iff.mp hmem) with h | h
        · exact hpe h.symm
        · exact hacc.2 h
      rw [heq] at h
      have hl : (insertProp e.1 e.2 acc).length + es.length ≤ props.length := by
        have := (insertProp_perm e.1 e.2 acc).length_eq
        simp only [List.length_cons] at this hlen
        omega
      obtain ⟨hnd, hp⟩ := ih _ hacc' h hl
      refine ⟨(hperm.map Prod.fst).nodup_iff.mpr hnd, ?_⟩
      exact List.not_mem_cons_of_ne_of_not_mem (Ne.symm hpe) hp
    · -- this entry made no property, and the others do not make up for it
      exfalso
      rw [heq] at h
      obtain ⟨_, props', hrun, hle, _⟩ := setProps_bound es proto' acc'
      have heq' : props' = props := by
        rw [setProps, h] at hrun
        cases hrun
        rfl
      have hl : acc'.length = acc.length := by simpa using congrArg List.length hkeys
      simp only [List.length_cons] at hlen
      subst heq'
      omega

/-! ## Deep equality and plain data -/

theorem deepEqProps_iff {ps qs : List (JsString × JsValue)} :
    deepEqProps ps qs = true ↔ ∀ e ∈ ps, ∃ w, qs.lookup e.1 = some w ∧ deepEq e.2 w = true := by
  induction ps with
  | nil => simp [deepEqProps]
  | cons e ps ih =>
    obtain ⟨k, v⟩ := e
    simp only [deepEqProps, Bool.and_eq_true, ih, List.forall_mem_cons]
    refine and_congr_left fun _ => ?_
    cases qs.lookup k <;> simp

/-- The names of deep-equal objects are the same. -/
theorem keys_perm_of_deepEq {p q : Option JsValue} {ps qs : List (JsString × JsValue)}
    (hnd : (Assoc.keys ps).Nodup) (h : deepEq (.object p ps) (.object q qs) = true) :
    (Assoc.keys ps).Perm (Assoc.keys qs) := by
  simp only [deepEq, Bool.and_eq_true, beq_iff_eq] at h
  have hsub : Assoc.keys ps ⊆ Assoc.keys qs := by
    intro k hk
    obtain ⟨e, he, rfl⟩ := List.mem_map.mp hk
    obtain ⟨w, hw, _⟩ := deepEqProps_iff.mp h.2 e he
    exact Assoc.mem_keys_of_mem (Assoc.mem_of_lookup hw)
  exact (List.subperm_of_subset hnd hsub).perm_of_length_le (by simpa using h.1.ge)

theorem allData_iff {vs : List JsValue} : allData vs = true ↔ ∀ v ∈ vs, isData v = true := by
  induction vs with
  | nil => simp [allData]
  | cons v vs ih => simp [allData, ih]

theorem allDataProps_iff {props : List (JsString × JsValue)} :
    allDataProps props = true ↔ ∀ e ∈ props, isData e.2 = true := by
  induction props with
  | nil => simp [allDataProps]
  | cons e props ih => simp [allDataProps, ih]

theorem isData_object {proto : Option JsValue} {props : List (JsString × JsValue)} :
    isData (.object proto props) = true ↔
      isPlainProto proto = true ∧ (Assoc.keys props).Nodup ∧ ∀ e ∈ props, isData e.2 = true := by
  show (isPlainProto proto && decide (Assoc.keys props).Nodup && allDataProps props) = true ↔ _
  rw [Bool.and_eq_true, Bool.and_eq_true, decide_eq_true_eq, allDataProps_iff, and_assoc]

theorem deepEqList_refl {vs : List JsValue} (h : ∀ v ∈ vs, deepEq v v = true) :
    deepEqList vs vs = true := by
  induction vs with
  | nil => rfl
  | cons v vs ih =>
    obtain ⟨hv, hvs⟩ := List.forall_mem_cons.mp h
    show (deepEq v v && deepEqList vs vs) = true
    rw [hv, ih hvs]
    rfl

theorem deepEq_refl {v : JsValue} (hv : isData v = true) : deepEq v v = true := by
  induction v using JsValue.induction_on with
  | undefined | null => rfl
  | bool | number | string => exact beq_self_eq_true _
  | array elems ih => exact deepEqList_refl fun v hmem => ih v hmem (allData_iff.mp hv v hmem)
  | object proto props _ ih =>
    obtain ⟨-, hnd, hall⟩ := isData_object.mp hv
    show (props.length == props.length && deepEqProps props props) = true
    rw [beq_self_eq_true, Bool.true_and]
    refine deepEqProps_iff.mpr fun e he => ⟨e.2, Assoc.lookup_of_mem hnd he, ?_⟩
    exact ih e he (hall e he)
  | bigint | symbol | func | error | promise => cases hv

theorem deepEqList_trans {us vs ws : List JsValue}
    (ih : ∀ u ∈ us, ∀ v w, deepEq u v = true → deepEq v w = true → deepEq u w = true)
    (huv : deepEqList us vs = true) (hvw : deepEqList vs ws = true) : deepEqList us ws = true := by
  induction us generalizing vs ws with
  | nil =>
    cases vs with
    | nil => exact hvw
    | cons => cases huv
  | cons u us ihus =>
    obtain ⟨hu, hus⟩ := List.forall_mem_cons.mp ih
    match vs, ws, huv, hvw with
    | v :: vs, w :: ws, huv, hvw =>
      simp only [deepEqList, Bool.and_eq_true] at huv hvw ⊢
      exact ⟨hu v w huv.1 hvw.1, ihus hus huv.2 hvw.2⟩

theorem deepEq_trans {u v w : JsValue} (huv : deepEq u v = true) (hvw : deepEq v w = true) :
    deepEq u w = true := by
  induction u using JsValue.induction_on generalizing v w with
  | undefined | null | bool | number | bigint | string =>
    cases v with
    | undefined | null | bool | number | bigint | string =>
      cases w <;> simp_all [deepEq]
    | _ => simp [deepEq] at huv
  | array us ih =>
    cases v with
    | array vs =>
      cases w with
      | array ws => exact deepEqList_trans (fun u hu v w => ih u hu) huv hvw
      | _ => simp [deepEq] at hvw
    | _ => simp [deepEq] at huv
  | object p ps _ ih =>
    cases v with
    | object q qs =>
      cases w with
      | object r rs =>
        simp only [deepEq, Bool.and_eq_true, beq_iff_eq, deepEqProps_iff] at huv hvw ⊢
        refine ⟨huv.1.trans hvw.1, fun e he => ?_⟩
        obtain ⟨x, hx, hex⟩ := huv.2 e he
        obtain ⟨y, hy, hxy⟩ := hvw.2 (e.1, x) (Assoc.mem_of_lookup hx)
        exact ⟨y, hy, ih e he hex hxy⟩
      | _ => simp [deepEq] at hvw
    | _ => simp [deepEq] at huv
  | symbol | func | error | promise => cases v <;> simp [deepEq] at huv

theorem allPlainData_iff {vs : List JsValue} :
    allPlainData vs = true ↔ ∀ v ∈ vs, isPlainData v = true := by
  induction vs with
  | nil => simp [allPlainData]
  | cons v vs ih => simp [allPlainData, ih]

theorem allPlainProps_iff {props : List (JsString × JsValue)} :
    allPlainProps props = true ↔ ∀ e ∈ props, isPlainData e.2 = true := by
  induction props with
  | nil => simp [allPlainProps]
  | cons e props ih => simp [allPlainProps, ih]

theorem isData_of_isPlainData {v : JsValue} (hv : isPlainData v = true) : isData v = true := by
  induction v using JsValue.induction_on with
  | undefined | null | bool | string => rfl
  | number n =>
    simp only [isPlainData, isPlainNumber, Bool.and_eq_true] at hv
    exact hv.1
  | array elems ih =>
    exact allData_iff.mpr fun v hmem => ih v hmem (allPlainData_iff.mp hv v hmem)
  | object proto props _ ih =>
    simp only [isPlainData, Bool.and_eq_true] at hv
    simp only [isData, Bool.and_eq_true]
    obtain ⟨⟨⟨hproto, hnd⟩, _⟩, hall⟩ := hv
    exact ⟨⟨hproto, hnd⟩, allDataProps_iff.mpr fun e he => ih e he (allPlainProps_iff.mp hall e he)⟩
  | bigint | symbol | func | error | promise => simp [isPlainData] at hv

end JsValue

end BeamJS
