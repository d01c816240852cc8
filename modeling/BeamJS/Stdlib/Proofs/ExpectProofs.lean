import BeamJS.Stdlib.Expect
import BeamJS.Js.Proofs.JsonProofs
import BeamJS.Js.Proofs.ValueProofs

/-!
# Proofs: `expect(value).toEqual(expected)`

Deep equality is to show the same and to hide the same; equal texts are to show the same and to list
it in the same order. Each is an induction over the first value.
-/

namespace BeamJS

open Lib

namespace JsValue

/-! ## The comparisons -/

section Everywhere

variable {test test₁ test₂ : JsValue → JsValue → Bool}

theorem everywhereProps_iff {ps qs : List (JsString × JsValue)} :
    everywhereProps test ps qs = true ↔
      ∀ e ∈ ps, ∀ w, qs.lookup e.1 = some w → everywhere test e.2 w = true := by
  induction ps with
  | nil => simp [everywhereProps]
  | cons e ps ih =>
    obtain ⟨k, v⟩ := e
    simp only [everywhereProps, Bool.and_eq_true, ih, List.forall_mem_cons]
    refine and_congr_left fun _ => ?_
    cases qs.lookup k <;> simp

/-- A relation that the comparison decides for the elements is decided for the arrays. -/
theorem forall₂_iff_everywhereElems {R : JsValue → JsValue → Prop} {xs ys : List JsValue}
    (h : ∀ x ∈ xs, ∀ y ∈ ys, R x y ↔ everywhere test x y = true) :
    List.Forall₂ R xs ys ↔ xs.length = ys.length ∧ everywhereElems test xs ys = true := by
  induction xs generalizing ys with
  | nil => cases ys <;> simp [everywhereElems]
  | cons x xs ih =>
    cases ys with
    | nil => simp
    | cons y ys =>
      have hhead := h x List.mem_cons_self y List.mem_cons_self
      have htail := ih fun x' hx y' hy =>
        h x' (List.mem_cons_of_mem _ hx) y' (List.mem_cons_of_mem _ hy)
      rw [List.forall₂_cons, hhead, htail, everywhereElems, Bool.and_eq_true, List.length_cons,
        List.length_cons, Nat.add_right_cancel_iff]
      exact and_left_comm

theorem deepEqList_iff {xs ys : List JsValue} :
    deepEqList xs ys = true ↔ List.Forall₂ (deepEq · · = true) xs ys := by
  induction xs generalizing ys with
  | nil => cases ys <;> simp [deepEqList]
  | cons x xs ih =>
    cases ys with
    | nil => simp [deepEqList]
    | cons y ys => rw [deepEqList, Bool.and_eq_true, ih, List.forall₂_cons]

theorem everywhereElems_and {xs : List JsValue}
    (ih : ∀ x ∈ xs, ∀ w, everywhere (fun a b => test₁ a b && test₂ a b) x w = true ↔
      everywhere test₁ x w = true ∧ everywhere test₂ x w = true) (ys : List JsValue) :
    everywhereElems (fun a b => test₁ a b && test₂ a b) xs ys = true ↔
      everywhereElems test₁ xs ys = true ∧ everywhereElems test₂ xs ys = true := by
  induction xs generalizing ys with
  | nil => simp [everywhereElems]
  | cons x xs ihs =>
    cases ys with
    | nil => simp [everywhereElems]
    | cons y ys =>
      obtain ⟨hx, hxs⟩ := List.forall_mem_cons.mp ih
      simp only [everywhereElems, Bool.and_eq_true, hx, ihs hxs]
      exact and_and_and_comm

/-- Two tests can be made one after the other. -/
theorem everywhere_and {v w : JsValue} :
    everywhere (fun a b => test₁ a b && test₂ a b) v w = true ↔
      everywhere test₁ v w = true ∧ everywhere test₂ v w = true := by
  induction v using JsValue.induction_on generalizing w with
  | array xs ih =>
    cases w with
    | array ys =>
      simp only [everywhere, Bool.and_eq_true, everywhereElems_and (fun x hx w => ih x hx)]
      exact and_and_and_comm
    | _ => simp [everywhere]
  | object p ps _ ih =>
    cases w with
    | object q qs =>
      have hprops : everywhereProps (fun a b => test₁ a b && test₂ a b) ps qs = true ↔
          everywhereProps test₁ ps qs = true ∧ everywhereProps test₂ ps qs = true := by
        simp only [everywhereProps_iff]
        constructor
        · intro h
          exact ⟨fun e he w hw => ((ih e he).mp (h e he w hw)).1,
            fun e he w hw => ((ih e he).mp (h e he w hw)).2⟩
        · rintro ⟨h₁, h₂⟩ e he w hw
          exact (ih e he).mpr ⟨h₁ e he w hw, h₂ e he w hw⟩
      simp only [everywhere, Bool.and_eq_true, hprops]
      exact and_and_and_comm
    | _ => simp [everywhere]
  | _ => simp [everywhere]

end Everywhere

/-! ## Names -/

theorem sameNames_iff {ks ls : List JsString} :
    sameNames ks ls = true ↔ ∀ k, k ∈ ks ↔ k ∈ ls := by
  simp only [sameNames, Bool.and_eq_true, List.all_eq_true, List.contains_iff_mem]
  exact ⟨fun h k => ⟨h.1 k, h.2 k⟩, fun h => ⟨fun k => (h k).mp, fun k => (h k).mpr⟩⟩

theorem mem_shownNames {props : List (JsString × JsValue)} (hnd : (Assoc.keys props).Nodup)
    {k : JsString} : k ∈ shownNames props ↔ ∃ v, props.lookup k = some v ∧ v.isShown = true := by
  constructor
  · intro h
    obtain ⟨⟨k, v⟩, he, rfl⟩ := List.mem_map.mp h
    obtain ⟨he, hs⟩ := List.mem_filter.mp he
    exact ⟨v, Assoc.lookup_of_mem hnd he, hs⟩
  · rintro ⟨v, hv, hs⟩
    exact List.mem_map.mpr ⟨(k, v), List.mem_filter.mpr ⟨Assoc.mem_of_lookup hv, hs⟩, rfl⟩

theorem mem_hiddenNames {props : List (JsString × JsValue)} (hnd : (Assoc.keys props).Nodup)
    {k : JsString} : k ∈ hiddenNames props ↔ ∃ v, props.lookup k = some v ∧ v.isShown = false := by
  constructor
  · intro h
    obtain ⟨⟨k, v⟩, he, rfl⟩ := List.mem_map.mp h
    obtain ⟨he, hs⟩ := List.mem_filter.mp he
    exact ⟨v, Assoc.lookup_of_mem hnd he, by simpa using hs⟩
  · rintro ⟨v, hv, hs⟩
    exact List.mem_map.mpr ⟨(k, v), List.mem_filter.mpr ⟨Assoc.mem_of_lookup hv, by simpa using hs⟩,
      rfl⟩

/-- The shown and the hidden names are all the names. -/
theorem mem_keys_iff {props : List (JsString × JsValue)} {k : JsString} :
    k ∈ Assoc.keys props ↔ k ∈ shownNames props ∨ k ∈ hiddenNames props := by
  constructor
  · intro h
    obtain ⟨e, he, rfl⟩ := List.mem_map.mp h
    cases hs : e.2.isShown with
    | true => exact .inl (List.mem_map_of_mem (List.mem_filter.mpr ⟨he, hs⟩))
    | false => exact .inr (List.mem_map_of_mem (List.mem_filter.mpr ⟨he, by simp [hs]⟩))
  · rintro (h | h)
    · obtain ⟨e, he, rfl⟩ := List.mem_map.mp h
      exact List.mem_map_of_mem (List.mem_filter.mp he).1
    · obtain ⟨e, he, rfl⟩ := List.mem_map.mp h
      exact List.mem_map_of_mem (List.mem_filter.mp he).1

/-! ## Deep equality -/

/-- What is deep-equal to a value is shown like it. -/
theorem isShown_eq_of_deepEq {v w : JsValue} (h : deepEq v w = true) : v.isShown = w.isShown := by
  cases v <;> cases w <;> first | rfl | cases h

/-- Objects of properties that are deep-equal name by name show and hide the same names. -/
theorem sameNames_of_deepEq {p q : Option JsValue} {ps qs : List (JsString × JsValue)}
    (hps : (Assoc.keys ps).Nodup) (hqs : (Assoc.keys qs).Nodup)
    (h : deepEq (.object p ps) (.object q qs) = true) :
    sameNames (shownNames ps) (shownNames qs) = true ∧
      sameNames (hiddenNames ps) (hiddenNames qs) = true := by
  have hperm := keys_perm_of_deepEq hps h
  simp only [deepEq, Bool.and_eq_true] at h
  have hvalues := deepEqProps_iff.mp h.2
  -- under each name both objects have a value, of which both or none are shown
  have hto {k : JsString} {v : JsValue} (hv : ps.lookup k = some v) :
      ∃ w, qs.lookup k = some w ∧ w.isShown = v.isShown := by
    obtain ⟨w, hw, hvw⟩ := hvalues (k, v) (Assoc.mem_of_lookup hv)
    exact ⟨w, hw, (isShown_eq_of_deepEq hvw).symm⟩
  have hfrom {k : JsString} {w : JsValue} (hw : qs.lookup k = some w) :
      ∃ v, ps.lookup k = some v ∧ v.isShown = w.isShown := by
    have hk : k ∈ Assoc.keys ps :=
      hperm.mem_iff.mpr (Assoc.mem_keys_of_mem (Assoc.mem_of_lookup hw))
    obtain ⟨⟨k', v⟩, he, rfl⟩ := List.mem_map.mp hk
    have hv := Assoc.lookup_of_mem hps he
    obtain ⟨w', hw', hs⟩ := hto hv
    obtain rfl : w' = w := Option.some.inj (hw'.symm.trans hw)
    exact ⟨v, hv, hs.symm⟩
  simp only [sameNames_iff, mem_shownNames hps, mem_shownNames hqs, mem_hiddenNames hps,
    mem_hiddenNames hqs]
  refine ⟨fun k => ⟨?_, ?_⟩, fun k => ⟨?_, ?_⟩⟩
  · rintro ⟨v, hv, hs⟩
    obtain ⟨w, hw, hsw⟩ := hto hv
    exact ⟨w, hw, hsw.trans hs⟩
  · rintro ⟨w, hw, hs⟩
    obtain ⟨v, hv, hsv⟩ := hfrom hw
    exact ⟨v, hv, hsv.trans hs⟩
  · rintro ⟨v, hv, hs⟩
    obtain ⟨w, hw, hsw⟩ := hto hv
    exact ⟨w, hw, hsw.trans hs⟩
  · rintro ⟨w, hw, hs⟩
    obtain ⟨v, hv, hsv⟩ := hfrom hw
    exact ⟨v, hv, hsv.trans hs⟩

/-- Objects with the same names that agree name by name are deep-equal. -/
theorem deepEq_of_sameNames {p q : Option JsValue} {ps qs : List (JsString × JsValue)}
    (hps : (Assoc.keys ps).Nodup) (hqs : (Assoc.keys qs).Nodup)
    (hshown : sameNames (shownNames ps) (shownNames qs) = true)
    (hhidden : sameNames (hiddenNames ps) (hiddenNames qs) = true)
    (h : ∀ e ∈ ps, ∀ w, qs.lookup e.1 = some w → deepEq e.2 w = true) :
    deepEq (.object p ps) (.object q qs) = true := by
  have hkeys (k : JsString) : k ∈ Assoc.keys ps ↔ k ∈ Assoc.keys qs := by
    rw [mem_keys_iff, mem_keys_iff, sameNames_iff.mp hshown k, sameNames_iff.mp hhidden k]
  have hlen := ((List.perm_ext_iff_of_nodup hps hqs).mpr hkeys).length_eq
  rw [List.length_map, List.length_map] at hlen
  rw [deepEq, Bool.and_eq_true, beq_iff_eq]
  refine ⟨hlen, deepEqProps_iff.mpr fun e he => ?_⟩
  obtain ⟨⟨k, w⟩, hf, hk⟩ := List.mem_map.mp ((hkeys e.1).mp (List.mem_map_of_mem he))
  have hw : qs.lookup e.1 = some w := by
    rw [← hk]
    exact Assoc.lookup_of_mem hqs hf
  exact ⟨w, hw, h e he w hw⟩

/-- A leaf is deep-equal to what shows and hides the same. -/
theorem deepEq_number_iff {m : JsNumber} {b : JsValue} :
    deepEq (.number m) b = true ↔
      (showsSame (.number m) b && hidesSame (.number m) b) = true := by
  cases b with
  | number n =>
    simp only [deepEq, showsSame, hidesSame]
    cases m.toDouble == n.toDouble with
    | true => simp
    | false => cases isZero m && isZero n <;> simp
  | _ => simp [deepEq, showsSame, hidesSame, showsNull]

/-- To be deep-equal is to show and to hide the same at every place. -/
theorem deepEq_iff_everywhere {a b : JsValue} (ha : isLooseData a = true)
    (hb : isLooseData b = true) :
    deepEq a b = true ↔ everywhere (fun v w => showsSame v w && hidesSame v w) a b = true := by
  induction a using JsValue.induction_on generalizing b with
  | array xs ih =>
    cases b with
    | array ys =>
      rw [isLooseData, allLooseData_iff] at ha hb
      rw [deepEq, everywhere, Bool.and_eq_true, deepEqList_iff,
        forall₂_iff_everywhereElems fun x hx y hy => ih x hx (ha x hx) (hb y hy)]
      simp [showsSame, hidesSame, showsNull]
    | _ => simp [deepEq, everywhere, showsSame, hidesSame, showsNull]
  | object p ps _ ih =>
    cases b with
    | object q qs =>
      simp only [isLooseData, Bool.and_eq_true, decide_eq_true_eq, allLooseProps_iff] at ha hb
      rw [everywhere, Bool.and_eq_true, Bool.and_eq_true, everywhereProps_iff]
      constructor
      · intro h
        refine ⟨sameNames_of_deepEq ha.1.2 hb.1.2 h, fun e he w hw => ?_⟩
        rw [deepEq, Bool.and_eq_true] at h
        obtain ⟨w', hw', hvw⟩ := deepEqProps_iff.mp h.2 e he
        obtain rfl : w' = w := Option.some.inj (hw'.symm.trans hw)
        exact (ih e he (ha.2 e he) (hb.2 _ (Assoc.mem_of_lookup hw))).mp hvw
      · rintro ⟨⟨hshown, hhidden⟩, h⟩
        exact deepEq_of_sameNames ha.1.2 hb.1.2 hshown hhidden fun e he w hw =>
          (ih e he (ha.2 e he) (hb.2 _ (Assoc.mem_of_lookup hw))).mpr (h e he w hw)
    | _ => simp [deepEq, everywhere, showsSame, hidesSame, showsNull]
  | number m =>
    rw [everywhere]
    · exact deepEq_number_iff
    · simp
    · simp
  | undefined => cases b <;> simp [deepEq, everywhere, showsSame, hidesSame, showsNull]
  | null => cases b <;> simp [deepEq, everywhere, showsSame, hidesSame, showsNull]
  | bool c => cases b <;> simp [deepEq, everywhere, showsSame, hidesSame, showsNull]
  | string t => cases b <;> simp [deepEq, everywhere, showsSame, hidesSame, showsNull]
  | symbol i => cases ha
  | func i => cases ha
  | bigint n => cases ha
  | error m s => cases ha
  | promise => cases ha

/-! ## Equal texts -/

theorem treeElems_eq (vs : List JsValue) : treeElems vs = vs.map jsonTree := by
  induction vs with
  | nil => rfl
  | cons v vs ih => rw [treeElems, ih, List.map_cons]

theorem treeProps_eq (props : List (JsString × JsValue)) :
    treeProps props = (props.filter fun e => e.2.isShown).map fun e => (e.1, jsonTree e.2) := by
  induction props with
  | nil => rfl
  | cons e props ih =>
    obtain ⟨k, v⟩ := e
    cases hs : v.isShown with
    | true =>
      rw [treeProps, if_pos hs, ih, List.filter_cons, if_pos hs, List.map_cons]
    | false =>
      rw [treeProps, if_neg (by simp [hs]), ih, List.filter_cons, if_neg (by simp [hs])]

theorem treeElems_eq_iff {xs ys : List JsValue} :
    treeElems xs = treeElems ys ↔ List.Forall₂ (fun x y => jsonTree x = jsonTree y) xs ys := by
  rw [treeElems_eq, treeElems_eq, ← List.forall₂_eq_eq_eq, List.forall₂_map_left_iff,
    List.forall₂_map_right_iff]

/-- Numbers show the same if they are equal, both zero, or both neither finite. -/
theorem numberTree_eq_iff {m n : JsNumber} :
    numberTree m.toDouble = numberTree n.toDouble ↔ showsSame (.number m) (.number n) = true := by
  rw [showsSame, isZero, isZero]
  generalize m.toDouble = c
  generalize n.toDouble = d
  cases c with
  | finite q =>
    cases d with
    | finite r =>
      simp only [numberTree, Double.isFinite, JsonTree.number.injEq]
      constructor
      · rintro rfl
        simp
      · intro h
        simp at h
        rcases h with h | ⟨h, h'⟩
        · exact h
        · rw [h, h']
    | negZero => simp [numberTree, Double.isFinite]
    | inf b => simp [numberTree, Double.isFinite]
    | nan => simp [numberTree, Double.isFinite]
  | negZero =>
    cases d with
    | finite r =>
      simp only [numberTree, Double.isFinite, JsonTree.number.injEq]
      constructor
      · rintro rfl
        simp
      · intro h
        simp at h
        exact h.symm
    | _ => simp [numberTree, Double.isFinite]
  | inf b => cases d <;> simp [numberTree, Double.isFinite]
  | nan => cases d <;> simp [numberTree, Double.isFinite]

/-- A value shows `null` exactly if it looks like it. -/
theorem jsonTree_eq_null_iff {v : JsValue} (hv : isLooseData v = true) :
    jsonTree v = .null ↔ v.showsNull = true := by
  cases v with
  | number n =>
    rw [jsonTree, showsNull]
    cases n.toDouble <;> simp [numberTree, Double.isFinite]
  | bigint n => cases hv
  | symbol i => cases hv
  | func i => cases hv
  | error m s => cases hv
  | promise => cases hv
  | _ => simp [jsonTree, showsNull]

/-- The members of two objects are equal exactly if the objects list the same names and agree name
by name. -/
theorem treeProps_eq_iff {ps qs : List (JsString × JsValue)} (hps : (Assoc.keys ps).Nodup)
    (hqs : (Assoc.keys qs).Nodup) :
    treeProps ps = treeProps qs ↔ shownNames ps = shownNames qs ∧
      ∀ e ∈ ps, ∀ w, qs.lookup e.1 = some w → jsonTree e.2 = jsonTree w := by
  rw [treeProps_eq, treeProps_eq]
  constructor
  · intro h
    have hnames : shownNames ps = shownNames qs := by
      have hkeys := congrArg (List.map Prod.fst) h
      rwa [List.map_map, List.map_map] at hkeys
    refine ⟨hnames, fun e he w hw => ?_⟩
    have hsome {v : JsValue} (hv : ps.lookup e.1 = some v) (hs : v.isShown = true) :
        jsonTree v = jsonTree w := by
      have hmem : (e.1, jsonTree v) ∈
          (qs.filter fun e => e.2.isShown).map fun e => (e.1, jsonTree e.2) := by
        rw [← h]
        exact List.mem_map.mpr ⟨_, List.mem_filter.mpr ⟨Assoc.mem_of_lookup hv, hs⟩, rfl⟩
      obtain ⟨⟨k, w'⟩, hf, heq⟩ := List.mem_map.mp hmem
      obtain ⟨rfl, htree⟩ := Prod.mk.inj heq
      have hw' := Assoc.lookup_of_mem hqs (List.mem_filter.mp hf).1
      rw [← htree, Option.some.inj (hw'.symm.trans hw)]
    have hlook := Assoc.lookup_of_mem hps he
    cases hs : e.2.isShown with
    | true => exact hsome hlook hs
    | false =>
      -- the name is shown in neither object
      have hws : w.isShown = false := by
        rw [Bool.eq_false_iff]
        intro hws
        have hk := (mem_shownNames hqs).mpr ⟨w, hw, hws⟩
        rw [← hnames] at hk
        obtain ⟨v, hv, hvs⟩ := (mem_shownNames hps).mp hk
        rw [← Option.some.inj (hlook.symm.trans hv), hs] at hvs
        cases hvs
      rw [jsonTree_of_not_isShown hs, jsonTree_of_not_isShown hws]
  · rintro ⟨hnames, h⟩
    rw [← List.forall₂_eq_eq_eq, List.forall₂_map_left_iff, List.forall₂_map_right_iff]
    refine Assoc.forall₂_of_keys_eq hnames fun e he f hf hk => ?_
    have hw := Assoc.lookup_of_mem hqs (List.mem_filter.mp hf).1
    rw [← hk] at hw
    rw [hk, h e (List.mem_filter.mp he).1 f.2 hw]

/-- To have equal trees is to show the same, and to list it in the same order, at every place. -/
theorem jsonTree_eq_iff_everywhere {a b : JsValue} (ha : isLooseData a = true)
    (hb : isLooseData b = true) :
    jsonTree a = jsonTree b ↔
      everywhere (fun v w => showsSame v w && listsSame v w) a b = true := by
  induction a using JsValue.induction_on generalizing b with
  | array xs ih =>
    cases b with
    | array ys =>
      rw [isLooseData, allLooseData_iff] at ha hb
      rw [jsonTree, jsonTree, JsonTree.array.injEq, treeElems_eq_iff, everywhere, Bool.and_eq_true,
        forall₂_iff_everywhereElems fun x hx y hy => ih x hx (ha x hx) (hb y hy)]
      simp [showsSame, listsSame]
    | number n =>
      cases hn : n.toDouble <;> simp [jsonTree, everywhere, showsSame, showsNull, numberTree, hn]
    | _ => simp [jsonTree, everywhere, showsSame, showsNull]
  | object p ps _ ih =>
    cases b with
    | object q qs =>
      simp only [isLooseData, Bool.and_eq_true, decide_eq_true_eq, allLooseProps_iff] at ha hb
      rw [jsonTree, jsonTree, JsonTree.object.injEq, treeProps_eq_iff ha.1.2 hb.1.2, everywhere,
        Bool.and_eq_true, everywhereProps_iff, showsSame, listsSame, Bool.and_eq_true, beq_iff_eq]
      constructor
      · rintro ⟨hnames, h⟩
        refine ⟨⟨?_, hnames⟩, fun e he w hw => ?_⟩
        · rw [sameNames_iff, hnames]
          exact fun k => Iff.rfl
        · exact (ih e he (ha.2 e he) (hb.2 _ (Assoc.mem_of_lookup hw))).mp (h e he w hw)
      · rintro ⟨⟨-, hnames⟩, h⟩
        exact ⟨hnames, fun e he w hw =>
          (ih e he (ha.2 e he) (hb.2 _ (Assoc.mem_of_lookup hw))).mpr (h e he w hw)⟩
    | number n =>
      cases hn : n.toDouble <;> simp [jsonTree, everywhere, showsSame, showsNull, numberTree, hn]
    | _ => simp [jsonTree, everywhere, showsSame, showsNull]
  | number m =>
    rw [everywhere]
    · cases b with
      | number n =>
        rw [jsonTree, jsonTree, numberTree_eq_iff, listsSame, Bool.and_true]
        simp
      | bigint | symbol | func | error | promise => cases hb
      | _ =>
        cases hm : m.toDouble <;>
          simp [jsonTree, showsSame, listsSame, showsNull, numberTree, Double.isFinite, hm]
    · simp
    · simp
  | undefined =>
    rw [jsonTree, eq_comm, jsonTree_eq_null_iff hb]
    · cases b <;> simp [everywhere, showsSame, listsSame, showsNull]
    all_goals simp
  | null =>
    rw [jsonTree, eq_comm, jsonTree_eq_null_iff hb]
    · cases b <;> simp [everywhere, showsSame, listsSame, showsNull]
    all_goals simp
  | bool c =>
    cases b with
    | number n =>
      cases hn : n.toDouble <;> simp [jsonTree, everywhere, showsSame, showsNull, numberTree, hn]
    | _ => simp [jsonTree, everywhere, showsSame, listsSame, showsNull]
  | string t =>
    cases b with
    | number n =>
      cases hn : n.toDouble <;> simp [jsonTree, everywhere, showsSame, showsNull, numberTree, hn]
    | _ => simp [jsonTree, everywhere, showsSame, listsSame, showsNull]
  | symbol i => cases ha
  | func i => cases ha
  | bigint n => cases ha
  | error m s => cases ha
  | promise => cases ha

end JsValue

/-! ## The matcher -/

open JsValue

/-- The matcher returns exactly if the texts are equal. -/
theorem toEqual_iff (nt : NumberText) {a b : JsValue} (ha : isLooseData a = true)
    (hb : isLooseData b = true) :
    toEqual nt a b = .ok () ↔ sameShown a b = true ∧ sameOrder a b = true := by
  have htext {v : JsValue} (hv : isLooseData v = true) : ∃ t, stringify nt v = .ok t := by
    unfold stringify
    split
    · rename_i hs
      exact ⟨_, by rw [jsonToStr_eq nt hv hs]; rfl⟩
    · exact ⟨none, rfl⟩
  have heq : toEqual nt a b = .ok () ↔ stringify nt a = stringify nt b := by
    obtain ⟨t, ht⟩ := htext ha
    obtain ⟨u, hu⟩ := htext hb
    rw [toEqual, ht, hu]
    by_cases h : t = u
    · simp [h]
    · simp [h]
  rw [heq, stringify_eq_iff nt ha hb, jsonTree_eq_iff_everywhere ha hb, everywhere_and, sameShown,
    sameOrder, Bool.and_eq_true, beq_iff_eq, and_assoc]

/-- Deep equality, by what JSON shows and what it hides. -/
theorem deepEq_iff {a b : JsValue} (ha : isLooseData a = true) (hb : isLooseData b = true) :
    deepEq a b = true ↔ sameShown a b = true ∧ sameHidden a b = true := by
  have heq := deepEq_iff_everywhere ha hb
  rw [everywhere_and] at heq
  rw [sameShown, sameHidden, Bool.and_eq_true, beq_iff_eq, and_assoc, ← heq]
  exact ⟨fun h => ⟨isShown_eq_of_deepEq h, h⟩, fun h => h.2⟩

/-- The matcher decides deep equality exactly for values that show different things, and for values
that show the same and either list it in one order and hide the same, or do neither. -/
theorem toEqual_decides_iff (nt : NumberText) (a b : JsValue) (ha : isLooseData a = true)
    (hb : isLooseData b = true) :
    DecidesDeepEq nt a b ↔
      (sameShown a b = true → (sameHidden a b = true ↔ sameOrder a b = true)) := by
  rw [DecidesDeepEq, toEqual_iff nt ha hb, deepEq_iff ha hb]
  constructor
  · intro h hshown
    exact ⟨fun hh => (h.mpr ⟨hshown, hh⟩).2, fun ho => (h.mp ⟨hshown, ho⟩).2⟩
  · intro h
    exact ⟨fun ⟨hs, ho⟩ => ⟨hs, (h hs).mpr ho⟩, fun ⟨hs, hh⟩ => ⟨hs, (h hs).mp hh⟩⟩

/-- Nested arrays and objects with one order of names. -/
theorem toEqual_decides_nested :
    DecidesDeepEq .exact
      (.object none [(js "a", .array [.null, .bool true]), (js "b", .string (js "x"))])
      (.object none [(js "a", .array [.null, .bool false]), (js "b", .string (js "x"))]) :=
  (toEqual_decides_iff .exact _ _ (by decide) (by decide)).mpr (by decide)

/-- A property that is `undefined` against none, `NaN` against `null`, and two orders of names. -/
theorem toEqual_misjudges :
    ¬ DecidesDeepEq .exact (.object none [(js "a", .undefined)]) (.object none []) ∧
    ¬ DecidesDeepEq .exact (.array [.number (.float .nan)]) (.array [.null]) ∧
    ¬ DecidesDeepEq .exact (.object none [(js "a", .null), (js "b", .null)])
      (.object none [(js "b", .null), (js "a", .null)]) := by
  refine ⟨fun h => ?_, fun h => ?_, fun h => ?_⟩
  · exact absurd (h.mp rfl) (by decide)
  · exact absurd (h.mp rfl) (by decide)
  · have := h.mpr (by decide)
    cases this

end BeamJS
