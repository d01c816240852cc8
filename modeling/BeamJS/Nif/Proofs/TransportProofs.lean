import BeamJS.Nif.Proofs.TermConvertProofs
import BeamJS.Nif.Transport

/-!
# Proofs: which payloads survive transport

Plain data arrives deep-equal to what was sent exactly when it is `Transportable`. The proof follows
the value and the receiver's table of names together: as long as everything arrives, the table grows
by the names of the value in reading order.
-/

namespace BeamJS

open Lib JsValue

variable {ord : MapOrder}

/-! ## Plain data converts -/

theorem isPlainData_object {proto : Option JsValue} {props : List (JsString × JsValue)} :
    isPlainData (.object proto props) = true ↔
      isPlainProto proto = true ∧ (Assoc.keys props).Nodup ∧ isPidHandle props = false ∧
        ∀ e ∈ props, isPlainData e.2 = true := by
  simp [isPlainData, allPlainProps_iff, and_assoc]

theorem jsValuesToErl_eq {vs : List JsValue}
    (h : ∀ v ∈ vs, jsValueToErl ord v = some (termOf ord v)) :
    jsValuesToErl ord vs = some (vs.map (termOf ord)) := by
  rw [jsValuesToErl_eq_mapM]
  exact mapM_of_forall h

/-- Every piece of plain data has a term. -/
theorem jsValueToErl_plain (ord : MapOrder) {v : JsValue} (hv : isPlainData v = true) :
    jsValueToErl ord v = some (termOf ord v) := by
  suffices h : ∃ t, jsValueToErl ord v = some t by
    obtain ⟨t, ht⟩ := h
    rw [termOf, ht]
    rfl
  induction v using JsValue.induction_on with
  | undefined | null | bool | string => exact ⟨_, rfl⟩
  | number n =>
    obtain ⟨t, _, ht, _⟩ := jsNumberToErl_plain hv
    exact ⟨t, ht⟩
  | array elems ih =>
    have hall := allPlainData_iff.mp hv
    have hterm : ∀ v ∈ elems, jsValueToErl ord v = some (termOf ord v) := by
      intro v hmem
      obtain ⟨t, ht⟩ := ih v hmem (hall v hmem)
      rw [termOf, ht]
      rfl
    rw [jsValueToErl, jsValuesToErl_eq hterm]
    exact ⟨_, rfl⟩
  | object proto props _ ih =>
    obtain ⟨hproto, _, htag, hall⟩ := isPlainData_object.mp hv
    have hterm : ∀ e ∈ props, jsValueToErl ord e.2 = some (termOf ord e.2) := by
      intro e hmem
      obtain ⟨t, ht⟩ := ih e hmem (hall e hmem)
      rw [termOf, ht]
      rfl
    rw [jsValueToErl_object hproto htag, jsPropsToMap_eq hterm]
    exact ⟨_, rfl⟩
  | bigint | symbol | func | error | promise => simp [isPlainData] at hv

theorem termOf_array {vs : List JsValue} (h : isPlainData (.array vs) = true) :
    termOf ord (.array vs) = .list (vs.map (termOf ord)) := by
  have hterm := jsValuesToErl_eq fun v hv => jsValueToErl_plain ord (allPlainData_iff.mp h v hv)
  rw [termOf, jsValueToErl, hterm]
  rfl

/-! ## Iolists -/

theorem isByte_eq {n : JsNumber} (hn : isPlainNumber n = true) :
    (Term.iolistElem (termOf ord (.number n))).isSome = isByte n := by
  have hsome : ∀ m : ℤ, (Term.iolistElem (.int m)).isSome = decide (0 ≤ m ∧ m ≤ 255) := by
    intro m
    by_cases h : 0 ≤ m ∧ m ≤ 255 <;> simp [Term.iolistElem, h]
  cases n with
  | int i =>
    obtain ⟨q, hq, hval⟩ := JsNumber.toDouble_int i
    have hw := isWholeInt32_of_val hval
    simp only [termOf, jsValueToErl, jsNumberToErl, Option.getD_some, hsome, isByte, hq, hw,
      truncate_of_val hval, Bool.true_and, Bool.decide_and]
  | float d =>
    cases d with
    | finite q =>
      by_cases h : isWholeInt32 q = true
      · simp [termOf, jsValueToErl, jsNumberToErl, hsome, isByte, JsNumber.toDouble, h]
      · simp [termOf, jsValueToErl, jsNumberToErl, Term.iolistElem, isByte, JsNumber.toDouble, h]
    | negZero => simp [isPlainNumber, JsNumber.toDouble] at hn
    | inf _ => simp [isPlainNumber, JsNumber.toDouble, Double.isFinite] at hn
    | nan => simp [isPlainNumber, JsNumber.toDouble, Double.isFinite] at hn

theorem isSome_iolistBytes {vs : List JsValue}
    (h : ∀ v ∈ vs, (Term.iolistElem (termOf ord v)).isSome = isByteData v) :
    (Term.iolistBytes (vs.map (termOf ord))).isSome = allByteData vs := by
  induction vs with
  | nil => rfl
  | cons v vs ih =>
    obtain ⟨hv, hvs⟩ := List.forall_mem_cons.mp h
    simp only [List.map_cons, Term.iolistBytes, allByteData, ← hv, ← ih hvs]
    cases Term.iolistElem (termOf ord v) <;>
      cases Term.iolistBytes (vs.map (termOf ord)) <;> rfl

/-- The term of an array is an iolist exactly when the array holds only byte data. -/
theorem isSome_iolistElem (ord : MapOrder) {v : JsValue} (hv : isPlainData v = true) :
    (Term.iolistElem (termOf ord v)).isSome = isByteData v := by
  induction v using JsValue.induction_on with
  | undefined | null | string => rfl
  | bool b => cases b <;> rfl
  | number n => exact isByte_eq hv
  | array elems ih =>
    rw [termOf_array hv]
    exact isSome_iolistBytes fun v hmem => ih v hmem (allPlainData_iff.mp hv v hmem)
  | object proto props _ _ =>
    obtain ⟨hproto, _, htag, hall⟩ := isPlainData_object.mp hv
    have hmap := jsPropsToMap_eq fun e he => jsValueToErl_plain ord (hall e he)
    rw [termOf, jsValueToErl_object hproto htag, hmap]
    rfl
  | bigint | symbol | func | error | promise => simp [isPlainData] at hv

/-! ## Names read one after another -/

/-- A key is read as itself unless it is misread. -/
theorem newAtomLen_eq_self_iff {known : Atoms} {k : JsString} :
    (newAtomLen known (toCStringLen k)).1 = k ↔ ¬ Misread known k := by
  have hascii : latin1 (toCStringLen k) = k ↔ ¬ ∃ c ∈ k, 0x80 ≤ c := by
    have hnat : (¬ ∃ c ∈ k, 0x80 ≤ c) ↔ ∀ c ∈ k, c.toNat < 0x80 := by
      simp [UInt16.le_iff_toNat_le]
    have hl : (latin1 (toCStringLen k)).length = (toCStringLen k).length := List.length_map ..
    rw [hnat]
    refine ⟨fun h => (length_toCStringLen k).2 ?_, latin1_toCStringLen⟩
    rw [← hl, h]
  unfold newAtomLen Misread
  split
  · rename_i hc
    rw [Bool.and_eq_true_iff] at hc
    have h1 : startsWithDigit (toCStringLen k) = false := by simpa using hc.1
    have h2 : latin1 (toCStringLen k) ∈ known := by simpa using hc.2
    simp only [hascii, h1, h2, and_true]
  · rename_i hc
    simp only [newStringLen_toCStringLen, true_iff]
    rintro ⟨_, h1, h2⟩
    exact hc (by simp [h1, h2])

theorem namesKept_congr {A B : Atoms} (h : ∀ x, x ∈ A ↔ x ∈ B) (ks : List JsString) :
    NamesKept A ks ↔ NamesKept B ks := by
  induction ks generalizing A B with
  | nil => rfl
  | cons k ks ih =>
    have hcons : ∀ x, x ∈ k :: A ↔ x ∈ k :: B := by
      intro x
      simp only [List.mem_cons, h]
    simp only [NamesKept, NameKept, Misread, h, ih hcons]

theorem namesKept_append (A : Atoms) (ks ls : List JsString) :
    NamesKept A (ks ++ ls) ↔ NamesKept A ks ∧ NamesKept (ks ++ A) ls := by
  induction ks generalizing A with
  | nil => simp [NamesKept]
  | cons k ks ih =>
    have hmem : ∀ x, x ∈ ks ++ k :: A ↔ x ∈ k :: ks ++ A := by
      intro x
      simp only [List.mem_append, List.mem_cons]
      tauto
    simp only [List.cons_append, NamesKept, ih, and_assoc, namesKept_congr hmem ls]

/-! ## Elements and properties in sequence -/

/-- The value arrives at a runtime exactly when it is transportable to it, and then the runtime
knows the names of the value. -/
structure Follows (ord : MapOrder) (v : JsValue) : Prop where
  arrives : ∀ known, deepEq (erlTermToJs known (termOf ord v)).1 v = true ↔ Transportable ord known v
  table : ∀ known, Transportable ord known v →
    ∀ x, x ∈ (erlTermToJs known (termOf ord v)).2 ↔ x ∈ readOrder ord v ++ known

/-- The elements of an array, converted one after another. -/
theorem elems_arrive {vs : List JsValue} (ih : ∀ v ∈ vs, Follows ord v) (known : Atoms) :
    (deepEqList (erlTermsToJs known (vs.map (termOf ord))).1 vs = true ↔
      allKeepArrays vs = true ∧ NamesKept known (readOrderElems ord vs)) ∧
    (allKeepArrays vs = true ∧ NamesKept known (readOrderElems ord vs) →
      ∀ x, x ∈ (erlTermsToJs known (vs.map (termOf ord))).2 ↔ x ∈ readOrderElems ord vs ++ known) := by
  induction vs generalizing known with
  | nil => simp [erlTermsToJs, deepEqList, allKeepArrays, readOrderElems, NamesKept]
  | cons v vs ihs =>
    obtain ⟨hv, hvs⟩ := List.forall_mem_cons.mp ih
    have htail := ihs hvs (erlTermToJs known (termOf ord v)).2
    have hsplit : allKeepArrays (v :: vs) = true ∧ NamesKept known (readOrderElems ord (v :: vs)) ↔
        Transportable ord known v ∧ allKeepArrays vs = true ∧
          NamesKept (readOrder ord v ++ known) (readOrderElems ord vs) := by
      simp only [allKeepArrays, Bool.and_eq_true, readOrderElems, namesKept_append, transportable_iff]
      exact and_and_and_comm
    rw [hsplit]
    simp only [List.map_cons, erlTermsToJs, deepEqList, Bool.and_eq_true, hv.arrives known]
    refine ⟨and_congr_right fun htrans => ?_, fun h x => ?_⟩
    · rw [htail.1, namesKept_congr (hv.table known htrans)]
    · obtain ⟨htrans, hrest⟩ := h
      have hmem := hv.table known htrans
      rw [← namesKept_congr hmem] at hrest
      simp only [htail.2 hrest x, readOrderElems, List.mem_append, hmem x]
      tauto

/-- A property arrives under its name with an equal value. -/
def PropArrives (p q : JsString × JsValue) : Prop := p.1 = q.1 ∧ deepEq p.2 q.2 = true

/-- The properties that the receiver reads for the map of `qs`. -/
def readProps (ord : MapOrder) (known : Atoms) (qs : List (JsString × JsValue)) :
    List (JsString × JsValue) × Atoms :=
  readEntries known (qs.map fun e => (toCStringLen e.1, termOf ord e.2))

/-- The names of the properties `qs` and of their values, in reading order. -/
def propNames (ord : MapOrder) (qs : List (JsString × JsValue)) : List JsString :=
  qs.flatMap fun e => readOrder ord e.2 ++ [e.1]

/-- What becomes of a term at a runtime: the value is `good` exactly if the runtime keeps the names
`ks`, and then it knows them. -/
structure Reads (t : Term) (good : JsValue → Prop) (keeps : Prop) (ks : List JsString) : Prop where
  arrives : ∀ known, good (erlTermToJs known t).1 ↔ keeps ∧ NamesKept known ks
  table : ∀ known, keeps ∧ NamesKept known ks →
    ∀ x, x ∈ (erlTermToJs known t).2 ↔ x ∈ ks ++ known

/-- The entries of a map, read one after another. -/
theorem entries_read {α : Type} (t : α → Term) (good : α → JsValue → Prop) (keeps : α → Prop)
    (ks : α → List JsString) {qs : List (JsString × α)}
    (ih : ∀ e ∈ qs, Reads (t e.2) (good e.2) (keeps e.2) (ks e.2)) (known : Atoms) :
    (List.Forall₂ (fun p q => p.1 = q.1 ∧ good q.2 p.2)
          (readEntries known (qs.map fun e => (toCStringLen e.1, t e.2))).1 qs ∧
        (∀ e ∈ qs, 0 ∉ e.1 ∧ e.1 ≠ js "__proto__") ↔
      (∀ e ∈ qs, keeps e.2) ∧ NamesKept known (qs.flatMap fun e => ks e.2 ++ [e.1])) ∧
    ((∀ e ∈ qs, keeps e.2) ∧ NamesKept known (qs.flatMap fun e => ks e.2 ++ [e.1]) →
      ∀ x, x ∈ (readEntries known (qs.map fun e => (toCStringLen e.1, t e.2))).2 ↔
        x ∈ (qs.flatMap fun e => ks e.2 ++ [e.1]) ++ known) := by
  induction qs generalizing known with
  | nil => simp [readEntries, NamesKept]
  | cons e qs ihs =>
    obtain ⟨he, hqs⟩ := List.forall_mem_cons.mp ih
    obtain ⟨k, v⟩ := e
    replace he : Reads (t v) (good v) (keeps v) (ks v) := he
    -- the receiver converts the value, then reads the name, then goes on
    set r := erlTermToJs known (t v) with hr
    set a := newAtomLen r.2 (toCStringLen k) with ha
    set rest := readEntries a.2 (qs.map fun e => (toCStringLen e.1, t e.2)) with hrest
    set names := qs.flatMap fun e => ks e.2 ++ [e.1] with hns
    have hread : readEntries known (((k, v) :: qs).map fun e => (toCStringLen e.1, t e.2)) =
        ((a.1, r.1) :: rest.1, rest.2) := rfl
    have hnames : (((k, v) :: qs).flatMap fun e => ks e.2 ++ [e.1]) = ks v ++ (k :: names) := by
      simp [hns]
    have htail := ihs hqs a.2
    have hknown : keeps v ∧ NamesKept known (ks v) → a.1 = k →
        ∀ x, x ∈ a.2 ↔ x ∈ k :: (ks v ++ known) := by
      intro htrans hk x
      rw [mem_newAtomLen hk, List.mem_cons, List.mem_cons, he.table known htrans x]
    have hself : keeps v ∧ NamesKept known (ks v) → (a.1 = k ↔ ¬ Misread (ks v ++ known) k) := by
      intro htrans
      rw [newAtomLen_eq_self_iff, Misread, Misread, he.table known htrans]
    have hsplit : (∀ e ∈ (k, v) :: qs, keeps e.2) ∧ NamesKept known (ks v ++ (k :: names)) ↔
        (keeps v ∧ NamesKept known (ks v)) ∧ NameKept (ks v ++ known) k ∧
          (∀ e ∈ qs, keeps e.2) ∧ NamesKept (k :: (ks v ++ known)) names := by
      rw [namesKept_append, List.forall_mem_cons, NamesKept]
      exact and_and_and_comm.trans (and_congr_right fun _ => and_left_comm)
    rw [hnames, hsplit, hread]
    refine ⟨⟨?_, ?_⟩, ?_⟩
    · rintro ⟨hall, hnul⟩
      obtain ⟨hp, hps⟩ := List.forall₂_cons.mp hall
      obtain ⟨hnulk, hnulqs⟩ := List.forall_mem_cons.mp hnul
      have htrans := (he.arrives known).mp hp.2
      have hkept : NameKept (ks v ++ known) k := ⟨hnulk.1, hnulk.2, (hself htrans).mp hp.1⟩
      obtain ⟨harr, hnk⟩ := htail.1.mp ⟨hps, hnulqs⟩
      exact ⟨htrans, hkept, harr, (namesKept_congr (hknown htrans hp.1) _).mp hnk⟩
    · rintro ⟨htrans, hkept, harr, hnk⟩
      have hk : a.1 = k := (hself htrans).mpr hkept.2.2
      rw [← namesKept_congr (hknown htrans hk)] at hnk
      obtain ⟨hps, hnulqs⟩ := htail.1.mpr ⟨harr, hnk⟩
      refine ⟨.cons ⟨hk, (he.arrives known).mpr htrans⟩ hps, ?_⟩
      exact List.forall_mem_cons.mpr ⟨⟨hkept.1, hkept.2.1⟩, hnulqs⟩
    · rintro ⟨htrans, hkept, harr, hnk⟩ x
      have hk : a.1 = k := (hself htrans).mpr hkept.2.2
      rw [← namesKept_congr (hknown htrans hk)] at hnk
      rw [htail.2 ⟨harr, hnk⟩ x]
      simp only [List.mem_append, List.mem_cons, hknown htrans hk x, or_assoc]
      constructor <;> rintro (h | h | h | h) <;> simp [h]

theorem Follows.reads {v : JsValue} (h : Follows ord v) :
    Reads (termOf ord v) (fun w => deepEq w v = true) (keepsArrays v = true) (readOrder ord v) :=
  ⟨fun known => (h.arrives known).trans transportable_iff,
    fun known hk => h.table known (transportable_iff.mpr hk)⟩

/-- The properties of an object, read one after another. -/
theorem props_arrive {qs : List (JsString × JsValue)} (ih : ∀ e ∈ qs, Follows ord e.2)
    (known : Atoms) :
    (List.Forall₂ PropArrives (readProps ord known qs).1 qs ∧
        (∀ e ∈ qs, 0 ∉ e.1 ∧ e.1 ≠ js "__proto__") ↔
      (∀ e ∈ qs, keepsArrays e.2 = true) ∧ NamesKept known (propNames ord qs)) ∧
    ((∀ e ∈ qs, keepsArrays e.2 = true) ∧ NamesKept known (propNames ord qs) →
      ∀ x, x ∈ (readProps ord known qs).2 ↔ x ∈ propNames ord qs ++ known) :=
  entries_read (termOf ord) (fun v w => deepEq w v = true) (fun v => keepsArrays v = true)
    (readOrder ord) (fun e he => (ih e he).reads) known

/-! ## Objects -/

theorem readOrder_object (proto : Option JsValue) (props : List (JsString × JsValue)) :
    readOrder ord (.object proto props) = propNames ord (arranged ord props) := by
  have hmap : readOrderProps ord props =
      props.map fun e => (toCStringLen e.1, readOrder ord e.2 ++ [e.1]) := by
    induction props with
    | nil => rfl
    | cons e props ih => simp [readOrderProps, ih]
  rw [readOrder, hmap, arrange_props, propNames, List.flatMap_map]

theorem propsKeepArrays_iff {props : List (JsString × JsValue)} :
    propsKeepArrays props = true ↔ ∀ e ∈ props, keepsArrays e.2 = true := by
  induction props with
  | nil => simp [propsKeepArrays]
  | cons e props ih => simp [propsKeepArrays, ih]

theorem termOf_object {proto : Option JsValue} {props : List (JsString × JsValue)}
    (h : isPlainData (.object proto props) = true) :
    termOf ord (.object proto props) =
      ord.toMap (Assoc.putAll [] (props.map fun e => (mapKey e.1, termOf ord e.2))) := by
  obtain ⟨hproto, _, htag, hall⟩ := isPlainData_object.mp h
  have hmap := jsPropsToMap_eq fun e he => jsValueToErl_plain ord (hall e he)
  rw [termOf, jsValueToErl_object hproto htag, hmap]
  rfl

theorem mem_keys_of_arrange {α : Type} {es : List (Bytes × α)} {e : Bytes × α}
    (h : e ∈ ord.arrange es) : e.1 ∈ Assoc.keys es :=
  List.mem_map_of_mem ((ord.perm es).mem_iff.mp h)

/-- The receiver always builds an object, whose names are distinct and have no NUL. -/
theorem erlTermToJs_object (ord : MapOrder) {proto : Option JsValue}
    {props : List (JsString × JsValue)}
    (h : isPlainData (.object proto props) = true) (known : Atoms) :
    ∃ proto' ps, (erlTermToJs known (termOf ord (.object proto props))).1 = .object proto' ps ∧
      (Assoc.keys ps).Nodup ∧ ∀ k ∈ Assoc.keys ps, 0 ∉ k := by
  set es := ord.arrange (Assoc.putAll [] (props.map fun e => (mapKey e.1, termOf ord e.2))) with hes
  obtain ⟨proto', ps, hrun, _, hsub, hnd⟩ := setProps_bound (readEntries known es).1 none []
  refine ⟨proto', ps, ?_, hnd List.nodup_nil, fun k hk => ?_⟩
  · rw [termOf_object h, erlTermToJs_toMap]
    exact hrun
  · rcases hsub k hk with hk | hk
    · simp at hk
    · obtain ⟨e, he, known', rfl⟩ := mem_keys_readEntries hk
      have hkey : e.1 ∈ Assoc.keys (props.map fun e => (mapKey e.1, termOf ord e.2)) := by
        have := mem_keys_of_arrange he
        simpa using Assoc.mem_keys_putAll this
      obtain ⟨e', he', heq⟩ := List.mem_map.mp hkey
      obtain ⟨q, _, rfl⟩ := List.mem_map.mp he'
      rw [← heq, mapKey_eq]
      exact zero_notMem_newAtomLen known' (zero_notMem_cutName q.1)

/-- Without NUL in its names, the object is read property by property. -/
theorem erlTermToJs_object_of_notMem {proto : Option JsValue} {props : List (JsString × JsValue)}
    (h : isPlainData (.object proto props) = true) (hnul : ∀ k ∈ Assoc.keys props, 0 ∉ k)
    (known : Atoms) :
    erlTermToJs known (termOf ord (.object proto props)) =
      (setProps emptyObject (readProps ord known (arranged ord props)).1,
        (readProps ord known (arranged ord props)).2) := by
  have hentries := mapEntries_of_notMem ord (isPlainData_object.mp h).2.1 hnul
  rw [termOf_object h, ← mapEntries, hentries, erlTermToJs_toMap, arrange_props, readProps]

/-- An object with as many properties as entries, under names that are the keys of the entries, has
the entries as its properties. -/
theorem props_of_full {α : Type} (known : Atoms) (t : α → Term) {qs : List (JsString × α)}
    {proto : Option JsValue} {ps : List (JsString × JsValue)}
    (hrun : setProps emptyObject
      (readEntries known (qs.map fun e => (toCStringLen e.1, t e.2))).1 = .object proto ps)
    (hkeys : (Assoc.keys ps).Perm (Assoc.keys qs)) :
    proto = none ∧ ps.Perm (readEntries known (qs.map fun e => (toCStringLen e.1, t e.2))).1 ∧
      Assoc.keys (readEntries known (qs.map fun e => (toCStringLen e.1, t e.2))).1 = Assoc.keys qs ∧
      js "__proto__" ∉ Assoc.keys (readEntries known (qs.map fun e => (toCStringLen e.1, t e.2))).1 := by
  set r := readEntries known (qs.map fun e => (toCStringLen e.1, t e.2)) with hr
  have hlen : r.1.length = qs.length := by simp [hr]
  have hlenps : ps.length = qs.length := by simpa using hkeys.length_eq
  have hfull := setProps_full [] (by simp) hrun (by simp [hlen, hlenps])
  obtain ⟨ps', hrun', hps'⟩ := setProps_new none [] hfull.1 hfull.2
  have hsame := hrun'.symm.trans hrun
  cases hsame
  rw [List.nil_append] at hps'
  refine ⟨rfl, hps', ?_, hfull.2⟩
  refine eq_of_perm_of_weight (forall₂_keys_readEntries known (fun e => t e.2) _) ?_
  have hp : (Assoc.keys r.1).Perm (Assoc.keys qs) := (hps'.map Prod.fst).symm.trans hkeys
  exact (hp.map List.length).sum_eq.le

/-- An object that arrives had names without NUL, and every property arrived under its name. -/
theorem props_of_deepEq {proto : Option JsValue} {props : List (JsString × JsValue)}
    (h : isPlainData (.object proto props) = true) {known : Atoms}
    (heq : deepEq (erlTermToJs known (termOf ord (.object proto props))).1 (.object proto props) =
      true) :
    List.Forall₂ PropArrives (readProps ord known (arranged ord props)).1 (arranged ord props) ∧
      ∀ e ∈ arranged ord props, 0 ∉ e.1 ∧ e.1 ≠ js "__proto__" := by
  have hperm := arranged_perm ord props
  have hndprops := (isPlainData_object.mp h).2.1
  obtain ⟨proto', ps, hrun, hnd, hnul⟩ := erlTermToJs_object ord h known
  rw [hrun] at heq
  -- the names that arrive are the names sent, so none of these has a NUL
  have hkeys := keys_perm_of_deepEq hnd heq
  have hnulprops : ∀ k ∈ Assoc.keys props, 0 ∉ k := fun k hk => hnul k (hkeys.mem_iff.mpr hk)
  rw [erlTermToJs_object_of_notMem h hnulprops] at hrun
  set r := readProps ord known (arranged ord props) with hr
  -- every entry made a property, so the properties are the entries
  obtain ⟨-, hps', hnames, hproto⟩ :=
    props_of_full known (termOf ord) hrun (hkeys.trans (hperm.map Prod.fst).symm)
  refine ⟨Assoc.forall₂_of_keys_eq hnames fun p hp q hq hpq => ⟨hpq, ?_⟩, fun e he => ⟨?_, ?_⟩⟩
  · simp only [deepEq, Bool.and_eq_true] at heq
    obtain ⟨w, hw, heqw⟩ := deepEqProps_iff.mp heq.2 p (hps'.mem_iff.mpr hp)
    have hq' : props.lookup p.1 = some q.2 :=
      Assoc.lookup_of_mem hndprops (hpq ▸ hperm.mem_iff.mp hq)
    have hwq : w = q.2 := Option.some.inj (hw.symm.trans hq')
    exact hwq ▸ heqw
  · exact hnulprops e.1 (Assoc.mem_keys_of_mem (hperm.mem_iff.mp he))
  · intro he'
    have hmem : js "__proto__" ∈ Assoc.keys r.1 := hnames ▸ he' ▸ Assoc.mem_keys_of_mem he
    exact hproto hmem

/-- An object whose properties all arrive under their names arrives. -/
theorem deepEq_of_props {proto : Option JsValue} {props : List (JsString × JsValue)}
    (h : isPlainData (.object proto props) = true) {known : Atoms}
    (hall : List.Forall₂ PropArrives (readProps ord known (arranged ord props)).1 (arranged ord props))
    (hnul : ∀ e ∈ arranged ord props, 0 ∉ e.1 ∧ e.1 ≠ js "__proto__") :
    deepEq (erlTermToJs known (termOf ord (.object proto props))).1 (.object proto props) = true := by
  have hperm := arranged_perm ord props
  have hndprops := (isPlainData_object.mp h).2.1
  have hnulprops : ∀ k ∈ Assoc.keys props, 0 ∉ k := by
    intro k hk
    obtain ⟨e, he, rfl⟩ := List.mem_map.mp hk
    exact (hnul e (hperm.mem_iff.mpr he)).1
  rw [erlTermToJs_object_of_notMem h hnulprops]
  set r := readProps ord known (arranged ord props) with hr
  have hnames : Assoc.keys r.1 = Assoc.keys (arranged ord props) :=
    Assoc.keys_eq_of_forall₂ (hall.imp fun _ _ hp => hp.1)
  have hnd : (Assoc.keys ([] ++ r.1)).Nodup := by
    rw [List.nil_append, hnames]
    exact (hperm.map Prod.fst).nodup_iff.mpr hndprops
  have hproto : js "__proto__" ∉ Assoc.keys r.1 := by
    rw [hnames]
    intro hmem
    obtain ⟨e, he, heq⟩ := List.mem_map.mp hmem
    exact (hnul e he).2 heq
  obtain ⟨ps, hrun, hps⟩ := setProps_new none [] hnd hproto
  rw [List.nil_append] at hps
  rw [emptyObject, hrun]
  simp only [deepEq, Bool.and_eq_true, beq_iff_eq]
  refine ⟨?_, deepEqProps_iff.mpr fun e he => ?_⟩
  · rw [hps.length_eq, hall.length_eq, hperm.length_eq]
  · obtain ⟨q, hq, hkey, hval⟩ := exists_of_forall₂ hall (hps.mem_iff.mp he)
    refine ⟨q.2, ?_, hval⟩
    rw [hkey]
    exact Assoc.lookup_of_mem hndprops (hperm.mem_iff.mp hq)

/-! ## Whole values -/

theorem follows_object {proto : Option JsValue} {props : List (JsString × JsValue)}
    (h : isPlainData (.object proto props) = true) (ih : ∀ e ∈ props, Follows ord e.2) :
    Follows ord (.object proto props) := by
  have hperm := arranged_perm ord props
  have hprops := props_arrive fun e he => ih e (hperm.mem_iff.mp he)
  have hsplit : ∀ known, Transportable ord known (.object proto props) ↔
      (∀ e ∈ arranged ord props, keepsArrays e.2 = true) ∧
        NamesKept known (propNames ord (arranged ord props)) := by
    intro known
    simp only [transportable_iff, readOrder_object, keepsArrays, propsKeepArrays_iff, hperm.mem_iff]
  refine ⟨fun known => ?_, fun known htrans x => ?_⟩
  · rw [hsplit, ← (hprops known).1]
    exact ⟨props_of_deepEq h, fun ⟨hall, hnul⟩ => deepEq_of_props h hall hnul⟩
  · have hall := (hprops known).1.mpr ((hsplit known).mp htrans)
    have hnulprops : ∀ k ∈ Assoc.keys props, 0 ∉ k := by
      intro k hk
      obtain ⟨e, he, rfl⟩ := List.mem_map.mp hk
      exact (hall.2 e (hperm.mem_iff.mpr he)).1
    rw [erlTermToJs_object_of_notMem h hnulprops, readOrder_object]
    exact (hprops known).2 ((hsplit known).mp htrans) x

theorem follows_array {vs : List JsValue} (h : isPlainData (.array vs) = true)
    (ih : ∀ v ∈ vs, Follows ord v) : Follows ord (.array vs) := by
  have hbytes := isSome_iolistElem ord h
  rw [termOf_array h] at hbytes
  simp only [Term.iolistElem, isByteData] at hbytes
  by_cases hall : allByteData vs = true
  · -- the array is an iolist and arrives as a string
    obtain ⟨b, hb⟩ := Option.isSome_iff_exists.mp (hbytes.trans hall)
    have hno : ∀ known, ¬ Transportable ord known (.array vs) := by
      intro known htrans
      have := htrans.arrays
      simp [keepsArrays, hall] at this
    refine ⟨fun known => ?_, fun known htrans => absurd htrans (hno known)⟩
    rw [termOf_array h, erlTermToJs, hb]
    simpa [deepEq] using hno known
  · have hnone : Term.iolistBytes (vs.map (termOf ord)) = none := by
      rw [← Option.not_isSome_iff_eq_none, hbytes]
      exact hall
    have hsplit : ∀ known, Transportable ord known (.array vs) ↔
        allKeepArrays vs = true ∧ NamesKept known (readOrderElems ord vs) := by
      intro known
      simp [transportable_iff, keepsArrays, readOrder, hall]
    have helems := elems_arrive ih
    refine ⟨fun known => ?_, fun known htrans x => ?_⟩
    · rw [hsplit, ← (helems known).1, termOf_array h, erlTermToJs, hnone]
      rfl
    · rw [termOf_array h, erlTermToJs, hnone]
      exact (helems known).2 ((hsplit known).mp htrans) x

/-- A value without arrays and names arrives if it is read back as it is. -/
theorem follows_leaf {v : JsValue} (harr : keepsArrays v = true) (hnames : readOrder ord v = [])
    (h : ∀ known, ∃ w, erlTermToJs known (termOf ord v) = (w, known) ∧ deepEq w v = true) :
    Follows ord v := by
  refine ⟨fun known => ?_, fun known _ x => ?_⟩
  · obtain ⟨w, hw, heq⟩ := h known
    rw [hw, transportable_iff, hnames]
    simp [heq, harr, NamesKept]
  · obtain ⟨w, hw, _⟩ := h known
    rw [hw, hnames, List.nil_append]

theorem follows_of_plain {v : JsValue} (hv : isPlainData v = true) : Follows ord v := by
  induction v using JsValue.induction_on with
  | undefined | null => exact follows_leaf rfl rfl fun known => ⟨_, rfl, rfl⟩
  | bool b =>
    refine follows_leaf rfl rfl fun known => ⟨.bool b, ?_, by simp [deepEq]⟩
    cases b <;> rfl
  | number n =>
    obtain ⟨t, m, ht, hm, hval⟩ := jsNumberToErl_plain hv
    refine follows_leaf rfl rfl fun known => ⟨.number m, ?_, by simp [deepEq, hval]⟩
    rw [termOf, jsValueToErl, ht]
    exact hm known
  | string s =>
    refine follows_leaf rfl rfl fun known => ⟨.string s, ?_, by simp [deepEq]⟩
    rw [termOf, jsValueToErl, Option.getD_some, erlTermToJs, newStringLen_toCStringLen]
  | array elems ih =>
    exact follows_array hv fun v hmem => ih v hmem (allPlainData_iff.mp hv v hmem)
  | object proto props _ ih =>
    exact follows_object hv fun e he => ih e he ((isPlainData_object.mp hv).2.2.2 e he)
  | bigint | symbol | func | error | promise => simp [isPlainData] at hv

/-- Plain data arrives deep-equal to what was sent exactly when it is transportable. -/
theorem arrives_iff_transportable (ord : MapOrder) (known : Atoms) {v : JsValue}
    (hv : isPlainData v = true) : Arrives ord known v ↔ Transportable ord known v := by
  rw [← (follows_of_plain hv).arrives known, Arrives, jsValueToErl_plain ord hv]
  simp

/-- A nested payload that arrives. -/
theorem arrives_nested :
    Arrives .insertion [js "id"] (.object none [(js "id", .number (.int 7)),
      (js "rows", .array [.null, .string (js "x")])]) :=
  (arrives_iff_transportable .insertion [js "id"] (by decide)).mpr (by decide)

/-- Plain data that does not arrive: the empty array, an array of small integers, a name with a NUL,
the name `__proto__`, and the name `é` where the receiver knows the name `Ã©`. -/
theorem plain_data_lost :
    (isPlainData (.array []) = true ∧ ¬ Arrives .insertion [] (.array [])) ∧
    (isPlainData (.array [.number (.int 1), .number (.int 2)]) = true ∧
      ¬ Arrives .insertion [] (.array [.number (.int 1), .number (.int 2)])) ∧
    (isPlainData (.object none [([97, 0], .null)]) = true ∧
      ¬ Arrives .insertion [] (.object none [([97, 0], .null)])) ∧
    (isPlainData (.object none [(js "__proto__", .null)]) = true ∧
      ¬ Arrives .insertion [] (.object none [(js "__proto__", .null)])) ∧
    (isPlainData (.object none [([0xe9], .null)]) = true ∧
      ¬ Arrives .insertion [[0xc3, 0xa9]] (.object none [([0xe9], .null)])) := by
  refine ⟨⟨by decide, ?_⟩, ⟨by decide, ?_⟩, ⟨by decide, ?_⟩, ⟨by decide, ?_⟩, ⟨by decide, ?_⟩⟩ <;>
  · rintro ⟨t, ht, heq⟩
    cases ht
    revert heq
    decide

end BeamJS
