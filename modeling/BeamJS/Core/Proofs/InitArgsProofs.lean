import BeamJS.Core.InitArgs
import BeamJS.Nif.Proofs.TermConvertProofs

/-!
# Proofs: the arguments of `init`

What the three encoders make of each kind of data together, and that they give it back exactly if it
is JSON data. A pid handle is replaced by a part of itself, so that it never comes back.
-/

namespace BeamJS

open Lib JsValue Utf8

/-! ## Strings -/

theorem utf8Loop_char {c : ℕ} (hc : c < 0x110000) (fuel : ℕ) (p : Bytes) :
    utf8Loop (fuel + 1) (unicodeToUtf8 c ++ p) =
      ((c < 0xd800 || (0xe000 ≤ c && c ≤ 0x10ffff)) && utf8Loop fuel p) := by
  obtain ⟨b, q, hbq⟩ := List.exists_cons_of_ne_nil (unicodeToUtf8_ne_nil hc)
  have happ := unicodeFromUtf8_append hc p
  rw [hbq, List.cons_append] at happ ⊢
  rw [utf8Loop, happ]

theorem isHigh_or_isLow_iff (c : UInt16) :
    (!isHigh c && !isLow c) = (decide (c.toNat < 0xd800) || (decide (0xe000 ≤ c.toNat) &&
      decide (c.toNat ≤ 0x10ffff))) := by
  have hlt := c.toNat_lt
  rw [Bool.eq_iff_iff]
  simp only [isHigh, isLow, Bool.and_eq_true, Bool.not_eq_true', Bool.and_eq_false_iff,
    decide_eq_false_iff_not, Bool.or_eq_true, decide_eq_true_eq]
  omega

theorem utf8Loop_toCStringLen (s : JsString) (fuel : ℕ) (hf : (toCStringLen s).length ≤ fuel) :
    utf8Loop fuel (toCStringLen s) = isWellFormed s := by
  have hlt : ∀ c : UInt16, c.toNat < 0x110000 := fun c => c.toNat_lt.trans (by decide)
  have hpos : ∀ c < 0x110000, 0 < (unicodeToUtf8 c).length := fun c hc =>
    List.length_pos_iff.mpr (unicodeToUtf8_ne_nil hc)
  fun_induction toCStringLen s generalizing fuel with
  | case1 => cases fuel <;> rfl
  | case2 c =>
    have h1 := hpos c.toNat (hlt c)
    obtain ⟨n, rfl⟩ : ∃ n, fuel = n + 1 := ⟨fuel - 1, by omega⟩
    have hstep := utf8Loop_char (hlt c) n []
    have hend : utf8Loop n [] = true := by cases n <;> rfl
    rw [List.append_nil] at hstep
    rw [hstep, hend, Bool.and_true, isWellFormed, isHigh_or_isLow_iff]
  | case3 c c1 s h ih =>
    obtain ⟨h1, h2⟩ := Bool.and_eq_true_iff.mp h
    obtain ⟨hp, hp', -⟩ := pairCode_halves h1 h2
    have hl := hpos _ hp
    rw [List.length_append] at hf
    obtain ⟨n, rfl⟩ : ∃ n, fuel = n + 1 := ⟨fuel - 1, by omega⟩
    have hcode : (decide (pairCode c c1 < 0xd800) || (decide (0xe000 ≤ pairCode c c1) &&
        decide (pairCode c c1 ≤ 0x10ffff))) = true := by
      simp only [Bool.or_eq_true, Bool.and_eq_true, decide_eq_true_eq]
      omega
    rw [utf8Loop_char hp, hcode, Bool.true_and, ih n (by omega), isWellFormed, if_pos h]
  | case4 c c1 s h ih =>
    have hl := hpos c.toNat (hlt c)
    rw [List.length_append] at hf
    obtain ⟨n, rfl⟩ : ∃ n, fuel = n + 1 := ⟨fuel - 1, by omega⟩
    rw [utf8Loop_char (hlt c), ih n (by omega), isWellFormed, if_neg h, isHigh_or_isLow_iff]

/-- The bytes of a string are UTF-8 exactly if it is well-formed. -/
theorem isUtf8_toCStringLen (s : JsString) : isUtf8 (toCStringLen s) = isWellFormed s :=
  utf8Loop_toCStringLen s _ (Nat.le_refl _)

/-! ## Jason and the expression together -/

/-- The value of the expression that Jason writes for a term. -/
def readBack (t : Term) : Option JsValue := (jasonEncode t).map Json.literal

theorem initArg_eq (ord : MapOrder) (args : JsValue) :
    initArg ord args = (jsValueToErl ord args).bind readBack := by
  unfold initArg readBack
  cases jsValueToErl ord args with
  | none => rfl
  | some t => cases h : jasonEncode t <;> simp [h]

theorem readBack_binary (s : JsString) :
    readBack (.binary (toCStringLen s)) = if isWellFormed s then some (.string s) else none := by
  rw [readBack, jasonEncode, jasonString, isUtf8_toCStringLen]
  split
  · simp [Json.literal]
  · rfl

theorem readBack_list (ts : List Term) : readBack (.list ts) = (ts.mapM readBack).map .array := by
  have helems : (jasonElems ts).map Json.literalElems = ts.mapM readBack := by
    induction ts with
    | nil => rfl
    | cons t ts ih =>
      rw [List.mapM_cons, ← ih, jasonElems, readBack]
      cases jasonEncode t <;> cases jasonElems ts <;> rfl
  rw [← helems, readBack, jasonEncode]
  cases jasonElems ts <;> rfl

/-- A member of an object literal. -/
def defineMember (obj : JsValue) (m : JsString × JsValue) : JsValue :=
  match obj with
  | .object proto props =>
    if m.1 = js "__proto__" then setProto m.2 proto props
    else .object proto (defineProp m.1 m.2 props)
  | obj => obj

/-- The member that an entry of a map is written as. -/
def readMember (e : Bytes × Term) : Option (JsString × JsValue) := do
  let name ← jasonString e.1
  let v ← readBack e.2
  return (newStringLen name, v)

theorem setProto_object (v : JsValue) (proto : Option JsValue) (props : List (JsString × JsValue)) :
    ∃ proto', setProto v proto props = .object proto' props := by
  unfold setProto
  split
  · exact ⟨_, rfl⟩
  · split
    · exact ⟨_, rfl⟩
    · exact ⟨_, rfl⟩

theorem literalMembers_eq (proto : Option JsValue) (props : List (JsString × JsValue))
    (ms : List (Bytes × Json)) :
    Json.literalMembers (.object proto props) ms =
      (ms.map fun m => (newStringLen m.1, m.2.literal)).foldl defineMember (.object proto props) := by
  induction ms generalizing proto props with
  | nil => rfl
  | cons m ms ih =>
    rw [List.map_cons, List.foldl_cons, Json.literalMembers, defineMember]
    simp only
    split
    · obtain ⟨proto', hproto⟩ := setProto_object m.2.literal proto props
      rw [hproto, ih]
    · exact ih ..

theorem readBack_map (es : List (Bytes × Term)) :
    readBack (.map (es.map fun e => (.binary e.1, e.2))) =
      (es.mapM readMember).map fun ms => ms.foldl defineMember .emptyObject := by
  have hmembers : (jasonMembers (es.map fun e => (.binary e.1, e.2))).map
      (fun ms => ms.map fun m => (newStringLen m.1, m.2.literal)) = es.mapM readMember := by
    induction es with
    | nil => rfl
    | cons e es ih =>
      rw [List.mapM_cons, ← ih, List.map_cons, jasonMembers, readMember, jasonKey, readBack]
      cases jasonString e.1 <;> cases jasonEncode e.2 <;>
        cases jasonMembers (es.map fun e => (.binary e.1, e.2)) <;> rfl
  rw [← hmembers, readBack, jasonEncode]
  cases jasonMembers (es.map fun e => (.binary e.1, e.2)) with
  | none => rfl
  | some ms =>
    simp only [Option.map_some, Json.literal]
    rw [JsValue.emptyObject, literalMembers_eq]

/-! ## Leaves -/

variable {ord : MapOrder}

theorem initArg_undefined :
    initArg ord .undefined = some (.string (newStringLen (atomUtf8 "undefined"))) := by
  rfl

theorem initArg_null : initArg ord .null = some .null := by
  rfl

theorem initArg_bool (b : Bool) : initArg ord (.bool b) = some (.bool b) := by
  cases b <;> rfl

theorem initArg_string (s : JsString) :
    initArg ord (.string s) = if isWellFormed s then some (.string s) else none := by
  rw [initArg_eq, jsValueToErl, Option.bind_some, readBack_binary]

/-- A small integer is read as it is. -/
theorem Double.ofInt_of_inInt32 {n : ℤ} (h : inInt32 n = true) :
    ∃ q : FiniteDouble, Double.ofInt n = .finite q ∧ q.val = n := by
  have hn : n.natAbs < 2 ^ 53 := by
    simp only [inInt32, Bool.and_eq_true, decide_eq_true_eq] at h
    omega
  have hex := excess_eq_zero hn
  have hm := roundMantissa_of_lt hn
  have hfits : (excess n.natAbs ≤ 970 ∧ roundMantissa n.natAbs ≤ 2 ^ 53) ∨
      (excess n.natAbs ≤ 971 ∧ roundMantissa n.natAbs < 2 ^ 53) := .inl (by omega)
  refine ⟨_, dif_pos hfits, ?_⟩
  simp only [FiniteDouble.ofMantissa, hex, hm, pow_zero, Nat.mul_one, Int.sign_mul_natAbs]

theorem Double.ofInt_ne_negZero (n : ℤ) : Double.ofInt n ≠ .negZero := by
  unfold Double.ofInt
  split <;> simp

/-- A finite number comes back as a number, which is the same exactly if it was not `-0`. -/
theorem initArg_number (ord : MapOrder) {n : JsNumber} (hn : n.toDouble.isFinite = true) :
    ∃ m, initArg ord (.number n) = some (.number m) ∧
      (m.toDouble = n.toDouble ↔ n.toDouble ≠ .negZero) := by
  have hint : ∀ i : ℤ, readBack (.int i) = some (.number (newFloat64 (.ofInt i))) := fun _ => rfl
  have hsame : ∀ {i : ℤ} {q : FiniteDouble}, inInt32 i = true → q.val = i →
      (newFloat64 (.ofInt i)).toDouble = .finite q := by
    intro i q hi hq
    obtain ⟨p, hp, hval⟩ := Double.ofInt_of_inInt32 hi
    rw [toDouble_newFloat64, hp, FiniteDouble.ext (hval.trans hq.symm)]
  cases n with
  | int i =>
    obtain ⟨q, hq, hval⟩ := JsNumber.toDouble_int i
    refine ⟨_, (initArg_eq ord _).trans (hint i.toInt), iff_of_true ?_ ?_⟩
    · rw [hq, hsame (inInt32_toInt i) hval]
    · rw [hq]
      simp
  | float d =>
    cases d with
    | finite q =>
      by_cases hw : isWholeInt32 q = true
      · obtain ⟨hval, hrange⟩ : q.val = truncate q ∧ inInt32 (truncate q) = true := by
          simpa [isWholeInt32] using hw
        refine ⟨newFloat64 (.ofInt (truncate q)), ?_, iff_of_true (hsame hrange hval) ?_⟩
        · rw [initArg_eq, jsValueToErl, jsNumberToErl, if_pos hw, Option.bind_some, hint]
        · simp [JsNumber.toDouble]
      · refine ⟨newFloat64 (.finite q), ?_, iff_of_true (toDouble_newFloat64 _) ?_⟩
        · rw [initArg_eq, jsValueToErl, jsNumberToErl, if_neg hw, Option.bind_some]
          rfl
        · simp [JsNumber.toDouble]
    | negZero =>
      refine ⟨newFloat64 (.ofInt 0), rfl, iff_of_false ?_ (by simp [JsNumber.toDouble])⟩
      rw [toDouble_newFloat64]
      exact Double.ofInt_ne_negZero 0
    | inf _ | nan => cases hn

/-! ## Objects -/

/-- Members with new and distinct names become the properties, but for `__proto__`. -/
theorem defineMembers_perm (proto : Option JsValue) (props : List (JsString × JsValue))
    {ms : List (JsString × JsValue)} (hnd : (Assoc.keys (props ++ ms)).Nodup) :
    ∃ proto' qs, ms.foldl defineMember (.object proto props) = .object proto' qs ∧
      qs.Perm (props ++ ms.filter fun m => m.1 ≠ js "__proto__") := by
  induction ms generalizing proto props with
  | nil => exact ⟨proto, props, rfl, by simp⟩
  | cons m ms ih =>
    rw [List.foldl_cons, defineMember]
    have hnd' : (Assoc.keys (props ++ ms)).Nodup := by
      refine hnd.sublist ?_
      exact ((List.sublist_cons_self m ms).append_left props).map Prod.fst
    by_cases hm : m.1 = js "__proto__"
    · rw [if_pos hm]
      obtain ⟨proto', hproto⟩ := setProto_object m.2 proto props
      obtain ⟨p, qs, hrun, hperm⟩ := ih proto' props hnd'
      rw [hproto]
      exact ⟨p, qs, hrun, by simpa [hm] using hperm⟩
    · have hk : m.1 ∉ Assoc.keys props := by
        intro hmem
        rw [Assoc.keys, List.map_append] at hnd
        exact List.disjoint_of_nodup_append hnd hmem (List.mem_cons_self ..)
      have hins := insertProp_perm m.1 m.2 props
      have hmid : (props ++ m :: ms).Perm (insertProp m.1 m.2 props ++ ms) :=
        List.perm_middle.trans (hins.symm.append_right ms)
      rw [if_neg hm, defineProp, if_neg hk]
      obtain ⟨p, qs, hrun, hperm⟩ := ih proto (insertProp m.1 m.2 props)
        ((hmid.map Prod.fst).nodup_iff.mp hnd)
      refine ⟨p, qs, hrun, hperm.trans ?_⟩
      rw [List.filter_cons_of_pos (by simpa using hm)]
      exact (hins.append_right _).trans List.perm_middle.symm

/-- Data converts. -/
theorem jsValueToErl_data (ord : MapOrder) {v : JsValue} (hv : isData v = true) :
    jsValueToErl ord v = some (termOf ord v) := by
  suffices h : ∃ t, jsValueToErl ord v = some t by
    obtain ⟨t, ht⟩ := h
    rw [termOf, ht]
    rfl
  have hterm : ∀ {u : JsValue}, (∃ t, jsValueToErl ord u = some t) →
      jsValueToErl ord u = some (termOf ord u) := by
    rintro u ⟨t, ht⟩
    rw [termOf, ht]
    rfl
  induction v using JsValue.induction_on with
  | undefined | null | bool | string => exact ⟨_, rfl⟩
  | number n =>
    by_cases hneg : n.toDouble = .negZero
    · cases n with
      | int i => cases hneg
      | float d =>
        obtain rfl : d = .negZero := hneg
        exact ⟨_, rfl⟩
    · have hplain : isPlainNumber n = true := by
        simpa [isPlainNumber, isData, hneg] using hv
      obtain ⟨t, _, ht, _⟩ := jsNumberToErl_plain hplain
      exact ⟨t, ht⟩
  | array elems ih =>
    have helems := mapM_of_forall fun u hu => hterm (ih u hu (allData_iff.mp hv u hu))
    rw [jsValueToErl, jsValuesToErl_eq_mapM, helems]
    exact ⟨_, rfl⟩
  | object proto props _ ih =>
    obtain ⟨hproto, -, hall⟩ := isData_object.mp hv
    have hprops := fun e he => hterm (ih e he (hall e he))
    rw [jsValueToErl]
    split
    · cases hl : (jsPropsToErl ord props).lookup (js "__beamjs_data") with
      | none =>
        unfold isPlainProto at hproto
        split at hproto
        · exact ⟨_, rfl⟩
        · exact ⟨_, rfl⟩
        · cases hproto
      | some r =>
        have hmem := Assoc.mem_of_lookup hl
        rw [jsPropsToErl_eq] at hmem
        obtain ⟨e, he, heq⟩ := List.mem_map.mp hmem
        obtain ⟨-, rfl⟩ := Prod.mk.inj heq
        exact ⟨_, hprops e he⟩
    · rw [jsPropsToMap_eq hprops]
      exact ⟨_, rfl⟩
  | bigint | symbol | func | error | promise => simp [isData] at hv

theorem initArg_data {v : JsValue} (hv : isData v = true) :
    initArg ord v = readBack (termOf ord v) := by
  rw [initArg_eq, jsValueToErl_data ord hv]
  rfl

/-- What comes back for an object that is no pid handle. -/
theorem initArg_object {proto : Option JsValue} {props : List (JsString × JsValue)}
    (hv : isData (.object proto props) = true) (htag : isPidHandle props = false) :
    initArg ord (.object proto props) =
      ((ord.arrange (mapEntries ord props)).mapM readMember).map
        fun ms => ms.foldl defineMember .emptyObject := by
  obtain ⟨hproto, -, hall⟩ := isData_object.mp hv
  have hterm := jsPropsToMap_eq fun e he => jsValueToErl_data ord (hall e he)
  rw [initArg_eq, jsValueToErl_object hproto htag, hterm, Option.bind_some]
  exact readBack_map _

theorem readMember_mapKey {k : JsString} {t : Term} {m : JsString × JsValue}
    (h : readMember (mapKey k, t) = some m) :
    m.1 = cutName k ∧ isWellFormed m.1 = true ∧ readBack t = some m.2 := by
  simp only [readMember, Option.bind_eq_bind, Option.bind_eq_some_iff, mapKey_eq, jasonString,
    isUtf8_toCStringLen] at h
  obtain ⟨name, hname, v, hv, heq⟩ := h
  cases heq
  split at hname
  · rename_i hwf
    cases hname
    rw [newStringLen_toCStringLen]
    exact ⟨rfl, hwf, hv⟩
  · cases hname

/-- The members that are written for an object have the names of its properties up to a NUL and the
values that come back for them, and their names are distinct. -/
theorem readMembers_spec {props : List (JsString × JsValue)} (hall : ∀ e ∈ props, isData e.2 = true)
    {ms : List (JsString × JsValue)}
    (h : (ord.arrange (mapEntries ord props)).mapM readMember = some ms) :
    (Assoc.keys ms).Nodup ∧ ∀ m ∈ ms, isWellFormed m.1 = true ∧
      ∃ e ∈ props, m.1 = cutName e.1 ∧ initArg ord e.2 = some m.2 := by
  have hperm := ord.perm (mapEntries ord props)
  have hentry : ∀ x ∈ ord.arrange (mapEntries ord props),
      ∃ e ∈ props, x = (mapKey e.1, termOf ord e.2) := by
    intro x hx
    rcases Assoc.mem_putAll (hperm.mem_iff.mp hx) with hx | hx
    · simp at hx
    · obtain ⟨e, he, rfl⟩ := List.mem_map.mp hx
      exact ⟨e, he, rfl⟩
  have hforall := forall_of_mapM h
  constructor
  · have hkeys : (Assoc.keys ms).map toCStringLen =
        Assoc.keys (ord.arrange (mapEntries ord props)) := by
      clear h hperm
      generalize ord.arrange (mapEntries ord props) = es at hforall hentry
      induction hforall with
      | nil => rfl
      | @cons x m xs ms hm _ ih =>
        obtain ⟨⟨e, -, rfl⟩, hxs⟩ := List.forall_mem_cons.mp hentry
        simp only [Assoc.keys, List.map_cons] at ih ⊢
        rw [ih hxs, (readMember_mapKey hm).1, ← mapKey_eq]
    have hnd := nodup_keys_mapEntries ord props
    rw [← (hperm.map Prod.fst).nodup_iff, ← Assoc.keys, ← hkeys] at hnd
    exact hnd.of_map _
  · intro m hm
    obtain ⟨x, hx, hread⟩ := exists_of_forall₂ hforall.flip hm
    obtain ⟨e, he, rfl⟩ := hentry x hx
    obtain ⟨hname, hwf, hback⟩ := readMember_mapKey hread
    exact ⟨hwf, e, he, hname, by rw [initArg_data (hall e he), hback]⟩

/-- An object comes back, if at all, with distinct names, those of its properties up to a NUL, none
of them `__proto__`. -/
theorem initArg_object_spec {proto : Option JsValue} {props : List (JsString × JsValue)}
    (hv : isData (.object proto props) = true) (htag : isPidHandle props = false) {r : JsValue}
    (h : initArg ord (.object proto props) = some r) :
    ∃ proto' qs, r = .object proto' qs ∧ (Assoc.keys qs).Nodup ∧
      ∀ q ∈ qs, q.1 ≠ js "__proto__" ∧ isWellFormed q.1 = true ∧
        ∃ e ∈ props, q.1 = cutName e.1 ∧ initArg ord e.2 = some q.2 := by
  rw [initArg_object hv htag] at h
  obtain ⟨ms, hms, rfl⟩ := Option.map_eq_some_iff.mp h
  obtain ⟨hnd, hmem⟩ := readMembers_spec (isData_object.mp hv).2.2 hms
  obtain ⟨proto', qs, hrun, hperm⟩ := defineMembers_perm none [] (by simpa using hnd)
  rw [List.nil_append] at hperm
  refine ⟨proto', qs, hrun, ?_, fun q hq => ?_⟩
  · rw [Assoc.keys, (hperm.map Prod.fst).nodup_iff]
    exact hnd.sublist (List.filter_sublist.map Prod.fst)
  · obtain ⟨hq, hproto⟩ := List.mem_filter.mp (hperm.mem_iff.mp hq)
    exact ⟨by simpa using hproto, hmem q hq⟩

/-- A pid handle comes back as its `__beamjs_data` does. -/
theorem initArg_pidHandle {proto : Option JsValue} {props : List (JsString × JsValue)}
    (hproto : isPlainProto proto = true) (htag : isPidHandle props = true) :
    initArg ord (.object proto props) =
      match props.lookup (js "__beamjs_data") with
      | some d => initArg ord d
      | none => some (.string (newStringLen (atomUtf8 "undefined"))) := by
  have htype : isPidTag (getProp noBuiltins (js "__beamjs_type") (.object proto props)) = true := by
    cases hl : props.lookup (js "__beamjs_type") with
    | none => simp [isPidHandle, hl] at htag
    | some v =>
      rw [isPidHandle, hl] at htag
      rw [getProp, getProp?_object, hl, Option.some_or, Option.getD_some]
      cases v with
      | string s => exact htag
      | _ => cases htag
  rw [initArg_eq, jsValueToErl, htype, if_pos rfl, jsPropsToErl_eq,
    Assoc.lookup_map_snd (jsValueToErl ord)]
  cases props.lookup (js "__beamjs_data") with
  | some d =>
    rw [Option.map_some, Option.getD_some, ← initArg_eq]
  | none =>
    unfold isPlainProto at hproto
    split at hproto
    · rfl
    · rfl
    · cases hproto

theorem initArg_array {elems : List JsValue} (hv : isData (.array elems) = true) :
    initArg ord (.array elems) = (elems.mapM (initArg ord)).map .array := by
  have hall := allData_iff.mp hv
  have helems := mapM_of_forall fun u hu => jsValueToErl_data ord (hall u hu)
  rw [initArg_eq, jsValueToErl, jsValuesToErl_eq_mapM, helems, Option.map_some, Option.bind_some,
    readBack_list, List.mapM_map]
  exact congrArg _ (mapM_congr fun u hu => (initArg_data (hall u hu)).symm)

/-! ## Depth -/

/-- The value is nested no deeper than `n`, and the names of its objects are distinct. -/
def Shallow : ℕ → JsValue → Prop
  | n + 1, .array vs => ∀ v ∈ vs, Shallow n v
  | n + 1, .object _ props => (Assoc.keys props).Nodup ∧ ∀ e ∈ props, Shallow n e.2
  | 0, .array _ => False
  | 0, .object _ _ => False
  | _, _ => True

theorem Shallow.mono {n : ℕ} {v : JsValue} (h : Shallow n v) : Shallow (n + 1) v := by
  induction n generalizing v with
  | zero =>
    cases v with
    | array | object => exact h.elim
    | _ => trivial
  | succ n ih =>
    cases v with
    | array vs => exact fun u hu => ih (h u hu)
    | object proto props => exact ⟨h.1, fun e he => ih (h.2 e he)⟩
    | _ => trivial

theorem Shallow.mono_le {m n : ℕ} (hmn : m ≤ n) {v : JsValue} (h : Shallow m v) : Shallow n v := by
  induction hmn with
  | refl => exact h
  | step _ ih => exact ih.mono

/-- Finitely many values have a common depth. -/
theorem exists_shallow_forall {α : Type} {f : α → JsValue} {l : List α}
    (h : ∀ a ∈ l, ∃ n, Shallow n (f a)) : ∃ n, ∀ a ∈ l, Shallow n (f a) := by
  induction l with
  | nil => exact ⟨0, by simp⟩
  | cons a l ih =>
    obtain ⟨⟨m, hm⟩, hl⟩ := List.forall_mem_cons.mp h
    obtain ⟨n, hn⟩ := ih hl
    refine ⟨max m n, List.forall_mem_cons.mpr ⟨hm.mono_le (le_max_left m n), fun b hb => ?_⟩⟩
    exact (hn b hb).mono_le (le_max_right m n)

/-- All data has a depth. -/
theorem exists_shallow {v : JsValue} (hv : isData v = true) : ∃ n, Shallow n v := by
  induction v using JsValue.induction_on with
  | array elems ih =>
    obtain ⟨n, hn⟩ := exists_shallow_forall fun u hu => ih u hu (allData_iff.mp hv u hu)
    exact ⟨n + 1, hn⟩
  | object proto props _ ih =>
    obtain ⟨-, hnd, hall⟩ := isData_object.mp hv
    obtain ⟨n, hn⟩ := exists_shallow_forall (f := Prod.snd) fun e he => ih e he (hall e he)
    exact ⟨n + 1, hnd, hn⟩
  | _ => exact ⟨0, trivial⟩

/-- Neither an array nor an object comes back for a leaf. -/
theorem initArg_leaf {v r : JsValue} (hv : isData v = true) (h : Shallow 0 v)
    (hr : initArg ord v = some r) : Shallow 0 r := by
  cases v with
  | undefined =>
    rw [initArg_undefined] at hr
    cases hr
    trivial
  | null =>
    rw [initArg_null] at hr
    cases hr
    trivial
  | bool b =>
    rw [initArg_bool] at hr
    cases hr
    trivial
  | number n =>
    obtain ⟨m, hm, -⟩ := initArg_number ord hv
    rw [hm] at hr
    cases hr
    trivial
  | string s =>
    rw [initArg_string] at hr
    split at hr
    · cases hr
      trivial
    · cases hr
  | array | object => exact h.elim
  | bigint | symbol | func | error | promise => simp [isData] at hv

/-- Nothing comes back deeper than it was. -/
theorem Shallow.initArg {n : ℕ} {v r : JsValue} (hv : isData v = true) (h : Shallow n v)
    (hr : initArg ord v = some r) : Shallow n r := by
  induction n generalizing v r with
  | zero => exact initArg_leaf hv h hr
  | succ n ih =>
    cases v with
    | array vs =>
      rw [initArg_array hv] at hr
      obtain ⟨rs, hrs, rfl⟩ := Option.map_eq_some_iff.mp hr
      intro u hu
      obtain ⟨w, hw, hwu⟩ := exists_of_forall₂ (forall_of_mapM hrs).flip hu
      exact ih (allData_iff.mp hv w hw) (h w hw) hwu
    | object proto props =>
      obtain ⟨hproto, -, hall⟩ := isData_object.mp hv
      by_cases htag : isPidHandle props = true
      · rw [initArg_pidHandle hproto htag] at hr
        cases hl : props.lookup (js "__beamjs_data") with
        | none =>
          rw [hl] at hr
          cases hr
          trivial
        | some d =>
          rw [hl] at hr
          have hmem := Assoc.mem_of_lookup hl
          exact (ih (hall _ hmem) (h.2 _ hmem) hr).mono
      · obtain ⟨proto', qs, rfl, hnd, hqs⟩ := initArg_object_spec hv (eq_false_of_ne_true htag) hr
        refine ⟨hnd, fun q hq => ?_⟩
        obtain ⟨-, -, e, he, -, hback⟩ := hqs q hq
        exact ih (hall e he) (h.2 e he) hback
    | _ => exact (initArg_leaf hv (by trivial) hr).mono_le (Nat.zero_le _)

theorem forall₂_of_deepEqList {rs vs : List JsValue} (h : deepEqList rs vs = true) :
    List.Forall₂ (fun r v => deepEq r v = true) rs vs := by
  induction rs generalizing vs with
  | nil =>
    cases vs with
    | nil => exact .nil
    | cons => cases h
  | cons r rs ih =>
    cases vs with
    | nil => cases h
    | cons v vs =>
      obtain ⟨hr, hrs⟩ := Bool.and_eq_true_iff.mp h
      exact .cons hr (ih hrs)

/-- A property of an object that is deep-equal to another one, found in that one. -/
theorem exists_prop_of_deepEq {p p' : Option JsValue} {ps qs : List (JsString × JsValue)}
    (hps : (Assoc.keys ps).Nodup) (hqs : (Assoc.keys qs).Nodup)
    (h : deepEq (.object p ps) (.object p' qs) = true) {q : JsString × JsValue} (hq : q ∈ qs) :
    ∃ v, (q.1, v) ∈ ps ∧ deepEq v q.2 = true := by
  have hkeys := keys_perm_of_deepEq hps h
  obtain ⟨e, he, hname⟩ := List.mem_map.mp (hkeys.mem_iff.mpr (Assoc.mem_keys_of_mem hq))
  simp only [deepEq, Bool.and_eq_true] at h
  obtain ⟨w, hw, heq⟩ := deepEqProps_iff.mp h.2 e he
  rw [hname, Assoc.lookup_of_mem hqs hq, Option.some.injEq] at hw
  exact ⟨e.2, hname ▸ he, hw ▸ heq⟩

/-- What is deep-equal to a value is as deep. -/
theorem Shallow.of_deepEq {n : ℕ} {r v : JsValue} (hr : Shallow n r) (hv : isData v = true)
    (heq : deepEq r v = true) : Shallow n v := by
  induction n generalizing r v with
  | zero =>
    cases v with
    | array => cases r <;> first | exact hr.elim | simp [deepEq] at heq
    | object => cases r <;> first | exact hr.elim | simp [deepEq] at heq
    | _ => trivial
  | succ n ih =>
    cases v with
    | array vs =>
      cases r with
      | array rs =>
        intro u hu
        obtain ⟨w, hw, hwu⟩ := exists_of_forall₂ (forall₂_of_deepEqList heq).flip hu
        exact ih (hr w hw) (allData_iff.mp hv u hu) hwu
      | _ => simp [deepEq] at heq
    | object proto props =>
      cases r with
      | object proto' qs =>
        obtain ⟨-, hnd, hall⟩ := isData_object.mp hv
        refine ⟨hnd, fun e he => ?_⟩
        obtain ⟨w, hw, hwe⟩ := exists_prop_of_deepEq hr.1 hnd heq he
        exact ih (hr.2 _ hw) (hall e he) hwe
      | _ => simp [deepEq] at heq
    | _ => trivial

/-- A pid handle does not come back. -/
theorem pidHandle_lost {proto : Option JsValue} {props : List (JsString × JsValue)}
    (hv : isData (.object proto props) = true) (htag : isPidHandle props = true) {r : JsValue}
    (hr : initArg ord (.object proto props) = some r) :
    deepEq r (.object proto props) = false := by
  refine eq_false_of_ne_true fun heq => ?_
  obtain ⟨hproto, -, hall⟩ := isData_object.mp hv
  rw [initArg_pidHandle hproto htag] at hr
  cases hl : props.lookup (js "__beamjs_data") with
  | none =>
    rw [hl] at hr
    cases hr
    cases heq
  | some d =>
    rw [hl] at hr
    have hmem := Assoc.mem_of_lookup hl
    have hdeep : ∀ n, ¬ Shallow n (.object proto props) := by
      intro n
      induction n with
      | zero => exact id
      | succ n ih =>
        intro hn
        exact ih (((hn.2 _ hmem).initArg (hall _ hmem) hr).of_deepEq hv heq)
    obtain ⟨n, hn⟩ := exists_shallow hv
    exact hdeep n hn

/-! ## What survives -/

theorem allJsonData_iff {vs : List JsValue} :
    allJsonData vs = true ↔ ∀ v ∈ vs, isJsonData v = true := by
  induction vs with
  | nil => simp [allJsonData]
  | cons v vs ih => simp [allJsonData, ih]

theorem allJsonProps_iff {props : List (JsString × JsValue)} :
    allJsonProps props = true ↔ ∀ e ∈ props, isJsonName e.1 = true ∧ isJsonData e.2 = true := by
  induction props with
  | nil => exact iff_of_true rfl (List.forall_mem_nil _)
  | cons e props ih =>
    show (isJsonName e.1 && isJsonData e.2 && allJsonProps props) = true ↔ _
    rw [Bool.and_eq_true, Bool.and_eq_true, ih, List.forall_mem_cons]

theorem isJsonData_object {proto : Option JsValue} {props : List (JsString × JsValue)} :
    isJsonData (.object proto props) = true ↔ isPidHandle props = false ∧
      ∀ e ∈ props, isJsonName e.1 = true ∧ isJsonData e.2 = true := by
  show (!isPidHandle props && allJsonProps props) = true ↔ _
  rw [Bool.and_eq_true, Bool.not_eq_true', allJsonProps_iff]

theorem isJsonName_iff {k : JsString} :
    isJsonName k = true ↔ 0 ∉ k ∧ isWellFormed k = true ∧ k ≠ js "__proto__" := by
  simp [isJsonName, and_assoc]

/-- The names of an object that comes back are kept, and so are its values. -/
theorem isJsonData_object_of_receives {proto : Option JsValue} {props : List (JsString × JsValue)}
    (hv : isData (.object proto props) = true)
    (ih : ∀ e ∈ props, InitReceives ord e.2 → isJsonData e.2 = true)
    (h : InitReceives ord (.object proto props)) : isJsonData (.object proto props) = true := by
  obtain ⟨r, hr, heq⟩ := h
  obtain ⟨-, hnd, hall⟩ := isData_object.mp hv
  by_cases htag : isPidHandle props = true
  · rw [pidHandle_lost hv htag hr] at heq
    cases heq
  have htag' := eq_false_of_ne_true htag
  obtain ⟨proto', qs, rfl, hqnd, hqs⟩ := initArg_object_spec hv htag' hr
  -- every name of the object is one that came back
  have hnames : ∀ e ∈ props, isJsonName e.1 = true := by
    intro e he
    obtain ⟨w, hw, -⟩ := exists_prop_of_deepEq hqnd hnd heq he
    obtain ⟨hproto, hwf, e', -, hcut, -⟩ := hqs _ hw
    refine isJsonName_iff.mpr ⟨?_, hwf, hproto⟩
    have hno := zero_notMem_cutName e'.1
    rwa [← hcut] at hno
  refine isJsonData_object.mpr ⟨htag', fun e he => ⟨hnames e he, ih e he ?_⟩⟩
  obtain ⟨w, hw, hwe⟩ := exists_prop_of_deepEq hqnd hnd heq he
  obtain ⟨-, -, e', he', hcut, hback⟩ := hqs _ hw
  -- without a NUL in the names, the value came back from this very property
  have hkey : e'.1 = e.1 := by
    have h0 := (isJsonName_iff.mp (hnames e' he')).1
    rw [← cutName_of_notMem h0]
    exact hcut.symm
  have hsame : e'.2 = e.2 := by
    have h1 := Assoc.lookup_of_mem hnd he
    have h2 := Assoc.lookup_of_mem hnd (show (e.1, e'.2) ∈ props from hkey ▸ he')
    exact Option.some.inj (h2.symm.trans h1)
  exact ⟨w, hsame ▸ hback, hwe⟩

/-- What `init` receives shows what was sent to be JSON data. -/
theorem isJsonData_of_receives {v : JsValue} (hv : isData v = true) (h : InitReceives ord v) :
    isJsonData v = true := by
  induction v using JsValue.induction_on with
  | undefined =>
    obtain ⟨r, hr, heq⟩ := h
    rw [initArg_undefined] at hr
    cases hr
    cases heq
  | null | bool => rfl
  | number n =>
    obtain ⟨r, hr, heq⟩ := h
    obtain ⟨m, hm, hiff⟩ := initArg_number ord hv
    rw [hm] at hr
    cases hr
    have hne := hiff.mp (by simpa [deepEq] using heq)
    simpa [isJsonData] using hne
  | string s =>
    obtain ⟨r, hr, -⟩ := h
    rw [initArg_string] at hr
    split at hr
    · assumption
    · cases hr
  | array elems ih =>
    obtain ⟨r, hr, heq⟩ := h
    rw [initArg_array hv] at hr
    obtain ⟨rs, hrs, rfl⟩ := Option.map_eq_some_iff.mp hr
    refine allJsonData_iff.mpr fun v hmem => ih v hmem (allData_iff.mp hv v hmem) ?_
    obtain ⟨u, -, hback⟩ :=
      exists_and_of_forall₂ (forall_of_mapM hrs) (forall₂_of_deepEqList heq) hmem
    exact ⟨u, hback⟩
  | object proto props _ ih =>
    exact isJsonData_object_of_receives hv
      (fun e he => ih e he ((isData_object.mp hv).2.2 e he)) h
  | bigint | symbol | func | error | promise => simp [isData] at hv

/-- What is received for a value. -/
def received (ord : MapOrder) (v : JsValue) : JsValue := (initArg ord v).getD .null

theorem received_spec {v : JsValue} (h : InitReceives ord v) :
    initArg ord v = some (received ord v) ∧ deepEq (received ord v) v = true := by
  obtain ⟨r, hr, heq⟩ := h
  rw [received, hr]
  exact ⟨rfl, heq⟩

theorem deepEqList_map {f : JsValue → JsValue} {vs : List JsValue}
    (h : ∀ v ∈ vs, deepEq (f v) v = true) : deepEqList (vs.map f) vs = true := by
  induction vs with
  | nil => rfl
  | cons v vs ih =>
    obtain ⟨hv, hvs⟩ := List.forall_mem_cons.mp h
    rw [List.map_cons, deepEqList, hv, ih hvs]
    rfl

theorem readMember_of_name {k : JsString} {v r : JsValue} (hk : isWellFormed k = true)
    (hv : isData v = true) (hr : initArg ord v = some r) :
    readMember (toCStringLen k, termOf ord v) = some (k, r) := by
  rw [initArg_data hv] at hr
  simp [readMember, jasonString, isUtf8_toCStringLen, hk, hr]

/-- An object with names that are kept is received if its values are. -/
theorem receives_object {proto : Option JsValue} {props : List (JsString × JsValue)}
    (hv : isData (.object proto props) = true) (h : isJsonData (.object proto props) = true)
    (ih : ∀ e ∈ props, InitReceives ord e.2) : InitReceives ord (.object proto props) := by
  obtain ⟨-, hnd, hall⟩ := isData_object.mp hv
  obtain ⟨htag, hkept⟩ := isJsonData_object.mp h
  have hname := fun e he => isJsonName_iff.mp (hkept e he).1
  have hperm := arranged_perm ord props
  have hentries := mapEntries_of_notMem ord hnd fun k hk => by
    obtain ⟨e, he, rfl⟩ := List.mem_map.mp hk
    exact (hname e he).1
  set ms := (arranged ord props).map fun e => (e.1, received ord e.2) with hms
  have hread : (ord.arrange (mapEntries ord props)).mapM readMember = some ms := by
    rw [hentries, arrange_props, List.mapM_map]
    refine mapM_of_forall fun e he => ?_
    have he' := hperm.mem_iff.mp he
    exact readMember_of_name (hname e he').2.1 (hall e he') (received_spec (ih e he')).1
  have hmskeys : Assoc.keys ms = Assoc.keys (arranged ord props) := by
    simp [hms, Function.comp_def]
  have hmsnd : (Assoc.keys ([] ++ ms)).Nodup := by
    rw [List.nil_append, hmskeys]
    exact (hperm.map Prod.fst).nodup_iff.mpr hnd
  obtain ⟨proto', qs, hrun, hqs⟩ := defineMembers_perm none [] hmsnd
  have hfilter : ms.filter (fun m => m.1 ≠ js "__proto__") = ms := by
    refine List.filter_eq_self.mpr fun m hm => ?_
    obtain ⟨e, he, rfl⟩ := List.mem_map.mp hm
    simpa using (hname e (hperm.mem_iff.mp he)).2.2
  rw [List.nil_append, hfilter] at hqs
  refine ⟨.object proto' qs, ?_, ?_⟩
  · rw [initArg_object hv htag, hread, Option.map_some]
    exact congrArg some hrun
  · have hlen : qs.length = props.length := by
      rw [hqs.length_eq, hms, List.length_map, hperm.length_eq]
    simp only [deepEq, hlen, beq_self_eq_true, Bool.true_and]
    refine deepEqProps_iff.mpr fun q hq => ?_
    obtain ⟨e, he, rfl⟩ := List.mem_map.mp (hqs.mem_iff.mp hq)
    have he' := hperm.mem_iff.mp he
    exact ⟨e.2, Assoc.lookup_of_mem hnd he', (received_spec (ih e he')).2⟩

/-- JSON data is received as it was sent. -/
theorem receives_of_isJsonData {v : JsValue} (hv : isData v = true) (h : isJsonData v = true) :
    InitReceives ord v := by
  induction v using JsValue.induction_on with
  | undefined => cases h
  | null => exact ⟨.null, initArg_null, rfl⟩
  | bool b => exact ⟨.bool b, initArg_bool b, by simp [deepEq]⟩
  | number n =>
    obtain ⟨m, hm, hiff⟩ := initArg_number ord hv
    refine ⟨.number m, hm, ?_⟩
    have hval := hiff.mpr (by simpa [isJsonData] using h)
    simp [deepEq, hval]
  | string s =>
    refine ⟨.string s, ?_, by simp [deepEq]⟩
    rw [initArg_string, if_pos (show isWellFormed s = true from h)]
  | array elems ih =>
    have hall : ∀ v ∈ elems, initArg ord v = some (received ord v) ∧
        deepEq (received ord v) v = true := fun v hmem =>
      received_spec (ih v hmem (allData_iff.mp hv v hmem) (allJsonData_iff.mp h v hmem))
    refine ⟨.array (elems.map (received ord)), ?_, ?_⟩
    · rw [initArg_array hv, mapM_of_forall fun v hmem => (hall v hmem).1]
      rfl
    · exact deepEqList_map fun v hmem => (hall v hmem).2
  | object proto props _ ih =>
    exact receives_object hv h fun e he =>
      ih e he ((isData_object.mp hv).2.2 e he) ((isJsonData_object.mp h).2 e he).2
  | bigint | symbol | func | error | promise => cases h

/-- `init` receives arguments deep-equal to those of the start exactly if they are JSON data. -/
theorem init_receives_iff (ord : MapOrder) {args : JsValue} (hargs : isData args = true) :
    InitReceives ord args ↔ isJsonData args = true :=
  ⟨isJsonData_of_receives hargs, receives_of_isJsonData hargs⟩

/-- Nested arguments that `init` receives. -/
theorem init_receives_nested :
    InitReceives .insertion (.object none [(js "limit", .number (.int 7)),
      (js "names", .array [.string (js "a"), .null])]) ↔
    isJsonData (.object none [(js "limit", .number (.int 7)),
      (js "names", .array [.string (js "a"), .null])]) = true :=
  init_receives_iff .insertion (by decide)

/-- `{a: undefined}` is received as `{a: "undefined"}`, and neither `-0`, a name with a NUL, the
name `__proto__`, a lone surrogate nor a pid handle is received as it was. -/
theorem init_args_lost :
    (∃ v, initArg .insertion (.object none [(js "a", .undefined)]) = some v ∧
      v.getProp noBuiltins (js "a") = .string (js "undefined")) ∧
    ¬ InitReceives .insertion (.object none [(js "a", .undefined)]) ∧
    ¬ InitReceives .insertion (.object none [(js "a", .number (.float .negZero))]) ∧
    ¬ InitReceives .insertion (.object none [([97, 0], .null)]) ∧
    ¬ InitReceives .insertion (.object none [(js "__proto__", .null)]) ∧
    ¬ InitReceives .insertion (.object none [(js "a", .string [0xd800])]) ∧
    ¬ InitReceives .insertion (.object none [(js "__beamjs_type", .string (js "pid"))]) := by
  have hlost : ∀ v, isData v = true → isJsonData v = false → ¬ InitReceives .insertion v := by
    intro v hv hno h
    rw [isJsonData_of_receives hv h] at hno
    cases hno
  refine ⟨⟨_, rfl, ?_⟩, hlost _ ?_ ?_, hlost _ ?_ ?_, hlost _ ?_ ?_, hlost _ ?_ ?_, hlost _ ?_ ?_,
    hlost _ ?_ ?_⟩
  all_goals rfl

end BeamJS
