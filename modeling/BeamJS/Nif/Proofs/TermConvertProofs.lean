import BeamJS.Js.Proofs.JsStringProofs
import BeamJS.Js.Proofs.NumberProofs
import BeamJS.Js.Proofs.ValueProofs
import BeamJS.Lib.Lists
import BeamJS.Nif.TermConvert
import Mathlib.Data.List.TakeWhile

/-!
# Proofs: the parts of the two conversions

Numbers, the names of properties, the loop over the entries of a map, and the map of an object, each
as one equation or one specification that the results about whole values use.
-/

namespace BeamJS

open Lib JsValue

/-! ## Numbers -/

theorem erlIntToJs_toInt (i : Int32) : erlIntToJs i.toInt = .number (.int i) := by
  rw [erlIntToJs, if_pos (inInt32_toInt i)]
  simp

theorem erlIntToJs_of_inInt32 {n : ℤ} (h : inInt32 n = true) :
    erlIntToJs n = .number (.int (Int32.ofInt n)) := if_pos h

/-- A plain number arrives with its value. -/
theorem jsNumberToErl_plain {n : JsNumber} (hn : isPlainNumber n = true) :
    ∃ t m, jsNumberToErl n = some t ∧ (∀ known, erlTermToJs known t = (.number m, known)) ∧
      m.toDouble = n.toDouble := by
  cases n with
  | int i =>
    refine ⟨_, .int i, rfl, fun known => ?_, rfl⟩
    rw [erlTermToJs, erlIntToJs_toInt]
  | float d =>
    cases d with
    | finite q =>
      by_cases h : isWholeInt32 q = true
      · have hrange : inInt32 (truncate q) = true := (Bool.and_eq_true_iff.mp h).2
        refine ⟨.int (truncate q), .int (Int32.ofInt (truncate q)), if_pos h, fun known => ?_, ?_⟩
        · rw [erlTermToJs, erlIntToJs_of_inInt32 hrange]
        · have := toDouble_newFloat64 (.finite q)
          rwa [newFloat64, if_pos h] at this
      · refine ⟨.float ⟨.finite q, rfl⟩, newFloat64 (.finite q), if_neg h, fun known => rfl, ?_⟩
        exact toDouble_newFloat64 _
    | negZero => simp [isPlainNumber, JsNumber.toDouble] at hn
    | inf _ => simp [isPlainNumber, JsNumber.toDouble, Double.isFinite] at hn
    | nan => simp [isPlainNumber, JsNumber.toDouble, Double.isFinite] at hn

/-! ## Names of properties -/

/-- The part of a key before its first NUL. -/
def cutName (k : JsString) : JsString := k.takeWhile (· ≠ 0)

theorem zero_notMem_cutName (k : JsString) : 0 ∉ cutName k := by
  intro h
  simpa using List.mem_takeWhile_imp h

theorem mapKey_eq (k : JsString) : mapKey k = toCStringLen (cutName k) := cString_toCStringLen k

theorem cutName_of_notMem {k : JsString} (h : 0 ∉ k) : cutName k = k :=
  List.takeWhile_eq_self_iff.mpr fun c hc => by simpa using fun h0 : c = 0 => h (h0 ▸ hc)

theorem mem_latin1_zero {buf : Bytes} : 0 ∈ latin1 buf ↔ 0 ∈ buf := by
  constructor
  · intro h
    obtain ⟨b, hb, hz⟩ := List.mem_map.mp h
    have hb0 : b = 0 := by
      have := congrArg UInt16.toNat hz
      have hlt := b.toNat_lt
      rw [UInt16.toNat_ofNat'] at this
      refine UInt8.toNat_inj.mp ?_
      simp only [UInt16.toNat_zero, UInt8.toNat_zero] at this ⊢
      omega
    exact hb0 ▸ hb
  · intro h
    exact List.mem_map.mpr ⟨0, h, rfl⟩

/-- The bytes of a string without NUL have no NUL either. -/
theorem zero_notMem_toCStringLen {k : JsString} (h : 0 ∉ k) : 0 ∉ toCStringLen k := by
  have hcut := mapKey_eq k
  rw [cutName_of_notMem h, mapKey] at hcut
  intro hmem
  rw [← hcut] at hmem
  simpa using List.mem_takeWhile_imp hmem

/-- The name read for a key is the key or the Latin-1 reading of its bytes. -/
theorem newAtomLen_cases (known : Atoms) (k : JsString) :
    (newAtomLen known (toCStringLen k)).1 = k ∨
      (newAtomLen known (toCStringLen k)).1 = latin1 (toCStringLen k) := by
  unfold newAtomLen
  split
  · exact .inr rfl
  · exact .inl (newStringLen_toCStringLen k)

theorem length_le_newAtomLen (known : Atoms) (k : JsString) :
    k.length ≤ (newAtomLen known (toCStringLen k)).1.length ∧
      ((newAtomLen known (toCStringLen k)).1.length = k.length →
        (newAtomLen known (toCStringLen k)).1 = k) := by
  rcases newAtomLen_cases known k with h | h
  · rw [h]
    exact ⟨Nat.le_refl _, fun _ => rfl⟩
  · rw [h]
    exact length_le_latin1_toCStringLen k

theorem zero_notMem_newAtomLen (known : Atoms) {k : JsString} (h : 0 ∉ k) :
    0 ∉ (newAtomLen known (toCStringLen k)).1 := by
  rcases newAtomLen_cases known k with hc | hc
  · rwa [hc]
  · rw [hc, mem_latin1_zero]
    exact zero_notMem_toCStringLen h

/-- A key read as itself is known afterwards, and nothing else is new. -/
theorem mem_newAtomLen {known : Atoms} {k : JsString}
    (h : (newAtomLen known (toCStringLen k)).1 = k) (x : JsString) :
    x ∈ (newAtomLen known (toCStringLen k)).2 ↔ x ∈ k :: known := by
  unfold newAtomLen at h ⊢
  split
  · rename_i hc
    rw [if_pos hc] at h
    have hk : k ∈ known := by
      have hmem : latin1 (toCStringLen k) ∈ known := by simpa using (Bool.and_eq_true_iff.mp hc).2
      exact h ▸ hmem
    simp only [List.mem_cons]
    exact ⟨.inr, fun hx => hx.elim (fun he => he ▸ hk) id⟩
  · rw [newStringLen_toCStringLen]

/-! ## The entries of a map -/

/-- The properties that the loop over the entries sets, in order. -/
def readEntries (known : Atoms) : List (Bytes × Term) → List (JsString × JsValue) × Atoms
  | [] => ([], known)
  | (buf, t) :: es =>
    let (v, known) := erlTermToJs known t
    let (name, known) := newAtomLen known buf
    let (props, known) := readEntries known es
    ((name, v) :: props, known)

/-- The loop over the entries of a map sets one property after the other. -/
theorem erlEntriesToJs_eq (known : Atoms) (obj : JsValue) (es : List (Bytes × Term)) :
    erlEntriesToJs known obj (es.map fun e => (.binary e.1, e.2)) =
      (setProps obj (readEntries known es).1, (readEntries known es).2) := by
  induction es generalizing known obj with
  | nil => simp [erlEntriesToJs, readEntries, setProps]
  | cons e es ih =>
    simp only [List.map_cons, erlEntriesToJs, erlKeyToBuf, ih, readEntries, setProps,
      List.foldl_cons]

theorem erlTermToJs_toMap (known : Atoms) (ord : MapOrder) (es : List (Bytes × Term)) :
    erlTermToJs known (ord.toMap es) =
      (setProps emptyObject (readEntries known (ord.arrange es)).1,
        (readEntries known (ord.arrange es)).2) := by
  rw [MapOrder.toMap, erlTermToJs, erlEntriesToJs_eq]

@[simp] theorem length_readEntries (known : Atoms) (es : List (Bytes × Term)) :
    (readEntries known es).1.length = es.length := by
  induction es generalizing known with
  | nil => rfl
  | cons e es ih => simp [readEntries, ih]

/-- Each name set is read from the key of an entry. -/
theorem mem_keys_readEntries {known : Atoms} {es : List (Bytes × Term)} {name : JsString}
    (h : name ∈ Assoc.keys (readEntries known es).1) :
    ∃ e ∈ es, ∃ known', name = (newAtomLen known' e.1).1 := by
  induction es generalizing known with
  | nil => simp [readEntries] at h
  | cons e es ih =>
    rcases List.mem_cons.mp h with rfl | h
    · exact ⟨e, List.mem_cons_self .., _, rfl⟩
    · obtain ⟨e', he', hname⟩ := ih h
      exact ⟨e', List.mem_cons_of_mem _ he', hname⟩

/-- The names set are no shorter than the keys they are read from, and equal to them if as long. -/
theorem forall₂_keys_readEntries {α : Type} (known : Atoms) (f : JsString × α → Term)
    (qs : List (JsString × α)) :
    List.Forall₂ (fun k name => k.length ≤ name.length ∧ (name.length = k.length → name = k))
      (Assoc.keys qs) (Assoc.keys (readEntries known (qs.map fun e => (toCStringLen e.1, f e))).1) := by
  induction qs generalizing known with
  | nil => exact .nil
  | cons e qs ih => exact .cons (length_le_newAtomLen _ _) (ih _)

/-! ## The map of an object -/

theorem jsPropsToErl_eq (ord : MapOrder) (props : List (JsString × JsValue)) :
    jsPropsToErl ord props = props.map fun e => (e.1, jsValueToErl ord e.2) := by
  induction props with
  | nil => rfl
  | cons e props ih => simp [jsPropsToErl, ih]

theorem jsValuesToErl_eq_mapM (ord : MapOrder) (vs : List JsValue) :
    jsValuesToErl ord vs = vs.mapM (jsValueToErl ord) := by
  induction vs with
  | nil => rfl
  | cons v vs ih => simp [jsValuesToErl, ih]

/-- The term of a value that converts. -/
def termOf (ord : MapOrder) (v : JsValue) : Term := (jsValueToErl ord v).getD .null

/-- The map of properties that all convert. -/
theorem jsPropsToMap_eq {ord : MapOrder} {props : List (JsString × JsValue)}
    (h : ∀ e ∈ props, jsValueToErl ord e.2 = some (termOf ord e.2)) :
    jsPropsToMap ord (jsPropsToErl ord props) =
      some (ord.toMap (Assoc.putAll [] (props.map fun e => (mapKey e.1, termOf ord e.2)))) := by
  have hmap : (jsPropsToErl ord props).mapM (fun e => e.2.map fun t => (mapKey e.1, t)) =
      some (props.map fun e => (mapKey e.1, termOf ord e.2)) := by
    rw [jsPropsToErl_eq, List.mapM_map]
    refine mapM_of_forall fun e he => ?_
    simp [h e he]
  rw [jsPropsToMap, hmap]
  rfl

/-- The entries of the map that an object becomes. -/
def mapEntries (ord : MapOrder) (props : List (JsString × JsValue)) : List (Bytes × Term) :=
  Assoc.putAll [] (props.map fun e => (mapKey e.1, termOf ord e.2))

theorem nodup_keys_mapEntries (ord : MapOrder) (props : List (JsString × JsValue)) :
    (Assoc.keys (mapEntries ord props)).Nodup := Assoc.nodup_keys_putAll (by simp) _

/-- Under distinct names without NUL every property makes an entry. -/
theorem mapEntries_of_notMem (ord : MapOrder) {props : List (JsString × JsValue)}
    (hnd : (Assoc.keys props).Nodup) (hnul : ∀ k ∈ Assoc.keys props, 0 ∉ k) :
    mapEntries ord props = props.map fun e => (toCStringLen e.1, termOf ord e.2) := by
  have hkeys : (props.map fun e => (mapKey e.1, termOf ord e.2)) =
      props.map fun e => (toCStringLen e.1, termOf ord e.2) := by
    refine List.map_congr_left fun e he => ?_
    rw [mapKey_eq, cutName_of_notMem (hnul e.1 (Assoc.mem_keys_of_mem he))]
  have hdistinct :
      (Assoc.keys ([] ++ props.map fun e => (toCStringLen e.1, termOf ord e.2))).Nodup := by
    have hinj := hnd.map (f := toCStringLen) fun _ _ => toCStringLen_injective
    simpa [Function.comp_def] using hinj
  rw [mapEntries, hkeys, Assoc.putAll_of_nodup hdistinct, List.nil_append]

/-- An object that is no pid handle becomes a map. -/
theorem jsValueToErl_object {ord : MapOrder} {proto : Option JsValue}
    {props : List (JsString × JsValue)} (hp : isPlainProto proto = true)
    (hk : isPidHandle props = false) :
    jsValueToErl ord (.object proto props) = jsPropsToMap ord (jsPropsToErl ord props) := by
  have htag : isPidTag (getProp noBuiltins (js "__beamjs_type") (.object proto props)) = false := by
    cases hl : props.lookup (js "__beamjs_type") with
    | none =>
      unfold isPlainProto at hp
      split at hp
      · simp [getProp, getProp?_object, hl, noBuiltins, isPidTag]
      · simp [getProp, getProp?_object, hl, getProp?, isPidTag]
      · cases hp
    | some v =>
      rw [isPidHandle, hl] at hk
      rw [getProp, getProp?_object, hl, Option.some_or, Option.getD_some]
      cases v with
      | string s => exact hk
      | _ => rfl
  rw [jsValueToErl, htag]
  rfl

theorem isPidHandle_of_notMem {props : List (JsString × JsValue)}
    (h : js "__beamjs_type" ∉ Assoc.keys props) : isPidHandle props = false := by
  rw [isPidHandle, Assoc.lookup_eq_none.mpr h]

/-- An object becomes a map only if all its properties convert. -/
theorem jsPropsToMap_eq_some {ord : MapOrder} {props : List (JsString × JsValue)} {t : Term}
    (h : jsPropsToMap ord (jsPropsToErl ord props) = some t) :
    ∀ e ∈ props, jsValueToErl ord e.2 = some (termOf ord e.2) := by
  simp only [jsPropsToMap, Option.bind_eq_bind, Option.bind_eq_some_iff, jsPropsToErl_eq,
    List.mapM_map] at h
  obtain ⟨es, hes, _⟩ := h
  intro e he
  obtain ⟨b, _, hb⟩ := exists_of_forall₂ (forall_of_mapM hes) he
  obtain ⟨t, ht, _⟩ := Option.map_eq_some_iff.mp hb
  rw [termOf, show jsValueToErl ord e.2 = some t from ht]
  rfl

/-- The properties of an object in the order in which the map is iterated. -/
def arranged (ord : MapOrder) (props : List (JsString × JsValue)) : List (JsString × JsValue) :=
  (ord.arrange (props.map fun e => (toCStringLen e.1, e))).map Prod.snd

theorem arranged_perm (ord : MapOrder) (props : List (JsString × JsValue)) :
    (arranged ord props).Perm props := by
  have h := (ord.perm (props.map fun e => (toCStringLen e.1, e))).map Prod.snd
  simpa [arranged, Function.comp_def] using h

theorem arrange_props {α : Type} (ord : MapOrder) (f : JsString × JsValue → α)
    (props : List (JsString × JsValue)) :
    ord.arrange (props.map fun e => (toCStringLen e.1, f e)) =
      (arranged ord props).map fun e => (toCStringLen e.1, f e) := by
  have hnat := ord.natural f (props.map fun e => (toCStringLen e.1, e))
  rw [List.map_map] at hnat
  rw [arranged, List.map_map]
  refine hnat.trans (List.map_congr_left fun x hx => ?_)
  obtain ⟨e, _, rfl⟩ := List.mem_map.mp ((ord.perm _).mem_iff.mp hx)
  rfl

/-! ## Reading a map in Elixir -/

theorem get?_map (k : String) (es : List (Bytes × Term)) :
    (Term.map (es.map fun e => (.binary e.1, e.2))).get? k = es.lookup (bytes k) := by
  induction es with
  | nil => rfl
  | cons e es ih =>
    obtain ⟨b, t⟩ := e
    simp only [Term.get?, List.map_cons, List.findSome?_cons] at ih ⊢
    rcases eq_or_ne (bytes k) b with rfl | hb
    · simp
    · rw [if_neg hb.symm, Assoc.lookup_cons_of_ne hb]
      exact ih

/-- The order of a map does not matter to a pattern. -/
theorem get?_toMap (ord : MapOrder) {es : List (Bytes × Term)} (h : (Assoc.keys es).Nodup)
    (k : String) : (ord.toMap es).get? k = es.lookup (bytes k) := by
  have hperm := ord.perm es
  have hnd : (Assoc.keys (ord.arrange es)).Nodup := (hperm.map Prod.fst).nodup_iff.mpr h
  rw [MapOrder.toMap, get?_map]
  cases hl : es.lookup (bytes k) with
  | none =>
    rw [Assoc.lookup_eq_none] at hl ⊢
    rwa [(hperm.map Prod.fst).mem_iff]
  | some t => exact Assoc.lookup_of_mem hnd (hperm.mem_iff.mpr (Assoc.mem_of_lookup hl))

/-- What a pattern reads off the map of an object whose names stay distinct. -/
theorem get?_object {ord : MapOrder} {proto : Option JsValue} {props : List (JsString × JsValue)}
    {t : Term} (hp : isPlainProto proto = true) (hk : isPidHandle props = false)
    (hnd : (props.map fun e => mapKey e.1).Nodup)
    (h : jsValueToErl ord (.object proto props) = some t) (k : String) :
    t.get? k = (props.map fun e => (mapKey e.1, termOf ord e.2)).lookup (bytes k) := by
  have hkeys : (Assoc.keys ([] ++ props.map fun e => (mapKey e.1, termOf ord e.2))).Nodup := by
    simpa [Assoc.keys, Function.comp_def] using hnd
  rw [jsValueToErl_object hp hk] at h
  have ht := jsPropsToMap_eq (jsPropsToMap_eq_some h)
  rw [h, Assoc.putAll_of_nodup hkeys] at ht
  cases ht
  exact get?_toMap ord hkeys k

end BeamJS
