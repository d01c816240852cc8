import BeamJS.Core.PidHandle
import BeamJS.Nif.Proofs.TermConvertProofs

/-!
# Proofs: a pid handle addresses nobody

`js_value_to_erl` replaces a handle by the text of its `__beamjs_data`, which `deserialize_pid` does
not accept. From then on the handle is that text.
-/

namespace BeamJS

open Lib JsValue

variable {ord : MapOrder} {codec : PidCodec}

/-- The value crosses to Erlang as a binary, if at all. -/
def CrossesAsBinary (ord : MapOrder) (h : JsValue) : Prop :=
  ∀ t, jsValueToErl ord h = some t → ∃ b, t = .binary b

theorem CrossesAsBinary.not_addresses {h : JsValue} (hb : CrossesAsBinary ord h) (p : Pid) :
    ¬ Addresses ord codec h p := by
  rintro ⟨t, ht, hd⟩
  obtain ⟨b, rfl⟩ := hb t ht
  simp [deserializePid] at hd

/-! ## Names in ASCII -/

theorem newAtomLen_of_ascii (known : Atoms) {k : JsString} (h : ∀ c ∈ k, c.toNat < 0x80) :
    (newAtomLen known (toCStringLen k)).1 = k := by
  rcases newAtomLen_cases known k with hc | hc
  · exact hc
  · rw [hc, latin1_toCStringLen h]

/-- Properties with names in ASCII are read under these names. -/
theorem forall₂_readEntries_of_ascii (f : JsString × JsValue → Term)
    (qs : List (JsString × JsValue))
    (h : ∀ e ∈ qs, ∀ c ∈ e.1, c.toNat < 0x80) (known : Atoms) :
    List.Forall₂ (fun p q => p.1 = q.1 ∧ ∃ known', p.2 = (erlTermToJs known' (f q)).1)
      (readEntries known (qs.map fun e => (toCStringLen e.1, f e))).1 qs := by
  induction qs generalizing known with
  | nil => exact .nil
  | cons e qs ih =>
    obtain ⟨he, hqs⟩ := List.forall_mem_cons.mp h
    exact .cons ⟨newAtomLen_of_ascii _ he, known, rfl⟩ (ih hqs _)

theorem literalNames_iff {ks : List JsString} :
    literalNames ks = true ↔ ks.Nodup ∧
      ∀ k ∈ ks, (∀ c ∈ k, 0 < c ∧ c.toNat < 0x80) ∧ k ≠ js "__proto__" := by
  simp [literalNames, UInt16.lt_iff_toNat_lt]

/-- An object literal whose names are in ASCII and have no NUL is read as an object with the same
names, each value converted. -/
theorem erlTermToJs_literal (ord : MapOrder) (qs : List (JsString × JsValue))
    (hlit : literalNames (Assoc.keys qs) = true) (f : JsString × JsValue → Term) (known : Atoms) :
    ∃ ps, (erlTermToJs known
        (ord.toMap (Assoc.putAll [] (qs.map fun e => (mapKey e.1, f e))))).1 = .object none ps ∧
      (Assoc.keys ps).Perm (Assoc.keys qs) ∧
      ∀ p ∈ ps, ∃ q ∈ qs, p.1 = q.1 ∧ ∃ known', p.2 = (erlTermToJs known' (f q)).1 := by
  obtain ⟨hnd, hnames⟩ := literalNames_iff.mp hlit
  have hperm := arranged_perm ord qs
  have hmem : ∀ e ∈ qs, e.1 ∈ Assoc.keys qs := fun e he => Assoc.mem_keys_of_mem he
  have hkeys : (qs.map fun e => (mapKey e.1, f e)) = qs.map fun e => (toCStringLen e.1, f e) := by
    refine List.map_congr_left fun e he => ?_
    rw [mapKey_eq, cutName_of_notMem fun h0 => absurd (hnames e.1 (hmem e he)).1 ?_]
    exact fun hall => absurd (hall 0 h0).1 (by decide)
  have hndkeys : (Assoc.keys ([] ++ qs.map fun e => (toCStringLen e.1, f e))).Nodup := by
    have hinj := hnd.map (f := toCStringLen) fun _ _ => toCStringLen_injective
    simpa [Function.comp_def] using hinj
  have hread := forall₂_readEntries_of_ascii f (arranged ord qs)
    (fun e he c hc => ((hnames e.1 (hmem e (hperm.mem_iff.mp he))).1 c hc).2) known
  set r := readEntries known ((arranged ord qs).map fun e => (toCStringLen e.1, f e)) with hr
  have hrkeys : Assoc.keys r.1 = Assoc.keys (arranged ord qs) :=
    Assoc.keys_eq_of_forall₂ (hread.imp fun _ _ hp => hp.1)
  have hrperm : (Assoc.keys r.1).Perm (Assoc.keys qs) := hrkeys ▸ hperm.map Prod.fst
  have hproto : js "__proto__" ∉ Assoc.keys r.1 := by
    intro h
    exact (hnames _ (hrperm.mem_iff.mp h)).2 rfl
  obtain ⟨ps, hrun, hps⟩ := setProps_new none [] (hrperm.nodup_iff.mpr hnd) hproto
  rw [List.nil_append] at hps
  refine ⟨ps, ?_, (hps.map Prod.fst).trans hrperm, fun p hp => ?_⟩
  · rw [hkeys, Assoc.putAll_of_nodup hndkeys, List.nil_append, erlTermToJs_toMap, arrange_props]
    exact hrun
  · obtain ⟨q, hq, hpq⟩ := exists_of_forall₂ hread (hps.mem_iff.mp hp)
    exact ⟨q, hperm.mem_iff.mp hq, hpq⟩

/-! ## Hops -/

theorem erlTermsToJs_getElem? (known : Atoms) (ts : List Term) (i : ℕ) {v : JsValue}
    (h : (erlTermsToJs known ts).1[i]? = some v) :
    ∃ t known', ts[i]? = some t ∧ v = (erlTermToJs known' t).1 := by
  induction ts generalizing known i with
  | nil => simp [erlTermsToJs] at h
  | cons t ts ih =>
    cases i with
    | zero =>
      refine ⟨t, known, rfl, ?_⟩
      simpa [erlTermsToJs] using h.symm
    | succ i => exact ih _ i (by simpa [erlTermsToJs] using h)

/-- The handle that stands in its place after the conversions is the conversion of the handle that
stood there before. -/
theorem Container.at?_convert {c : Container} {h h' : JsValue} {t : Term} {known : Atoms}
    (ht : jsValueToErl ord (c.fill h) = some t) (hat : c.at? (erlTermToJs known t).1 = some h') :
    ∃ th known', jsValueToErl ord h = some th ∧ h' = (erlTermToJs known' th).1 := by
  induction c generalizing t known with
  | here => exact ⟨t, known, ht, by simpa [at?] using hat.symm⟩
  | inArray before c after ih =>
    simp only [fill, jsValueToErl, jsValuesToErl_eq_mapM, Option.map_eq_some_iff] at ht
    obtain ⟨ts, hts, rfl⟩ := ht
    rw [erlTermToJs] at hat
    split at hat
    · simp [at?] at hat
    · simp only [at?, Option.bind_eq_bind, Option.bind_eq_some_iff] at hat
      obtain ⟨v, hv, hat⟩ := hat
      obtain ⟨t, known', ht, rfl⟩ := erlTermsToJs_getElem? known ts _ hv
      have hfill : jsValueToErl ord (c.fill h) = some t := by
        obtain ⟨v, hv, hconv⟩ := getElem?_of_forall₂ (forall_of_mapM hts) ht
        obtain rfl : c.fill h = v := by simpa using hv
        exact hconv
      exact ih hfill hat
  | inObject before k c after hord ih =>
    set qs := before ++ (k, c.fill h) :: after with hqs
    have hord' : ordinaryNames (Assoc.keys qs) = true := by simpa [hqs] using hord
    obtain ⟨hlit, htag⟩ : literalNames (Assoc.keys qs) = true ∧ js "__beamjs_type" ∉ Assoc.keys qs := by
      simpa [ordinaryNames] using hord'
    have hnd := (literalNames_iff.mp hlit).1
    rw [fill, ← hqs, jsValueToErl_object rfl (isPidHandle_of_notMem htag)] at ht
    have hterm := jsPropsToMap_eq_some ht
    rw [jsPropsToMap_eq hterm] at ht
    obtain ⟨ps, hrun, _, hps⟩ := erlTermToJs_literal ord qs hlit (fun e => termOf ord e.2) known
    rw [← Option.some.inj ht, hrun] at hat
    simp only [at?, Option.bind_eq_bind, Option.bind_eq_some_iff] at hat
    obtain ⟨v, hv, hat⟩ := hat
    obtain ⟨q, hq, hkey, known', hval⟩ := hps _ (Assoc.mem_of_lookup hv)
    have hmem : (k, c.fill h) ∈ qs := by simp [hqs]
    have heq : q.2 = c.fill h := by
      have h1 := Assoc.lookup_of_mem hnd hq
      have h2 := Assoc.lookup_of_mem hnd hmem
      rw [← hkey, h2] at h1
      exact (Option.some.inj h1).symm
    rw [show v = _ from hval, heq] at hat
    exact ih (hterm _ hmem) hat

/-! ## The handle -/

theorem crossesAsBinary_string (s : JsString) : CrossesAsBinary ord (.string s) := by
  intro t ht
  exact ⟨_, (Option.some.inj ht).symm⟩

/-- The handle that `serialize_pid` makes crosses back as the text of its `__beamjs_data`. -/
theorem crossesAsBinary_firstHandle (known : Atoms) (p : Pid) :
    CrossesAsBinary ord (firstHandle ord codec known p) := by
  let qs : List (JsString × JsValue) := [(js "__beamjs_type", .null), (js "__beamjs_data", .null)]
  let f : JsString × JsValue → Term := fun e =>
    if e.1 = js "__beamjs_type" then .binary (bytes "pid") else .binary (codec.encode p)
  have hser : serializePid ord codec p =
      ord.toMap (Assoc.putAll [] (qs.map fun e => (mapKey e.1, f e))) := rfl
  have hlit : literalNames (Assoc.keys qs) = true := by decide
  obtain ⟨ps, hrun, hkeys, hps⟩ := erlTermToJs_literal ord qs hlit f known
  have hnd : (Assoc.keys ps).Nodup := hkeys.nodup_iff.mpr (literalNames_iff.mp hlit).1
  have hlookup : ∀ k ∈ Assoc.keys qs,
      ps.lookup k = some (.string (newStringLen (if k = js "__beamjs_type" then bytes "pid"
        else codec.encode p))) := by
    intro k hk
    obtain ⟨⟨k', v⟩, hmem, rfl⟩ := List.mem_map.mp (hkeys.mem_iff.mpr hk)
    obtain ⟨q, _, hkey, known', hval⟩ := hps _ hmem
    refine Assoc.lookup_of_mem hnd ?_
    simp only at hkey hval ⊢
    convert hmem using 2
    rw [hval, hkey]
    by_cases hq : q.1 = js "__beamjs_type" <;> simp [f, hq, erlTermToJs]
  have htag : getProp noBuiltins (js "__beamjs_type") (.object none ps) =
      .string (newStringLen (bytes "pid")) := by
    simp only [getProp, getProp?, hlookup (js "__beamjs_type") (by decide)]
    rfl
  have hdata := hlookup (js "__beamjs_data") (by decide)
  intro t ht
  rw [firstHandle, hser, hrun, jsValueToErl, htag, if_pos (by decide), jsPropsToErl_eq,
    Assoc.lookup_map_snd, hdata] at ht
  exact ⟨_, (Option.some.inj ht).symm⟩

/-- A hop passes on a handle that crosses as a binary. -/
theorem CrossesAsBinary.receive {h h' : JsValue} (hb : CrossesAsBinary ord h) {hop : Hop}
    (hrec : hop.receive ord h = some h') : CrossesAsBinary ord h' := by
  obtain ⟨t, ht, hat⟩ := Option.bind_eq_some_iff.mp hrec
  obtain ⟨th, known', hth, rfl⟩ := Container.at?_convert ht hat
  obtain ⟨b, rfl⟩ := hb th hth
  rw [erlTermToJs]
  exact crossesAsBinary_string _

theorem crossesAsBinary_handleAfter {hops : List Hop} {h0 h : JsValue} (hb : CrossesAsBinary ord h0)
    (hrun : hops.foldlM (Hop.receive ord) h0 = some h) : CrossesAsBinary ord h := by
  induction hops generalizing h0 with
  | nil =>
    obtain rfl : h0 = h := by simpa using hrun
    exact hb
  | cons hop hops ih =>
    obtain ⟨h1, hrec, hrun⟩ := Option.bind_eq_some_iff.mp hrun
    exact ih (hb.receive hrec) hrun

/-- After any number of hops, direct or inside containers, no handle addresses its process. -/
theorem handle_never_addresses (ord : MapOrder) (codec : PidCodec) (known : Atoms) (p : Pid)
    (hops : List Hop) :
    ¬ ∃ h, handleAfter ord codec known p hops = some h ∧ Addresses ord codec h p := by
  rintro ⟨h, hrun, haddr⟩
  exact (crossesAsBinary_handleAfter (crossesAsBinary_firstHandle known p) hrun).not_addresses p haddr

/-- The handle just made is not accepted as an argument, and neither is what the next context
receives. -/
theorem first_handle_rejected :
    ¬ Addresses .insertion sampleCodec (firstHandle .insertion sampleCodec [] 110) 110 ∧
    (handleAfter .insertion sampleCodec [] 110 [⟨.here, []⟩]).isSome = true ∧
    ∀ h, handleAfter .insertion sampleCodec [] 110 [⟨.here, []⟩] = some h →
      ¬ Addresses .insertion sampleCodec h 110 := by
  refine ⟨?_, by decide, ?_⟩
  · rintro ⟨t, ht, hd⟩
    cases ht
    cases hd
  · intro h hrun
    cases hrun
    rintro ⟨t, ht, hd⟩
    cases ht
    cases hd

end BeamJS
