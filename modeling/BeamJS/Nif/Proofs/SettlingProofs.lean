import BeamJS.Lib.Settle
import BeamJS.Nif.Proofs.MapTripProofs
import BeamJS.Nif.Settling
import Mathlib.Algebra.Order.BigOperators.Group.List

/-!
# Proofs: what is handed on settles

A conversion never adds to the bulk of a term, and one that takes nothing away had a settled term
before it. So a term settles after as many contexts as it has bulk, whichever contexts they are, and
from then on it comes out of every context as it went in.
-/

namespace BeamJS

open Lib JsValue

variable {ord : MapOrder} {known : Atoms}

/-! ## Elements and entries -/

theorem bulkElems_eq (ts : List Term) : bulkElems ts = (ts.map bulk).sum := by
  induction ts with
  | nil => rfl
  | cons t ts ih => rw [bulkElems, ih, List.map_cons, List.sum_cons]

theorem bulkEntries_eq (es : List (Term × Term)) :
    bulkEntries es = (es.map fun e => keyBulk e.1 + bulk e.2).sum := by
  induction es with
  | nil => rfl
  | cons e es ih => rw [bulkEntries, ih, List.map_cons, List.sum_cons]

theorem jsBulkElems_eq (vs : List JsValue) : jsBulkElems vs = (vs.map jsBulk).sum := by
  induction vs with
  | nil => rfl
  | cons v vs ih => rw [jsBulkElems, ih, List.map_cons, List.sum_cons]

theorem jsBulkProps_eq (props : List (JsString × JsValue)) :
    jsBulkProps props = (props.map fun e => 1 + jsBulk e.2).sum := by
  induction props with
  | nil => rfl
  | cons e props ih => rw [jsBulkProps, ih, List.map_cons, List.sum_cons]

theorem allAsciiKeys_iff {ts : List Term} :
    allAsciiKeys ts = true ↔ ∀ t ∈ ts, asciiKeys t = true := by
  induction ts with
  | nil => simp [allAsciiKeys]
  | cons t ts ih => simp [allAsciiKeys, ih]

theorem entriesAsciiKeys_iff {es : List (Term × Term)} :
    entriesAsciiKeys es = true ↔ ∀ e ∈ es, asciiKey e.1 = true ∧ asciiKeys e.2 = true := by
  induction es with
  | nil => simp [entriesAsciiKeys]
  | cons e es ih => simp [entriesAsciiKeys, ih]

theorem allSettled_iff {ts : List Term} : allSettled ts = true ↔ ∀ t ∈ ts, settled t = true := by
  induction ts with
  | nil => simp [allSettled]
  | cons t ts ih => simp [allSettled, ih]

theorem entriesSettled_iff {es : List (Term × Term)} :
    entriesSettled es = true ↔ ∀ e ∈ es, keepsKey e.1 = true ∧ settled e.2 = true := by
  induction es with
  | nil => simp [entriesSettled]
  | cons e es ih => simp [entriesSettled, ih]

theorem allOfTerm_iff {vs : List JsValue} : allOfTerm vs = true ↔ ∀ v ∈ vs, ofTerm v = true := by
  induction vs with
  | nil => simp [allOfTerm]
  | cons v vs ih => simp [allOfTerm, ih]

theorem propsOfTerm_iff {props : List (JsString × JsValue)} :
    propsOfTerm props = true ↔
      ∀ e ∈ props, (∀ c ∈ e.1, c.toNat < 0x80) ∧ ofTerm e.2 = true := by
  induction props with
  | nil => simp [propsOfTerm]
  | cons e props ih => simp [propsOfTerm, ih]

theorem settled_map {es : List (Term × Term)} :
    settled (.map es) = true ↔ (Assoc.keys es).Nodup ∧ isPidMap es = false ∧
      ∀ e ∈ es, keepsKey e.1 = true ∧ settled e.2 = true := by
  rw [settled, Bool.and_eq_true, Bool.and_eq_true, decide_eq_true_eq, Bool.not_eq_true',
    entriesSettled_iff, and_assoc]

theorem bulk_pos (t : Term) : 0 < bulk t := by
  unfold bulk
  split
  · omega
  · omega
  · omega
  · split <;> decide

theorem jsBulk_pos (v : JsValue) : 0 < jsBulk v := by
  unfold jsBulk
  split <;> omega

/-! ## Into a context -/

/-- What `JS_SetProperty` does to an object: it takes over the value with a name, or the value
alone, or nothing. -/
theorem setProp_bulk (proto : Option JsValue) (props : List (JsString × JsValue)) (k : JsString)
    (v : JsValue) : ∃ proto' props', setProp (.object proto props) k v = .object proto' props' ∧
      jsBulk (.object proto' props') ≤ jsBulk (.object proto props) + 1 + jsBulk v ∧
      (k ∈ Assoc.keys props ∨ k = js "__proto__" ∧ proto = none →
        jsBulk (.object proto' props') ≤ jsBulk (.object proto props) + jsBulk v) := by
  have hreplace : jsBulkProps (Assoc.replace k v props) ≤ jsBulkProps props + jsBulk v := by
    induction props with
    | nil => exact Nat.zero_le _
    | cons e props ih =>
      rw [Assoc.replace]
      split
      · simp only [jsBulkProps]
        omega
      · simp only [jsBulkProps]
        omega
  have hinsert : jsBulkProps (insertProp k v props) = jsBulkProps props + 1 + jsBulk v := by
    rw [jsBulkProps_eq, jsBulkProps_eq, ((insertProp_perm k v props).map _).sum_eq,
      List.map_cons, List.sum_cons, Nat.add_comm, ← Nat.add_assoc]
  by_cases hk : k ∈ Assoc.keys props
  · refine ⟨proto, Assoc.replace k v props, by simp only [setProp, if_pos hk], ?_, fun _ => ?_⟩
    · simp only [jsBulk]
      omega
    · simp only [jsBulk]
      omega
  by_cases hp : k = js "__proto__" ∧ (object proto []).leadsToAccessor
  · have hset : ∃ proto', setProto v proto props = .object proto' props ∧
        jsBulkProto proto' ≤ jsBulkProto proto + jsBulk v := by
      unfold setProto
      split
      · exact ⟨some .null, rfl, Nat.le_add_left ..⟩
      · split
        · exact ⟨some v, rfl, Nat.le_add_left ..⟩
        · exact ⟨proto, rfl, Nat.le_add_right ..⟩
    obtain ⟨proto', hrun, hle⟩ := hset
    refine ⟨proto', props, by simp only [setProp, if_neg hk, if_pos hp, hrun], ?_, fun _ => ?_⟩
    · simp only [jsBulk]
      omega
    · simp only [jsBulk]
      omega
  · refine ⟨proto, insertProp k v props, by simp only [setProp, if_neg hk, if_neg hp], ?_, ?_⟩
    · simp only [jsBulk]
      omega
    · rintro (hmem | ⟨rfl, rfl⟩)
      · exact absurd hmem hk
      · exact absurd ⟨rfl, rfl⟩ hp

theorem keyBulk_pos (k : Term) : 0 < keyBulk k := by
  unfold keyBulk
  split
  · split <;> decide
  · decide

/-- The loop over the entries adds no more than their bulk to the object. -/
theorem entries_bulk (es : List (Term × Term))
    (h : ∀ e ∈ es, ∀ known, jsBulk (erlTermToJs known e.2).1 ≤ bulk e.2) (known : Atoms)
    (proto : Option JsValue) (props : List (JsString × JsValue)) :
    ∃ proto' props', (erlEntriesToJs known (.object proto props) es).1 = .object proto' props' ∧
      jsBulk (.object proto' props') ≤ jsBulk (.object proto props) + bulkEntries es := by
  induction es generalizing known proto props with
  | nil => exact ⟨proto, props, rfl, Nat.le_refl _⟩
  | cons e es ih =>
    obtain ⟨k, t⟩ := e
    obtain ⟨ht, hes⟩ := List.forall_mem_cons.mp h
    rw [erlEntriesToJs, bulkEntries]
    split
    · rename_i buf _
      have htk := ht known
      have hk := keyBulk_pos k
      obtain ⟨proto₁, props₁, hset, hle₁, -⟩ := setProp_bulk proto props
        (newAtomLen (erlTermToJs known t).2 buf).1 (erlTermToJs known t).1
      obtain ⟨proto', props', hrun, hle⟩ :=
        ih hes (newAtomLen (erlTermToJs known t).2 buf).2 proto₁ props₁
      refine ⟨proto', props', ?_, ?_⟩
      · rw [← hrun, ← hset]
      · dsimp only at htk
        omega
    · obtain ⟨proto', props', hrun, hle⟩ := ih hes known proto props
      exact ⟨proto', props', hrun, by omega⟩

theorem jsBulkElems_toJs (ts : List Term)
    (h : ∀ t ∈ ts, ∀ known, jsBulk (erlTermToJs known t).1 ≤ bulk t) (known : Atoms) :
    jsBulkElems (erlTermsToJs known ts).1 ≤ bulkElems ts := by
  induction ts generalizing known with
  | nil => exact Nat.le_refl _
  | cons t ts ih =>
    obtain ⟨ht, hts⟩ := List.forall_mem_cons.mp h
    have htk := ht known
    have hrest := ih hts (erlTermToJs known t).2
    simp only [erlTermsToJs, jsBulkElems, bulkElems]
    omega

/-- An integer or an atom becomes a value without parts. -/
theorem jsBulk_erlIntToJs (n : ℤ) : jsBulk (erlIntToJs n) = 1 := by
  unfold erlIntToJs
  split
  · rfl
  · split <;> rfl

theorem jsBulk_erlAtomToJs (name : String) : jsBulk (erlAtomToJs name) = 1 := by
  unfold erlAtomToJs
  split
  · split_ifs <;> rfl
  · rfl

/-- A term has no less bulk than what it becomes. -/
theorem jsBulk_toJs_le (t : Term) (known : Atoms) : jsBulk (erlTermToJs known t).1 ≤ bulk t := by
  induction t using Term.induction_on generalizing known with
  | int n => exact (jsBulk_erlIntToJs n).le.trans (bulk_pos _)
  | atom name => exact (jsBulk_erlAtomToJs name).le.trans (bulk_pos _)
  | float | binary | pid | ref | other => exact bulk_pos _
  | tuple elems ih =>
    have h := jsBulkElems_toJs elems ih known
    simp only [erlTermToJs, jsBulk, bulk]
    omega
  | list elems ih =>
    have h := jsBulkElems_toJs elems ih known
    rw [erlTermToJs]
    split
    · exact bulk_pos _
    · simp only [jsBulk, bulk]
      omega
  | map entries ih =>
    obtain ⟨proto, props, hrun, hle⟩ := entries_bulk _ (fun e he => (ih e he).2) known none []
    rw [erlTermToJs, emptyObject, hrun, bulk]
    exact hle

/-- `JS_SetProperty` keeps an object the value of a term. -/
theorem ofTerm_setProp {proto : Option JsValue} {props : List (JsString × JsValue)} {k : JsString}
    {v : JsValue} (hobj : ofTerm (.object proto props) = true) (hk : ∀ c ∈ k, c.toNat < 0x80)
    (hv : ofTerm v = true) : ofTerm (setProp (.object proto props) k v) = true := by
  simp only [ofTerm, Bool.and_eq_true, propsOfTerm_iff] at hobj
  obtain ⟨hproto, hprops⟩ := hobj
  have hnew : (∀ c ∈ (k, v).1, c.toNat < 0x80) ∧ ofTerm (k, v).2 = true := ⟨hk, hv⟩
  have hobject : ∀ {proto' props'}, protoOfTerm proto' = true →
      (∀ e ∈ props', e ∈ props ∨ e = (k, v)) → ofTerm (.object proto' props') = true := by
    intro proto' props' hproto' hmem
    rw [ofTerm, hproto', Bool.true_and, propsOfTerm_iff]
    intro e he
    rcases hmem e he with he | rfl
    · exact hprops e he
    · exact hnew
  simp only [setProp]
  split_ifs
  · exact hobject hproto fun e he => Assoc.mem_replace he
  · unfold setProto
    split
    · exact hobject rfl fun e he => .inl he
    · split_ifs
      · exact hobject hv fun e he => .inl he
      · exact hobject hproto fun e he => .inl he
  · refine hobject hproto fun e he => ?_
    exact (List.mem_cons.mp ((insertProp_perm k v props).mem_iff.mp he)).symm

/-- A name in ASCII is read as itself, whatever names are known. -/
theorem newAtomLen_ascii (known : Atoms) {buf : Bytes} (h : isAscii buf = true) :
    (newAtomLen known buf).1 = newStringLen buf := by
  have hbuf : ∀ c ∈ buf, c.toNat < 0x80 := by simpa [isAscii] using h
  unfold newAtomLen
  split
  · exact (newStringLen_of_ascii hbuf).symm
  · rfl

theorem newStringLen_ascii {buf : Bytes} (h : isAscii buf = true) :
    ∀ c ∈ newStringLen buf, c.toNat < 0x80 := by
  have hbuf : ∀ c ∈ buf, c.toNat < 0x80 := by simpa [isAscii] using h
  rw [newStringLen_of_ascii hbuf]
  intro c hc
  obtain ⟨b, hb, rfl⟩ := List.mem_map.mp hc
  have hlt := hbuf b hb
  rw [UInt16.toNat_ofNat']
  omega

theorem ofTerm_entries {es : List (Term × Term)}
    (h : ∀ e ∈ es, asciiKey e.1 = true ∧ ∀ known, ofTerm (erlTermToJs known e.2).1 = true)
    (known : Atoms) {proto : Option JsValue} {props : List (JsString × JsValue)}
    (hobj : ofTerm (.object proto props) = true) :
    ofTerm (erlEntriesToJs known (.object proto props) es).1 = true := by
  induction es generalizing known proto props with
  | nil => exact hobj
  | cons e es ih =>
    obtain ⟨k, t⟩ := e
    obtain ⟨⟨hk, ht⟩, hes⟩ := List.forall_mem_cons.mp h
    rw [erlEntriesToJs]
    split
    · rename_i buf hbuf
      have hascii : isAscii buf = true := by simpa only [asciiKey, hbuf, Option.elim_some] using hk
      obtain ⟨proto', props', hset, -⟩ := setProp_bulk proto props
        (newAtomLen (erlTermToJs known t).2 buf).1 (erlTermToJs known t).1
      have hnext : ofTerm (.object proto' props') = true := by
        rw [← hset]
        refine ofTerm_setProp hobj ?_ (ht known)
        rw [newAtomLen_ascii _ hascii]
        exact newStringLen_ascii hascii
      dsimp only
      rw [hset]
      exact ih hes _ hnext
    · exact ih hes known hobj

theorem isFinite_erlIntToJs (n : ℤ) : ofTerm (erlIntToJs n) = true := by
  unfold erlIntToJs
  split
  · rfl
  · split
    · rw [ofTerm, toDouble_newFloat64]
      rfl
    · rfl

theorem ofTerm_erlAtomToJs (name : String) : ofTerm (erlAtomToJs name) = true := by
  unfold erlAtomToJs
  split
  · split_ifs <;> rfl
  · rfl

theorem allOfTerm_toJs {ts : List Term}
    (h : ∀ t ∈ ts, ∀ known, ofTerm (erlTermToJs known t).1 = true) (known : Atoms) :
    allOfTerm (erlTermsToJs known ts).1 = true := by
  induction ts generalizing known with
  | nil => rfl
  | cons t ts ih =>
    obtain ⟨ht, hts⟩ := List.forall_mem_cons.mp h
    simp only [erlTermsToJs, allOfTerm, ht known, ih hts, Bool.and_self]

/-- What a term with names in ASCII becomes. -/
theorem ofTerm_toJs {t : Term} (h : asciiKeys t = true) (known : Atoms) :
    ofTerm (erlTermToJs known t).1 = true := by
  induction t using Term.induction_on generalizing known with
  | int n => exact isFinite_erlIntToJs n
  | float d =>
    rw [erlTermToJs, ofTerm, toDouble_newFloat64]
    exact d.2
  | atom name => exact ofTerm_erlAtomToJs name
  | binary | pid | ref | other => rfl
  | tuple elems ih => exact allOfTerm_toJs (fun t ht => ih t ht (allAsciiKeys_iff.mp h t ht)) known
  | list elems ih =>
    rw [erlTermToJs]
    split
    · rfl
    · exact allOfTerm_toJs (fun t ht => ih t ht (allAsciiKeys_iff.mp h t ht)) known
  | map entries ih =>
    have hentries := entriesAsciiKeys_iff.mp h
    exact ofTerm_entries (fun e he => ⟨(hentries e he).1, (ih e he).2 (hentries e he).2⟩) known rfl

/-! ## Out of a context -/

/-- The value is converted, to a term with names in ASCII and of at most that bulk. -/
def ComesOutWithin (n : ℕ) (converted : Option Term) : Prop :=
  ∃ t, converted = some t ∧ asciiKeys t = true ∧ bulk t ≤ n

theorem ComesOutWithin.mono {m n : ℕ} {converted : Option Term} (h : ComesOutWithin m converted)
    (hmn : m ≤ n) : ComesOutWithin n converted := by
  obtain ⟨t, ht, hascii, hle⟩ := h
  exact ⟨t, ht, hascii, hle.trans hmn⟩

theorem jsNumberToErl_within {n : JsNumber} (h : n.toDouble.isFinite = true) :
    ComesOutWithin 1 (jsNumberToErl n) := by
  have hint : ∀ {i : ℤ}, inInt32 i = true → bulk (.int i) ≤ 1 := fun hi => by
    simp [bulk, settled, hi]
  cases n with
  | int i => exact ⟨_, rfl, rfl, hint (inInt32_toInt i)⟩
  | float d =>
    cases d with
    | finite q =>
      by_cases hq : isWholeInt32 q = true
      · exact ⟨_, if_pos hq, rfl, hint (Bool.and_eq_true_iff.mp hq).2⟩
      · exact ⟨_, if_neg hq, rfl, by simp [bulk, settled, hq]⟩
    | negZero => exact ⟨_, rfl, rfl, by decide⟩
    | inf | nan => cases h

theorem array_within {vs : List JsValue}
    (h : ∀ v ∈ vs, ComesOutWithin (jsBulk v) (jsValueToErl ord v)) :
    ∃ ts, jsValuesToErl ord vs = some ts ∧ (∀ t ∈ ts, asciiKeys t = true) ∧
      bulkElems ts ≤ jsBulkElems vs := by
  induction vs with
  | nil => exact ⟨[], rfl, by simp, Nat.le_refl _⟩
  | cons v vs ih =>
    obtain ⟨⟨t, ht, hascii, hle⟩, hvs⟩ := List.forall_mem_cons.mp h
    obtain ⟨ts, hts, hasciis, hles⟩ := ih hvs
    refine ⟨t :: ts, ?_, List.forall_mem_cons.mpr ⟨hascii, hasciis⟩, ?_⟩
    · rw [jsValuesToErl, ht, hts]
      rfl
    · simp only [bulkElems, jsBulkElems]
      omega

/-- A name loses what follows a NUL, and no more. -/
theorem asciiKey_mapKey {k : JsString} (h : ∀ c ∈ k, c.toNat < 0x80) :
    asciiKey (.binary (mapKey k)) = true ∧ keyBulk (.binary (mapKey k)) = 1 := by
  have hcut : ∀ c ∈ cutName k, c.toNat < 0x80 := fun c hc =>
    h c ((List.takeWhile_sublist _).subset hc)
  have hnul : 0 ∉ toCStringLen (cutName k) := zero_notMem_toCStringLen (zero_notMem_cutName k)
  have hbytes : ∀ b ∈ toCStringLen (cutName k), b.toNat < 0x80 := by
    intro b hb
    have hl : UInt16.ofNat b.toNat ∈ latin1 (toCStringLen (cutName k)) := List.mem_map_of_mem hb
    rw [latin1_toCStringLen hcut] at hl
    have hlt := hcut _ hl
    have hb := b.toNat_lt
    rw [UInt16.toNat_ofNat'] at hlt
    omega
  rw [mapKey_eq]
  refine ⟨?_, ?_⟩
  · simpa [asciiKey, erlKeyToBuf, isAscii] using hbytes
  · simp [keyBulk, hnul]

/-- A map has no more entries than there are puts, and an entry no more bulk than its last put. -/
theorem sum_putAll_le {α : Type} (w : α → ℕ) (es acc : List (Bytes × α)) :
    ((Assoc.putAll acc es).map fun e => 1 + w e.2).sum ≤
      (acc.map fun e => 1 + w e.2).sum + (es.map fun e => 1 + w e.2).sum := by
  have hreplace : ∀ (k : Bytes) (v : α) (l : List (Bytes × α)),
      ((Assoc.replace k v l).map fun e => 1 + w e.2).sum ≤
        (l.map fun e => 1 + w e.2).sum + (1 + w v) := by
    intro k v l
    induction l with
    | nil => exact Nat.zero_le _
    | cons e l ih =>
      rw [Assoc.replace]
      split
      · simp only [List.map_cons, List.sum_cons]
        omega
      · simp only [List.map_cons, List.sum_cons]
        omega
  induction es generalizing acc with
  | nil => exact Nat.le_add_right _ _
  | cons e es ih =>
    have hput : ((Assoc.put acc e.1 e.2).map fun e => 1 + w e.2).sum ≤
        (acc.map fun e => 1 + w e.2).sum + (1 + w e.2) := by
      unfold Assoc.put
      split
      · exact hreplace e.1 e.2 acc
      · simp
    have hrest := ih (Assoc.put acc e.1 e.2)
    rw [List.map_cons, List.sum_cons]
    rw [Assoc.putAll, List.foldl_cons, ← Assoc.putAll]
    omega

theorem props_within {props : List (JsString × JsValue)}
    (h : ∀ e ∈ props, (∀ c ∈ e.1, c.toNat < 0x80) ∧
      ComesOutWithin (jsBulk e.2) (jsValueToErl ord e.2)) :
    ComesOutWithin (2 + jsBulkProps props) (jsPropsToMap ord (jsPropsToErl ord props)) := by
  have hterm : ∀ e ∈ props, jsValueToErl ord e.2 = some (termOf ord e.2) ∧
      asciiKeys (termOf ord e.2) = true ∧ bulk (termOf ord e.2) ≤ jsBulk e.2 := by
    intro e he
    obtain ⟨t, ht, hascii, hle⟩ := (h e he).2
    have hof : termOf ord e.2 = t := by rw [termOf, ht, Option.getD_some]
    rw [hof]
    exact ⟨ht, hascii, hle⟩
  have hentry : ∀ x ∈ ord.arrange (mapEntries ord props),
      ∃ e ∈ props, x = (mapKey e.1, termOf ord e.2) := by
    intro x hx
    rcases Assoc.mem_putAll ((ord.perm _).mem_iff.mp hx) with hx | hx
    · cases hx
    · obtain ⟨e, he, rfl⟩ := List.mem_map.mp hx
      exact ⟨e, he, rfl⟩
  refine ⟨ord.toMap (mapEntries ord props), jsPropsToMap_eq fun e he => (hterm e he).1, ?_, ?_⟩
  · rw [MapOrder.toMap, asciiKeys, entriesAsciiKeys_iff, List.forall_mem_map]
    intro x hx
    obtain ⟨e, he, rfl⟩ := hentry x hx
    exact ⟨(asciiKey_mapKey (h e he).1).1, (hterm e he).2.1⟩
  · have hsum := sum_putAll_le bulk (props.map fun e => (mapKey e.1, termOf ord e.2)) []
    have hvalues : ((props.map fun e => (mapKey e.1, termOf ord e.2)).map fun e => 1 + bulk e.2).sum
        ≤ jsBulkProps props := by
      rw [jsBulkProps_eq, List.map_map]
      refine List.sum_le_sum fun e he => ?_
      exact Nat.add_le_add_left (hterm e he).2.2 1
    have harranged : bulkEntries ((ord.arrange (mapEntries ord props)).map fun e =>
        (.binary e.1, e.2)) = ((mapEntries ord props).map fun e => 1 + bulk e.2).sum := by
      rw [bulkEntries_eq, List.map_map, ← ((ord.perm (mapEntries ord props)).map _).sum_eq]
      refine congrArg List.sum (List.map_congr_left fun x hx => ?_)
      obtain ⟨e, he, rfl⟩ := hentry x hx
      simp only [Function.comp_apply, (asciiKey_mapKey (h e he).1).2]
    rw [MapOrder.toMap, bulk, harranged]
    rw [List.map_nil, List.sum_nil, Nat.zero_add] at hsum
    exact Nat.add_le_add_left (hsum.trans hvalues) 2

/-- What an object inherits or has as `__beamjs_data` has less bulk than the object. -/
theorem data_within {proto : Option JsValue} {props : List (JsString × JsValue)}
    (hproto : ∀ p ∈ proto, ComesOutWithin (jsBulk p) (jsDataToErl ord p))
    (hprops : ∀ e ∈ props, ComesOutWithin (jsBulk e.2) (jsValueToErl ord e.2)) :
    ComesOutWithin (1 + jsBulkProto proto + jsBulkProps props)
      (((jsPropsToErl ord props).lookup (js "__beamjs_data")).getD (jsProtoDataToErl ord proto)) := by
  rw [jsPropsToErl_eq, Assoc.lookup_map_snd]
  cases hl : props.lookup (js "__beamjs_data") with
  | none =>
    cases proto with
    | none => exact ⟨_, rfl, rfl, Nat.le_add_right_of_le (by decide)⟩
    | some p =>
      refine (hproto p rfl).mono ?_
      rw [jsBulkProto]
      omega
  | some v =>
    have hmem := Assoc.mem_of_lookup hl
    refine (hprops _ hmem).mono ?_
    have hle : 1 + jsBulk v ≤ jsBulkProps props := by
      rw [jsBulkProps_eq]
      exact List.single_le_sum (by simp) _ (List.mem_map_of_mem hmem)
    dsimp only
    omega

/-- What a term with names in ASCII became can be converted, and gains no bulk. -/
theorem toErl_within (ord : MapOrder) {v : JsValue} (h : ofTerm v = true) :
    ComesOutWithin (jsBulk v) (jsValueToErl ord v) ∧
      ComesOutWithin (jsBulk v) (jsDataToErl ord v) := by
  have hundefined : ∀ n, 0 < n → ComesOutWithin n (some (.atom "undefined")) :=
    fun n hn => ⟨_, rfl, rfl, hn⟩
  induction v using JsValue.induction_on with
  | undefined | null => exact ⟨⟨_, rfl, rfl, by decide⟩, hundefined _ (jsBulk_pos _)⟩
  | bool b =>
    refine ⟨⟨_, rfl, rfl, ?_⟩, hundefined _ (jsBulk_pos _)⟩
    cases b <;> decide
  | number n => exact ⟨jsNumberToErl_within h, hundefined _ (jsBulk_pos _)⟩
  | string s =>
    refine ⟨⟨_, rfl, rfl, ?_⟩, hundefined _ (jsBulk_pos _)⟩
    have htext : isText (toCStringLen s) = true := by rw [isText_iff, newStringLen_toCStringLen]
    simp [bulk, settled, htext, jsBulk]
  | array elems ih =>
    obtain ⟨ts, hts, hascii, hle⟩ := array_within fun v hv => (ih v hv (allOfTerm_iff.mp h v hv)).1
    refine ⟨⟨.list ts, ?_, allAsciiKeys_iff.mpr hascii, ?_⟩, hundefined _ (jsBulk_pos _)⟩
    · rw [jsValueToErl, hts]
      rfl
    · rw [bulk, jsBulk]
      exact Nat.add_le_add_left hle 2
  | object proto props ihproto ihprops =>
    obtain ⟨hproto, hprops⟩ := Bool.and_eq_true_iff.mp h
    rw [propsOfTerm_iff] at hprops
    have hdata : ComesOutWithin (1 + jsBulkProto proto + jsBulkProps props)
        (((jsPropsToErl ord props).lookup (js "__beamjs_data")).getD
          (jsProtoDataToErl ord proto)) := by
      refine data_within (fun p hp => ?_) fun e he => (ihprops e he (hprops e he).2).1
      obtain rfl : proto = some p := hp
      exact (ihproto p rfl hproto).2
    refine ⟨?_, hdata.mono ?_⟩
    · rw [jsValueToErl, jsBulk]
      split
      · exact hdata.mono (by omega)
      · have hwithin := props_within fun e he =>
          ⟨(hprops e he).1, (ihprops e he (hprops e he).2).1⟩
        exact hwithin.mono (by omega)
    · rw [jsBulk]
      omega
  | bigint | symbol | func | error | promise => cases h

/-- A hop has a result, with names in ASCII, and of no more bulk than the term has in the context.
-/
theorem hop_within (ord : MapOrder) {t : Term} (h : asciiKeys t = true) (known : Atoms) :
    ComesOutWithin (jsBulk (erlTermToJs known t).1) (hop ord known t) :=
  (toErl_within ord (ofTerm_toJs h known)).1

theorem bulk_hop_le {t s : Term} (h : asciiKeys t = true) (hs : hop ord known t = some s) :
    bulk s ≤ jsBulk (erlTermToJs known t).1 := by
  obtain ⟨s', hs', -, hle⟩ := hop_within ord h known
  rw [hs] at hs'
  rwa [Option.some.inj hs']

/-- A pid handle is converted to its data alone. -/
theorem bulk_handle_lt {proto : Option JsValue} {props : List (JsString × JsValue)} {s : Term}
    (h : ofTerm (.object proto props) = true)
    (htag : isPidTag (getProp noBuiltins (js "__beamjs_type") (.object proto props)) = true)
    (hs : jsValueToErl ord (.object proto props) = some s) :
    bulk s < jsBulk (.object proto props) := by
  obtain ⟨hproto, hprops⟩ := Bool.and_eq_true_iff.mp h
  rw [propsOfTerm_iff] at hprops
  rw [jsValueToErl, if_pos htag] at hs
  have hdata : ComesOutWithin (1 + jsBulkProto proto + jsBulkProps props) (some s) := by
    rw [← hs]
    refine data_within (fun p hp => ?_) fun e he => (toErl_within ord (hprops e he).2).1
    obtain rfl : proto = some p := hp
    exact (toErl_within ord hproto).2
  obtain ⟨s', hs', -, hle⟩ := hdata
  obtain rfl := Option.some.inj hs'
  rw [jsBulk]
  omega

/-! ## Maps with every name kept -/

/-- The property has the name of the entry, and what its value becomes. -/
def Becomes (e : Term × Term) (p : JsString × JsValue) : Prop :=
  e.1 = .binary (toCStringLen p.1) ∧ 0 ∉ p.1 ∧ ∃ known, p.2 = (erlTermToJs known e.2).1

theorem keepsKey_iff {k : Term} : keepsKey k = true ↔
    ∃ s, k = .binary (toCStringLen s) ∧ (∀ c ∈ s, c.toNat < 0x80) ∧ 0 ∉ s ∧
      s ≠ js "__proto__" := by
  constructor
  · intro h
    cases k with
    | binary b =>
      simp only [keepsKey, Bool.and_eq_true, Bool.not_eq_true', bne_iff_ne, ne_eq] at h
      obtain ⟨⟨hascii, hnul⟩, hproto⟩ := h
      have hbytes : ∀ c ∈ b, c.toNat < 0x80 := by simpa [isAscii] using hascii
      have hback := toCStringLen_latin1 hbytes
      refine ⟨latin1 b, by rw [hback], ?_, ?_, fun heq => hproto ?_⟩
      · rw [← newStringLen_of_ascii hbytes]
        exact newStringLen_ascii hascii
      · rw [mem_latin1_zero]
        simpa using hnul
      · rw [← hback, heq]
        rfl
    | _ => cases h
  · rintro ⟨s, rfl, hascii, hnul, hproto⟩
    have hbytes := (asciiKey_mapKey hascii).1
    rw [mapKey_eq, cutName_of_notMem hnul] at hbytes
    have hproto' : toCStringLen s ≠ bytes "__proto__" :=
      fun heq => hproto (toCStringLen_injective heq)
    have hnul' := zero_notMem_toCStringLen hnul
    simp only [asciiKey, erlKeyToBuf, Option.elim_some] at hbytes
    simp [keepsKey, hbytes, hproto', hnul']

/-- Entries under names of their own, all new to the object, become its properties. -/
theorem entries_become {es : List (Term × Term)} (hkeys : ∀ e ∈ es, keepsKey e.1 = true)
    (hnd : (Assoc.keys es).Nodup) (known : Atoms) (props : List (JsString × JsValue))
    (hnew : ∀ e ∈ es, ∀ s, e.1 = .binary (toCStringLen s) → s ∉ Assoc.keys props) :
    ∃ props' ps, (erlEntriesToJs known (.object none props) es).1 = .object none props' ∧
      props'.Perm (props ++ ps) ∧ List.Forall₂ Becomes es ps := by
  induction es generalizing known props with
  | nil => exact ⟨props, [], rfl, by simp, .nil⟩
  | cons e es ih =>
    obtain ⟨k, t⟩ := e
    obtain ⟨hk, hkeys'⟩ := List.forall_mem_cons.mp hkeys
    obtain ⟨hout, hnd'⟩ := List.nodup_cons.mp hnd
    obtain ⟨hfirst, hnew'⟩ := List.forall_mem_cons.mp hnew
    obtain ⟨s, rfl, hascii, hnul, hproto⟩ := keepsKey_iff.mp hk
    have hname : ∀ known, (newAtomLen known (toCStringLen s)).1 = s := by
      intro known
      rcases newAtomLen_cases known s with h | h
      · exact h
      · rw [h, latin1_toCStringLen hascii]
    have hperm := insertProp_perm s (erlTermToJs known t).1 props
    have hnext : ∀ e ∈ es, ∀ s', e.1 = .binary (toCStringLen s') →
        s' ∉ Assoc.keys (insertProp s (erlTermToJs known t).1 props) := by
      intro e he s' hs' hmem
      rcases List.mem_cons.mp ((hperm.map Prod.fst).mem_iff.mp hmem) with rfl | hmem
      · exact hout (List.mem_map.mpr ⟨e, he, hs'⟩)
      · exact hnew' e he s' hs' hmem
    obtain ⟨props', ps, hrun, hprops, hall⟩ := ih hkeys' hnd'
      (newAtomLen (erlTermToJs known t).2 (toCStringLen s)).2 _ hnext
    refine ⟨props', (s, (erlTermToJs known t).1) :: ps, ?_, ?_, .cons ⟨rfl, hnul, known, rfl⟩ hall⟩
    · rw [← hrun, erlEntriesToJs, erlKeyToBuf]
      dsimp only
      rw [hname, setProp_new (hfirst s rfl) hproto]
    · exact hprops.trans ((hperm.append_right ps).trans List.perm_middle.symm)

/-- A loop over the entries that takes nothing away found names of their own, all of them new. -/
theorem entries_tight {es : List (Term × Term)} (hascii : ∀ e ∈ es, asciiKey e.1 = true)
    (known : Atoms) (props : List (JsString × JsValue))
    (hle : jsBulk (.object none props) + bulkEntries es ≤
      jsBulk (erlEntriesToJs known (.object none props) es).1) :
    (∀ e ∈ es, keepsKey e.1 = true) ∧ (Assoc.keys es).Nodup ∧
      ∀ e ∈ es, ∀ s, e.1 = .binary (toCStringLen s) → s ∉ Assoc.keys props := by
  induction es generalizing known props with
  | nil => simp
  | cons e es ih =>
    obtain ⟨k, t⟩ := e
    obtain ⟨hk, hascii'⟩ := List.forall_mem_cons.mp hascii
    have hrest := entries_bulk es fun e _ known => jsBulk_toJs_le e.2 known
    rw [erlEntriesToJs, bulkEntries] at hle
    cases hbuf : erlKeyToBuf k with
    | none =>
      obtain ⟨_, _, hrun, hbound⟩ := hrest known none props
      have hpos := bulk_pos t
      simp only [hbuf, hrun] at hle
      omega
    | some buf =>
      simp only [hbuf] at hle
      have hbytes : isAscii buf = true := by
        simpa only [asciiKey, hbuf, Option.elim_some] using hk
      rw [newAtomLen_ascii _ hbytes] at hle
      obtain ⟨proto₁, props₁, hset, hadd, hown⟩ := setProp_bulk none props (newStringLen buf)
        (erlTermToJs known t).1
      rw [hset] at hle
      obtain ⟨_, _, hrun, hbound⟩ :=
        hrest (newAtomLen (erlTermToJs known t).2 buf).2 proto₁ props₁
      have ht := jsBulk_toJs_le t known
      -- a key that is no binary or that has a NUL counts for more than the property it gives
      have hone : keyBulk k = 1 := by
        have hpos := keyBulk_pos k
        by_contra hne
        rw [hrun] at hle
        omega
      obtain ⟨rfl, hnul⟩ : k = .binary buf ∧ 0 ∉ buf := by
        cases k with
        | binary b =>
          obtain rfl : b = buf := Option.some.inj hbuf
          simpa [keyBulk] using hone
        | _ => cases hone
      have hback : toCStringLen (newStringLen buf) = buf := by
        have hb : ∀ c ∈ buf, c.toNat < 0x80 := by simpa [isAscii] using hbytes
        rw [newStringLen_of_ascii hb, toCStringLen_latin1 hb]
      obtain ⟨hnotin, hproto⟩ : newStringLen buf ∉ Assoc.keys props ∧
          newStringLen buf ≠ js "__proto__" := by
        by_contra hcon
        have hless := hown (by tauto)
        rw [hrun] at hle
        omega
      rw [setProp_new hnotin hproto] at hset
      cases hset
      have hperm := insertProp_perm (newStringLen buf) (erlTermToJs known t).1 props
      have hnext : jsBulk (.object none (insertProp (newStringLen buf) (erlTermToJs known t).1 props))
          + bulkEntries es ≤ jsBulk (erlEntriesToJs (newAtomLen (erlTermToJs known t).2 buf).2
            (.object none (insertProp (newStringLen buf) (erlTermToJs known t).1 props)) es).1 := by
        omega
      obtain ⟨hkeys, hnd, hnew⟩ := ih hascii' _ _ hnext
      have hkey : keepsKey (.binary buf) = true := by
        refine keepsKey_iff.mpr ⟨newStringLen buf, by rw [hback], newStringLen_ascii hbytes, ?_,
          hproto⟩
        intro hzero
        have hb : ∀ c ∈ buf, c.toNat < 0x80 := by simpa [isAscii] using hbytes
        rw [newStringLen_of_ascii hb, mem_latin1_zero] at hzero
        exact hnul hzero
      refine ⟨List.forall_mem_cons.mpr ⟨hkey, hkeys⟩, List.nodup_cons.mpr ⟨?_, hnd⟩,
        List.forall_mem_cons.mpr ⟨?_, ?_⟩⟩
      · intro hmem
        obtain ⟨e, he, heq⟩ := List.mem_map.mp hmem
        refine hnew e he (newStringLen buf) (by rw [hback]; exact heq) ?_
        exact (hperm.map Prod.fst).mem_iff.mpr (List.mem_cons_self ..)
      · intro s hs
        rw [Term.binary.inj hs, newStringLen_toCStringLen] at hnotin
        exact hnotin
      · intro e he s hs hmem
        refine hnew e he s hs ?_
        exact (hperm.map Prod.fst).mem_iff.mpr (List.mem_cons_of_mem _ hmem)

/-- The entry comes out of some context as the other. -/
def HopsTo (ord : MapOrder) (e e' : Term × Term) : Prop :=
  e.1 = e'.1 ∧ ∃ known, hop ord known e.2 = some e'.2

/-- The properties have names of their own where the entries have keys of their own. -/
theorem nodup_of_becomes {es : List (Term × Term)} {props ps : List (JsString × JsValue)}
    (hnd : (Assoc.keys es).Nodup) (hperm : props.Perm ps) (hall : List.Forall₂ Becomes es ps) :
    (Assoc.keys props).Nodup := by
  have hkeys : Assoc.keys es = (Assoc.keys ps).map fun k => .binary (toCStringLen k) := by
    rw [Assoc.keys, Assoc.keys, List.map_map]
    refine List.forall₂_eq_eq_eq ▸ ?_
    rw [List.forall₂_map_left_iff, List.forall₂_map_right_iff]
    exact hall.imp fun _ _ h => h.1
  rw [hkeys] at hnd
  exact (hperm.map Prod.fst).nodup_iff.mpr (hnd.of_map _)

theorem isPidTag_own (props : List (JsString × JsValue)) :
    isPidTag (getProp noBuiltins (js "__beamjs_type") (.object none props)) =
      isPidHandle props := by
  rw [getProp, getProp?_object, isPidHandle]
  cases props.lookup (js "__beamjs_type") with
  | none => rfl
  | some v => cases v <;> rfl

/-- A map whose entries all become properties, of an object that is no pid handle, comes out with
what its entries come out as. -/
theorem hop_map (ord : MapOrder) {es : List (Term × Term)} {props ps : List (JsString × JsValue)}
    (hascii : asciiKeys (.map es) = true) (hnd : (Assoc.keys es).Nodup)
    (hrun : (erlTermToJs known (.map es)).1 = .object none props) (hperm : props.Perm ps)
    (hall : List.Forall₂ Becomes es ps) (htag : isPidHandle props = false) :
    ∃ es' ss, hop ord known (.map es) = some (.map es') ∧ es'.Perm ss ∧
      List.Forall₂ (HopsTo ord) es ss := by
  have hof := ofTerm_toJs hascii known
  rw [hrun, ofTerm, Bool.and_eq_true] at hof
  have hprops := propsOfTerm_iff.mp hof.2
  have hterm : ∀ p ∈ props, jsValueToErl ord p.2 = some (termOf ord p.2) := by
    intro p hp
    obtain ⟨t, ht, -⟩ := (toErl_within ord (hprops p hp).2).1
    rw [termOf, ht, Option.getD_some]
  have hbecomes : ∀ p ∈ props, ∃ e ∈ es, Becomes e p := by
    intro p hp
    obtain ⟨e, he, h⟩ := exists_of_forall₂ hall.flip (hperm.mem_iff.mp hp)
    exact ⟨e, he, h⟩
  have hnul : ∀ k ∈ Assoc.keys props, 0 ∉ k := by
    intro k hk
    obtain ⟨p, hp, rfl⟩ := List.mem_map.mp hk
    obtain ⟨e, -, -, hnul, -⟩ := hbecomes p hp
    exact hnul
  have hentries := mapEntries_of_notMem ord (nodup_of_becomes hnd hperm hall) hnul
  refine ⟨(ord.arrange (mapEntries ord props)).map fun e => (.binary e.1, e.2),
    ps.map fun p => (.binary (toCStringLen p.1), termOf ord p.2), ?_, ?_, ?_⟩
  · rw [hop, hrun, jsValueToErl_object rfl htag, jsPropsToMap_eq hterm]
    rfl
  · refine ((ord.perm _).map _).trans ?_
    rw [hentries, List.map_map]
    exact hperm.map _
  · rw [List.forall₂_map_right_iff]
    have hboth := (List.forall₂_and_left ps es).mpr
      ⟨fun p hp => hterm p (hperm.mem_iff.mpr hp), hall.flip⟩
    refine hboth.flip.imp fun e p h => ?_
    obtain ⟨hp, hkey, -, known', hv⟩ := h
    refine ⟨hkey, known', ?_⟩
    rw [hop, ← hv]
    exact hp

/-! ## One hop -/

theorem forall₂_erlTermsToJs (known : Atoms) (ts : List Term) :
    List.Forall₂ (fun t v => ∃ known', v = (erlTermToJs known' t).1) ts
      (erlTermsToJs known ts).1 := by
  induction ts generalizing known with
  | nil => exact .nil
  | cons t ts ih => exact .cons ⟨known, rfl⟩ (ih _)

/-- A list that is not taken for a string comes out element by element. -/
theorem hop_list {ts : List Term} (h : Term.iolistBytes ts = none) {s : Term}
    (hs : hop ord known (.list ts) = some s) :
    ∃ ss, s = .list ss ∧ List.Forall₂ (fun t s => ∃ known', hop ord known' t = some s) ts ss := by
  simp only [hop, erlTermToJs, h, jsValueToErl, jsValuesToErl_eq_mapM] at hs
  obtain ⟨ss, hss, rfl⟩ := Option.map_eq_some_iff.mp hs
  refine ⟨ss, rfl, ?_⟩
  have hout := forall_of_mapM hss
  have hin := forall₂_erlTermsToJs known ts
  generalize (erlTermsToJs known ts).1 = vs at hin hout
  clear hs hss h
  induction hin generalizing ss with
  | nil =>
    cases hout
    exact .nil
  | cons hv _ ih =>
    obtain ⟨known', rfl⟩ := hv
    cases hout with
    | cons hs hrest => exact .cons ⟨known', hs⟩ (ih _ hrest)

/-- Parts of which none grows make no greater sum, and a smaller one if one of them shrinks. -/
theorem sum_of_forall₂ {α β : Type} {R : α → β → Prop} {f : α → ℕ} {g : β → ℕ} {as : List α}
    {bs : List β} (hall : List.Forall₂ R as bs) (hle : ∀ a ∈ as, ∀ b, R a b → g b ≤ f a) :
    (bs.map g).sum ≤ (as.map f).sum ∧
      ((∃ a ∈ as, ∀ b, R a b → g b < f a) → (bs.map g).sum < (as.map f).sum) := by
  induction hall with
  | nil => simp
  | @cons a b as bs hab _ ih =>
    obtain ⟨hfirst, hle⟩ := List.forall_mem_cons.mp hle
    obtain ⟨hsum, hless⟩ := ih hle
    have hb := hfirst b hab
    simp only [List.map_cons, List.sum_cons]
    refine ⟨Nat.add_le_add hb hsum, ?_⟩
    rintro ⟨a', ha', hlt⟩
    rcases List.mem_cons.mp ha' with rfl | ha'
    · exact Nat.add_lt_add_of_lt_of_le (hlt b hab) hsum
    · exact Nat.add_lt_add_of_le_of_lt hb (hless ⟨a', ha', hlt⟩)

/-- A handle's mark among the entries is one among the properties, where the binary is a text. -/
theorem isPidHandle_of_isPidMap {es : List (Term × Term)} {props ps : List (JsString × JsValue)}
    (hnd : (Assoc.keys es).Nodup) (hperm : props.Perm ps) (hall : List.Forall₂ Becomes es ps)
    (hsettled : ∀ e ∈ es, settled e.2 = true) (h : isPidMap es = true) :
    isPidHandle props = true := by
  unfold isPidMap at h
  split at h
  · rename_i b hl
    have hmem := Assoc.mem_of_lookup hl
    obtain ⟨p, hp, hkey, -, known', hv⟩ := exists_of_forall₂ hall hmem
    have hname : js "__beamjs_type" = p.1 := toCStringLen_injective (Term.binary.inj hkey)
    have hlook : props.lookup (js "__beamjs_type") = some (.string (newStringLen b)) := by
      refine Assoc.lookup_of_mem (nodup_of_becomes hnd hperm hall) ?_
      rw [hname, show JsValue.string (newStringLen b) = p.2 from hv.symm]
      exact hperm.mem_iff.mpr hp
    have htext : toCStringLen (newStringLen b) = b := isText_iff.mp (hsettled _ hmem)
    rw [isPidHandle, hlook]
    refine decide_eq_true ?_
    rw [htext]
    exact beq_iff_eq.mp h
  · cases h

/-- A hop takes something away from a map with an entry or a mark that is not settled. -/
theorem bulk_map_lt {es : List (Term × Term)} {s : Term} (hascii : asciiKeys (.map es) = true)
    (ih : ∀ e ∈ es, ∀ known s, hop ord known e.2 = some s →
      bulk s ≤ bulk e.2 ∧ (settled e.2 = true ∨ bulk s < bulk e.2))
    (known : Atoms) (hs : hop ord known (.map es) = some s) (hsettled : settled (.map es) ≠ true) :
    bulk s < bulk (.map es) := by
  have hle := bulk_hop_le hascii hs
  have hjs := jsBulk_toJs_le (.map es) known
  have hkeyed := entriesAsciiKeys_iff.mp hascii
  by_cases htight : bulk (.map es) ≤ jsBulk (erlTermToJs known (.map es)).1
  · rw [erlTermToJs, bulk] at htight
    obtain ⟨hkeys, hnd, -⟩ := entries_tight (fun e he => (hkeyed e he).1) known [] htight
    obtain ⟨props, ps, hobj, hperm, hall⟩ :=
      entries_become hkeys hnd known [] fun _ _ _ _ => List.not_mem_nil
    rw [← emptyObject, ← erlTermToJs] at hobj
    by_cases htag : isPidHandle props = true
    · have hof := ofTerm_toJs hascii known
      rw [hobj] at hof hjs
      rw [hop, hobj] at hs
      have htag' := (isPidTag_own props).trans htag
      exact (bulk_handle_lt hof htag' hs).trans_le hjs
    · rw [Bool.not_eq_true] at htag
      obtain ⟨es', ss, hs', hperm', hhops⟩ := hop_map ord hascii hnd hobj hperm hall htag
      rw [hs] at hs'
      obtain rfl := Option.some.inj hs'
      have hcost : ∀ e ∈ es, ∀ e', HopsTo ord e e' →
          keyBulk e'.1 + bulk e'.2 ≤ keyBulk e.1 + bulk e.2 := by
        intro e he e' h
        obtain ⟨hkey, known', hhop⟩ := h
        rw [hkey]
        exact Nat.add_le_add_left (ih e he known' _ hhop).1 _
      obtain ⟨-, hless⟩ := sum_of_forall₂ hhops hcost
      rw [bulk, bulk, bulkEntries_eq, bulkEntries_eq, (hperm'.map _).sum_eq]
      refine Nat.add_lt_add_left (hless ?_) 2
      by_contra hcon
      have hvalues : ∀ e ∈ es, settled e.2 = true := by
        intro e he
        by_contra hne
        refine hcon ⟨e, he, fun e' h => ?_⟩
        obtain ⟨hkey, known', hhop⟩ := h
        rw [hkey]
        exact Nat.add_lt_add_left ((ih e he known' _ hhop).2.resolve_left hne) _
      have hpid : isPidMap es = false := by
        refine eq_false_of_ne_true fun h => ?_
        rw [isPidHandle_of_isPidMap hnd hperm hall hvalues h] at htag
        cases htag
      exact hsettled (settled_map.mpr ⟨hnd, hpid, fun e he => ⟨hkeys e he, hvalues e he⟩⟩)
  · omega

/-- A term without parts is settled after a hop. -/
theorem bulk_leaf_lt {t s : Term} (h : asciiKeys t = true) (hs : hop ord known t = some s)
    (hsettled : settled t ≠ true) (hbulk : bulk t = if settled t then 1 else 2)
    (hone : jsBulk (erlTermToJs known t).1 = 1) : bulk s < bulk t := by
  have hle := bulk_hop_le h hs
  rw [if_neg hsettled] at hbulk
  omega

theorem bulk_hop_le_bulk {t s : Term} (h : asciiKeys t = true) (hs : hop ord known t = some s) :
    bulk s ≤ bulk t := (bulk_hop_le h hs).trans (jsBulk_toJs_le t known)

/-- A hop takes something away from a term that is not settled. -/
theorem bulk_hop_lt {t s : Term} (h : asciiKeys t = true) (known : Atoms)
    (hs : hop ord known t = some s) (hsettled : settled t ≠ true) : bulk s < bulk t := by
  induction t using Term.induction_on generalizing known s with
  | int n => exact bulk_leaf_lt h hs hsettled (by simp [bulk]) (jsBulk_erlIntToJs n)
  | atom name => exact bulk_leaf_lt h hs hsettled (by simp [bulk]) (jsBulk_erlAtomToJs name)
  | float | binary | pid | ref | other => exact bulk_leaf_lt h hs hsettled (by simp [bulk]) rfl
  | tuple elems ih =>
    have hle := bulk_hop_le h hs
    have helems := jsBulkElems_toJs elems (fun t _ => jsBulk_toJs_le t) known
    simp only [erlTermToJs, jsBulk] at hle
    rw [bulk]
    omega
  | list elems ih =>
    cases hio : Term.iolistBytes elems with
    | some b =>
      have hle := bulk_hop_le h hs
      simp only [erlTermToJs, hio, jsBulk] at hle
      rw [bulk]
      omega
    | none =>
      obtain ⟨ss, rfl, hall⟩ := hop_list hio hs
      have hascii := allAsciiKeys_iff.mp h
      obtain ⟨-, hless⟩ := sum_of_forall₂ (f := bulk) (g := bulk) hall fun t ht s hs => by
        obtain ⟨known', hhop⟩ := hs
        exact bulk_hop_le_bulk (hascii t ht) hhop
      rw [bulk, bulk, bulkElems_eq, bulkElems_eq]
      refine Nat.add_lt_add_left (hless ?_) 2
      by_contra hcon
      refine hsettled ?_
      rw [settled, hio, Option.isNone_none, Bool.true_and, allSettled_iff]
      intro t ht
      by_contra hne
      refine hcon ⟨t, ht, fun s hs => ?_⟩
      obtain ⟨known', hhop⟩ := hs
      exact ih t ht (hascii t ht) known' hhop hne
  | map es ih =>
    have hascii := entriesAsciiKeys_iff.mp h
    refine bulk_map_lt h (fun e he known' s' hhop => ?_) known hs hsettled
    refine ⟨bulk_hop_le_bulk (hascii e he).2 hhop, ?_⟩
    exact or_iff_not_imp_left.mpr ((ih e he).2 (hascii e he).2 known' hhop)

/-! ## Settled terms -/

/-- Equal terms are the same for an iolist. -/
theorem iolistElem_of_equal {s t : Term} (h : Term.equal s t = true) :
    Term.iolistElem s = Term.iolistElem t := by
  induction s using Term.induction_on generalizing t with
  | list elems ih =>
    cases t with
    | list ts =>
      simp only [Term.equal] at h
      simp only [Term.iolistElem]
      induction elems generalizing ts with
      | nil =>
        cases ts with
        | nil => rfl
        | cons => cases h
      | cons s ss ihss =>
        obtain ⟨hs, hss⟩ := List.forall_mem_cons.mp ih
        cases ts with
        | nil => cases h
        | cons t ts =>
          rw [Term.equalElems, Bool.and_eq_true] at h
          simp only [Term.iolistBytes, hs h.1, ihss hss ts h.2]
    | _ => cases h
  | int | binary =>
    cases t with
    | int | binary => simp_all [Term.equal]
    | _ => cases h
  | _ => cases t <;> first | rfl | cases h

theorem settled_asciiKeys {t : Term} (h : settled t = true) : asciiKeys t = true := by
  induction t using Term.induction_on with
  | list elems ih =>
    have helems := allSettled_iff.mp (Bool.and_eq_true_iff.mp h).2
    exact allAsciiKeys_iff.mpr fun t ht => ih t ht (helems t ht)
  | map es ih =>
    obtain ⟨-, -, hes⟩ := settled_map.mp h
    refine entriesAsciiKeys_iff.mpr fun e he => ⟨?_, (ih e he).2 (hes e he).2⟩
    obtain ⟨s, hs, hascii, hnul, -⟩ := keepsKey_iff.mp (hes e he).1
    have hkey := (asciiKey_mapKey hascii).1
    rwa [mapKey_eq, cutName_of_notMem hnul, ← hs] at hkey
  | tuple => cases h
  | _ => rfl

/-- A settled term without parts comes out as it went in. -/
theorem hop_leaf (ord : MapOrder) (known : Atoms) {t : Term} (h : settled t = true)
    (hlist : ∀ ts, t ≠ .list ts) (hmap : ∀ es, t ≠ .map es) : hop ord known t = some t ∧ Term.equal t t = true := by
  cases t with
  | int n =>
    refine ⟨?_, by simp [Term.equal]⟩
    rw [hop, erlTermToJs, erlIntToJs_of_inInt32 h, jsValueToErl, jsNumberToErl,
      toInt_ofInt_of_inInt32 h]
  | float d =>
    obtain ⟨d, hd⟩ := d
    cases d with
    | finite q =>
      have hq : isWholeInt32 q = false := by simpa [settled] using h
      refine ⟨?_, by simp [Term.equal]⟩
      simp [hop, erlTermToJs, newFloat64, jsValueToErl, jsNumberToErl, hq]
    | _ => cases h
  | atom name =>
    refine ⟨?_, by simp [Term.equal]⟩
    simp only [settled, Bool.or_eq_true, beq_iff_eq] at h
    rcases h with ((rfl | rfl) | rfl) | rfl <;> rfl
  | binary b =>
    refine ⟨?_, by simp [Term.equal]⟩
    rw [hop, erlTermToJs, jsValueToErl, isText_iff.mp h]
  | list ts => exact absurd rfl (hlist ts)
  | map es => exact absurd rfl (hmap es)
  | _ => cases h

theorem equalElems_of_forall₂ {ss ts : List Term}
    (h : List.Forall₂ (fun t s => Term.equal s t = true) ts ss) :
    Term.equalElems ss ts = true := by
  induction h with
  | nil => rfl
  | cons hst _ ih => rw [Term.equalElems, hst, ih, Bool.and_self]

theorem iolistBytes_of_equal {ss ts : List Term}
    (h : List.Forall₂ (fun t s => Term.equal s t = true) ts ss) :
    Term.iolistBytes ss = Term.iolistBytes ts :=
  iolistElem_of_equal (s := .list ss) (t := .list ts) (equalElems_of_forall₂ h)

/-- A binary is equal to itself alone. -/
theorem eq_binary_of_equal {b : Bytes} {t : Term} (h : Term.equal (.binary b) t = true) :
    t = .binary b := by
  cases t with
  | binary b' => rw [beq_iff_eq.mp h]
  | _ => cases h

/-- Entries that are settled and hop to equal and settled ones are a settled map again. -/
theorem settled_entries {es es' ss : List (Term × Term)} (h : settled (.map es) = true)
    (hperm : es'.Perm ss)
    (hall : List.Forall₂ (fun e e' => e.1 = e'.1 ∧ Term.equal e'.2 e.2 = true ∧
      settled e'.2 = true) es ss) :
    Term.equal (.map es') (.map es) = true ∧ settled (.map es') = true := by
  obtain ⟨hnd, hpid, hes⟩ := settled_map.mp h
  have hback : ∀ e' ∈ es', ∃ e ∈ es, e.1 = e'.1 ∧ Term.equal e'.2 e.2 = true ∧
      settled e'.2 = true := by
    intro e' he'
    obtain ⟨e, he, hback⟩ := exists_of_forall₂ hall.flip (hperm.mem_iff.mp he')
    exact ⟨e, he, hback⟩
  have hlook : ∀ e' ∈ es', ∃ t, es.lookup e'.1 = some t ∧ Term.equal e'.2 t = true := by
    intro e' he'
    obtain ⟨e, he, hkey, heq, -⟩ := hback e' he'
    exact ⟨e.2, hkey ▸ Assoc.lookup_of_mem hnd he, heq⟩
  have hkeys : (Assoc.keys es').Perm (Assoc.keys es) := by
    rw [Assoc.keys_eq_of_forall₂ (hall.imp fun _ _ h => h.1)]
    exact hperm.map Prod.fst
  refine ⟨?_, settled_map.mpr ⟨hkeys.nodup_iff.mpr hnd, ?_, fun e' he' => ?_⟩⟩
  · have hlen : es'.length = es.length := by
      rw [hperm.length_eq, hall.length_eq]
    rw [Term.equal, hlen, beq_self_eq_true, Bool.true_and]
    exact Term.equalEntries_iff.mpr hlook
  · refine eq_false_of_ne_true fun htag => ?_
    unfold isPidMap at htag
    split at htag
    · rename_i b hl
      obtain ⟨t, ht, heq⟩ := hlook _ (Assoc.mem_of_lookup hl)
      obtain rfl := eq_binary_of_equal heq
      rw [isPidMap, ht] at hpid
      exact absurd htag (Bool.eq_false_iff.mp hpid)
    · cases htag
  · obtain ⟨e, he, hkey, -, hset⟩ := hback e' he'
    exact ⟨hkey ▸ (hes e he).1, hset⟩

/-- The object that a settled map becomes is no pid handle. -/
theorem not_isPidHandle {es : List (Term × Term)} {props ps : List (JsString × JsValue)}
    (hpid : isPidMap es = false) (hnd : (Assoc.keys es).Nodup) (hperm : props.Perm ps)
    (hall : List.Forall₂ Becomes es ps)
    (hes : ∀ e ∈ es, ∀ known s, hop ord known e.2 = some s → Term.equal s e.2 = true) :
    isPidHandle props = false := by
  refine eq_false_of_ne_true fun htag => ?_
  unfold isPidHandle at htag
  split at htag
  · rename_i s hl
    obtain ⟨e, he, hkey, -, known', hv⟩ :=
      exists_of_forall₂ hall.flip (hperm.mem_iff.mp (Assoc.mem_of_lookup hl))
    have hhop : hop ord known' e.2 = some (.binary (toCStringLen s)) := by
      rw [hop, ← hv]
      rfl
    have hvalue := eq_binary_of_equal (hes e he known' _ hhop)
    have htype : Term.binary (bytes "__beamjs_type") = e.1 := hkey.symm
    have hlook : es.lookup (.binary (bytes "__beamjs_type")) = some (.binary (toCStringLen s)) := by
      rw [← hvalue, htype]
      exact Assoc.lookup_of_mem hnd he
    rw [isPidMap, hlook] at hpid
    exact absurd (beq_iff_eq.mpr (of_decide_eq_true htag)) (Bool.eq_false_iff.mp hpid)
  · cases htag

/-- A settled term comes out as it went in, and is settled again. -/
theorem settled_hop {t s : Term} (h : settled t = true) (known : Atoms)
    (hs : hop ord known t = some s) : Term.equal s t = true ∧ settled s = true := by
  induction t using Term.induction_on generalizing known s with
  | list elems ih =>
    obtain ⟨hio, helems⟩ := Bool.and_eq_true_iff.mp h
    rw [Option.isNone_iff_eq_none] at hio
    rw [allSettled_iff] at helems
    obtain ⟨ss, rfl, hall⟩ := hop_list hio hs
    have hboth := (List.forall₂_and_left elems ss).mpr ⟨fun t ht => ht, hall⟩
    have hequal : List.Forall₂ (fun t s => Term.equal s t = true ∧ settled s = true) elems ss :=
      hboth.imp fun t s h => by
        obtain ⟨ht, known', hhop⟩ := h
        exact ih t ht (helems t ht) known' hhop
    have heq := hequal.imp fun _ _ h => h.1
    refine ⟨equalElems_of_forall₂ heq, ?_⟩
    rw [settled, iolistBytes_of_equal heq, hio, Option.isNone_none, Bool.true_and, allSettled_iff]
    intro s hs
    obtain ⟨t, -, -, hset⟩ := exists_of_forall₂ hequal.flip hs
    exact hset
  | map es ih =>
    obtain ⟨hnd, hpid, hes⟩ := settled_map.mp h
    obtain ⟨props, ps, hobj, hperm, hall⟩ :=
      entries_become (fun e he => (hes e he).1) hnd known [] fun _ _ _ _ => List.not_mem_nil
    rw [← emptyObject, ← erlTermToJs] at hobj
    have hvalues : ∀ e ∈ es, ∀ known s, hop ord known e.2 = some s →
        Term.equal s e.2 = true ∧ settled s = true :=
      fun e he known' s hhop => (ih e he).2 (hes e he).2 known' hhop
    have htag := not_isPidHandle hpid hnd hperm hall fun e he known' s hhop =>
      (hvalues e he known' s hhop).1
    obtain ⟨es', ss, hs', hperm', hhops⟩ :=
      hop_map ord (settled_asciiKeys h) hnd hobj hperm hall htag
    rw [hs] at hs'
    obtain rfl := Option.some.inj hs'
    have hboth := (List.forall₂_and_left es ss).mpr ⟨fun e he => he, hhops⟩
    refine settled_entries h hperm' (hboth.imp fun e e' hee => ?_)
    obtain ⟨he, hkey, known', hhop⟩ := hee
    exact ⟨hkey, hvalues e he known' _ hhop⟩
  | _ =>
    obtain ⟨hhop, hrefl⟩ := hop_leaf ord known h (by simp) (by simp)
    rw [hs] at hhop
    obtain rfl := Option.some.inj hhop
    exact ⟨hrefl, h⟩

/-! ## From context to context -/

/-- What a term with names in ASCII becomes does not depend on the names that are known. -/
theorem toJs_ascii {t : Term} (h : asciiKeys t = true) (known known' : Atoms) :
    (erlTermToJs known t).1 = (erlTermToJs known' t).1 := by
  have helems : ∀ {ts : List Term}, (∀ t ∈ ts, ∀ known known',
      (erlTermToJs known t).1 = (erlTermToJs known' t).1) → ∀ known known',
      (erlTermsToJs known ts).1 = (erlTermsToJs known' ts).1 := by
    intro ts hts
    induction ts with
    | nil => exact fun _ _ => rfl
    | cons t ts ih =>
      obtain ⟨ht, hts⟩ := List.forall_mem_cons.mp hts
      intro known known'
      simp only [erlTermsToJs]
      rw [ht known known', ih hts _ (erlTermToJs known' t).2]
  induction t using Term.induction_on generalizing known known' with
  | tuple elems ih =>
    simp only [erlTermToJs]
    rw [helems (fun t ht => ih t ht (allAsciiKeys_iff.mp h t ht)) known known']
  | list elems ih =>
    simp only [erlTermToJs]
    split
    · rfl
    · dsimp only
      rw [helems (fun t ht => ih t ht (allAsciiKeys_iff.mp h t ht)) known known']
  | map es ih =>
    rw [asciiKeys, entriesAsciiKeys_iff] at h
    simp only [erlTermToJs]
    generalize emptyObject = obj
    induction es generalizing known known' obj with
    | nil => rfl
    | cons e es ihes =>
      obtain ⟨k, t⟩ := e
      obtain ⟨⟨hk, ht⟩, hes⟩ := List.forall_mem_cons.mp h
      obtain ⟨⟨-, iht⟩, ih⟩ := List.forall_mem_cons.mp ih
      rw [erlEntriesToJs, erlEntriesToJs]
      cases hbuf : erlKeyToBuf k with
      | none => exact ihes ih hes known known' obj
      | some buf =>
        have hbytes : isAscii buf = true := by
          simpa only [asciiKey, hbuf, Option.elim_some] using hk
        dsimp only
        rw [newAtomLen_ascii _ hbytes, newAtomLen_ascii _ hbytes, iht ht known known']
        exact ihes ih hes _ _ _
  | _ => rfl

/-- The terms that hops lead through. -/
abbrev AsciiTerm := {t : Term // asciiKeys t = true}

/-- The term that a hop results in. -/
def hopTerm (ord : MapOrder) (known : Atoms) (t : AsciiTerm) : AsciiTerm where
  val := (hop ord known t.1).getD t.1
  property := by
    obtain ⟨s, hs, hascii, -⟩ := hop_within ord t.2 known
    rwa [hs]

/-- A hop always has a result. -/
theorem hop_eq (ord : MapOrder) (known : Atoms) (t : AsciiTerm) :
    hop ord known t.1 = some (hopTerm ord known t).1 := by
  obtain ⟨s, hs, -⟩ := hop_within ord t.2 known
  change hop ord known t.1 = some ((hop ord known t.1).getD t.1)
  rw [hs, Option.getD_some]

theorem hops_eq (ord : MapOrder) (contexts : List Atoms) (t : AsciiTerm) :
    hops ord contexts t.1 = some (contexts.foldl (fun t known => hopTerm ord known t) t).1 := by
  induction contexts generalizing t with
  | nil => rfl
  | cons known contexts ih =>
    rw [hops, List.foldlM_cons, hop_eq]
    exact ih _

/-- Only the number of contexts matters. -/
theorem hops_ascii (ord : MapOrder) {contexts others : List Atoms}
    (hlen : others.length = contexts.length) (t : AsciiTerm) :
    hops ord others t.1 = hops ord contexts t.1 := by
  induction contexts generalizing others t with
  | nil => rw [List.length_eq_zero_iff.mp hlen]
  | cons known contexts ih =>
    cases others with
    | nil => cases hlen
    | cons known' others =>
      have hfirst : hop ord known' t.1 = hop ord known t.1 := by
        rw [hop, hop, toJs_ascii t.2 known' known]
      rw [hops, hops, List.foldlM_cons, List.foldlM_cons, hfirst, hop_eq]
      exact ih (Nat.succ.inj hlen) _

/-- A term whose names are ASCII can be handed on from context to context for ever, and which names
the contexts know plays no part. After as many contexts as it has bulk it is settled, and comes out
of any further one as it went in. -/
theorem hops_settle (ord : MapOrder) {t : Term} (h : asciiKeys t = true) {n : ℕ}
    (hn : bulk t ≤ n) :
    ∃ s, (∀ contexts : List Atoms, contexts.length = n → hops ord contexts t = some s) ∧
      settled s = true ∧
      ∀ known, ∃ s', hop ord known s = some s' ∧ Term.equal s' s = true := by
  let t₀ : AsciiTerm := ⟨t, h⟩
  have hlen : (List.replicate n ([] : Atoms)).length = n := List.length_replicate
  have hsettled := settles (f := hopTerm ord) (P := fun x : AsciiTerm => settled x.1 = true)
    (μ := fun x : AsciiTerm => bulk x.1) (fun known x hx => (settled_hop hx known (hop_eq ..)).2)
    (fun known x => or_iff_not_imp_left.mpr (bulk_hop_lt x.2 known (hop_eq ..)))
    (List.replicate n []) (x := t₀) (by rwa [hlen])
  refine ⟨_, fun contexts hcontexts => ?_, hsettled, fun known => ?_⟩
  · rw [hops_ascii ord (hcontexts.trans hlen.symm) t₀]
    exact hops_eq ord _ t₀
  · exact ⟨_, hop_eq ord known _, (settled_hop hsettled known (hop_eq ..)).1⟩

/-- A tuple of characters, a large number and an atom under a name that is cut. -/
def unsettledTerm : Term :=
  .map [(.binary (bytes "a" ++ [0, 98]), .tuple [.int 104, .int 105]), (.atom "n", .int (2 ^ 63)),
    (.binary (bytes "__proto__"), .list [.atom "ok", .atom "undefined"])]

theorem hops_settle_unsettledTerm : ∃ s, (∀ contexts : List Atoms, contexts.length = 19 →
      hops .insertion contexts unsettledTerm = some s) ∧ settled s = true ∧
    ∀ known, ∃ s', hop .insertion known s = some s' ∧ Term.equal s' s = true :=
  hops_settle .insertion (by decide) (by decide)

end BeamJS
