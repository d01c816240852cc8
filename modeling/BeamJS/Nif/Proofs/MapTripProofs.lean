import BeamJS.Nif.MapTrip
import BeamJS.Nif.Proofs.TransportProofs

/-!
# Proofs: which maps come back

The trip of a map through a context, entry by entry, over the rule for what is read of the entries.
A map that is taken for a pid handle is replaced by a part of itself, so that it never comes back.
-/

namespace BeamJS

open Lib JsValue Utf8

variable {ord : MapOrder}

/-! ## Texts -/

theorem textLoop_char {c : ℕ} (hc : c < 0x110000) (fuel : ℕ) (high : Bool) (p : Bytes) :
    textLoop (fuel + 1) high (unicodeToUtf8 c ++ p) =
      (!(high && (decide (0xdc00 ≤ c) && decide (c < 0xe000))) &&
        textLoop fuel (decide (0xd800 ≤ c) && decide (c < 0xdc00)) p) := by
  obtain ⟨b, q, hbq⟩ := List.exists_cons_of_ne_nil (unicodeToUtf8_ne_nil hc)
  have happ := unicodeFromUtf8_append hc p
  have hle : c ≤ 0x10ffff := by omega
  rw [hbq, List.cons_append] at happ ⊢
  simp only [textLoop, happ, hle, decide_true, Bool.true_and]

theorem textLoop_unit (c : UInt16) (fuel : ℕ) (high : Bool) (p : Bytes) :
    textLoop (fuel + 1) high (unicodeToUtf8 c.toNat ++ p) =
      (!(high && isLow c) && textLoop fuel (isHigh c) p) :=
  textLoop_char (c.toNat_lt.trans (by decide)) fuel high p

/-- A pair is neither a high surrogate nor a low one. -/
theorem textLoop_pair {c c1 : UInt16} (h : isHigh c = true) (h1 : isLow c1 = true) (fuel : ℕ)
    (high : Bool) (p : Bytes) :
    textLoop (fuel + 1) high (unicodeToUtf8 (pairCode c c1) ++ p) = textLoop fuel false p := by
  obtain ⟨hp, hp', -⟩ := pairCode_halves h h1
  have hhigh : (decide (0xd800 ≤ pairCode c c1) && decide (pairCode c c1 < 0xdc00)) = false := by
    simp only [Bool.and_eq_false_iff, decide_eq_false_iff_not]
    omega
  have hlow : (decide (0xdc00 ≤ pairCode c c1) && decide (pairCode c c1 < 0xe000)) = false := by
    simp only [Bool.and_eq_false_iff, decide_eq_false_iff_not]
    omega
  rw [textLoop_char hp, hhigh, hlow, Bool.and_false]
  rfl

/-- The string does not complete a pair that a high surrogate before it begins. -/
def NoPair (high : Bool) (s : JsString) : Prop := high = true → ∀ c ∈ s.head?, isLow c = false

theorem NoPair.first {high : Bool} {c : UInt16} {s : JsString} (h : NoPair high (c :: s)) :
    (high && isLow c) = false := by
  cases high with
  | false => rfl
  | true => exact h rfl c rfl

theorem noPair_false (s : JsString) : NoPair false s := fun h => by cases h

theorem NoPair.cons {high : Bool} {c : UInt16} (h : (high && isLow c) = false) (s : JsString) :
    NoPair high (c :: s) := by
  rintro rfl x hx
  obtain rfl : c = x := by simpa using hx
  exact h

/-- The two halves of a code point beyond the basic plane are a pair for it. -/
theorem halves_of_code {c : ℕ} (hc : ¬ c < 0x10000) (hc' : c < 0x110000) :
    ∃ hi lo : UInt16, isHigh hi = true ∧ isLow hi = false ∧ isLow lo = true ∧ pairCode hi lo = c := by
  have hm : ∀ x : ℕ, x &&& 0x3ff = x % 1024 := fun x => Nat.and_two_pow_sub_one_eq_mod x 10
  have hhi : (UInt16.ofNat ((c - 0x10000) / 1024 + 0xd800)).toNat =
      (c - 0x10000) / 1024 + 0xd800 := by
    rw [UInt16.toNat_ofNat']
    omega
  have hlo : (UInt16.ofNat ((c - 0x10000) % 1024 + 0xdc00)).toNat =
      (c - 0x10000) % 1024 + 0xdc00 := by
    rw [UInt16.toNat_ofNat']
    omega
  refine ⟨UInt16.ofNat ((c - 0x10000) / 1024 + 0xd800), UInt16.ofNat ((c - 0x10000) % 1024 + 0xdc00),
    ?_, ?_, ?_, ?_⟩
  · simp only [isHigh, hhi, Bool.and_eq_true, decide_eq_true_eq]
    omega
  · simp only [isLow, hhi, Bool.and_eq_false_iff, decide_eq_false_iff_not]
    omega
  · simp only [isLow, hlo, Bool.and_eq_true, decide_eq_true_eq]
    omega
  · have hlt : ((c - 0x10000) % 1024 + 0xdc00) % 1024 < 2 ^ 10 := Nat.mod_lt _ (by decide)
    rw [pairCode, hhi, hlo, hm, hm, ← Nat.shiftLeft_add_eq_or_of_lt hlt, Nat.shiftLeft_eq]
    omega

/-- The loop accepts the bytes of a string. -/
theorem textLoop_toCStringLen (s : JsString) (fuel : ℕ) (hf : (toCStringLen s).length ≤ fuel)
    (high : Bool) (hhead : NoPair high s) : textLoop fuel high (toCStringLen s) = true := by
  have hpos : ∀ c < 0x110000, 0 < (unicodeToUtf8 c).length := fun c hc =>
    List.length_pos_iff.mpr (unicodeToUtf8_ne_nil hc)
  have hunit : ∀ c : UInt16, 0 < (unicodeToUtf8 c.toNat).length := fun c =>
    hpos _ (c.toNat_lt.trans (by decide))
  fun_induction toCStringLen s generalizing fuel high with
  | case1 => cases fuel <;> rfl
  | case2 c =>
    have hl := hunit c
    obtain ⟨n, rfl⟩ : ∃ n, fuel = n + 1 := ⟨fuel - 1, by omega⟩
    have hstep := textLoop_unit c n high []
    have hend : ∀ b, textLoop n b [] = true := fun b => by cases n <;> rfl
    rw [List.append_nil] at hstep
    rw [hstep, hend, hhead.first]
    rfl
  | case3 c c1 s h ih =>
    obtain ⟨h1, h2⟩ := Bool.and_eq_true_iff.mp h
    have hl := hpos _ (pairCode_halves h1 h2).1
    rw [List.length_append] at hf
    obtain ⟨n, rfl⟩ : ∃ n, fuel = n + 1 := ⟨fuel - 1, by omega⟩
    rw [textLoop_pair h1 h2]
    exact ih n (by omega) false (noPair_false s)
  | case4 c c1 s h ih =>
    have hl := hunit c
    rw [List.length_append] at hf
    obtain ⟨n, rfl⟩ : ∃ n, fuel = n + 1 := ⟨fuel - 1, by omega⟩
    rw [textLoop_unit, hhead.first]
    exact ih n (by omega) (isHigh c) (.cons (eq_false_of_ne_true h) s)

/-- What the loop accepts are the bytes of a string. -/
theorem exists_of_textLoop {fuel : ℕ} {high : Bool} {b : Bytes} (h : textLoop fuel high b = true) :
    ∃ s, toCStringLen s = b ∧ NoPair high s := by
  induction fuel generalizing high b with
  | zero =>
    cases b with
    | nil => exact ⟨[], rfl, by simp [NoPair]⟩
    | cons => cases h
  | succ fuel ih =>
    cases b with
    | nil => exact ⟨[], rfl, by simp [NoPair]⟩
    | cons b p =>
      rw [textLoop] at h
      cases hr : unicodeFromUtf8 (b :: p) with
      | none =>
        rw [hr] at h
        cases h
      | some r =>
        obtain ⟨c, rest⟩ := r
        simp only [hr, Bool.and_eq_true, decide_eq_true_eq] at h
        obtain ⟨⟨hc, hpair⟩, hrest⟩ := h
        obtain ⟨s, rfl, hs⟩ := ih hrest
        rw [eq_append_of_unicodeFromUtf8 hr (by omega)]
        by_cases hunit : c < 0x10000
        · -- one unit, which begins no pair with the next
          obtain ⟨u, rfl⟩ : ∃ u : UInt16, u.toNat = c :=
            ⟨UInt16.ofNat c, by rw [UInt16.toNat_ofNat']; omega⟩
          refine ⟨u :: s, ?_, ?_⟩
          · cases s with
            | nil => simp [toCStringLen]
            | cons c1 s =>
              have hno : (isHigh u && isLow c1) = false := hs.first
              rw [toCStringLen, hno]
              rfl
          · refine .cons ?_ s
            rwa [Bool.not_eq_true'] at hpair
        · obtain ⟨hi, lo, hhi, hhi', hlo, rfl⟩ := halves_of_code hunit (by omega)
          refine ⟨hi :: lo :: s, ?_, .cons ?_ _⟩
          · rw [toCStringLen, hhi, hlo]
            rfl
          · rw [hhi', Bool.and_false]

/-- A binary is a text exactly if it is read back from the string that it is read as. -/
theorem isText_iff {b : Bytes} : isText b = true ↔ toCStringLen (newStringLen b) = b := by
  constructor
  · intro h
    obtain ⟨s, rfl, -⟩ := exists_of_textLoop h
    rw [newStringLen_toCStringLen]
  · intro h
    rw [← h]
    exact textLoop_toCStringLen _ _ (Nat.le_refl _) false (noPair_false _)

theorem textLoop_of_utf8Loop {fuel : ℕ} {b : Bytes} (h : utf8Loop fuel b = true) (high : Bool) :
    textLoop fuel high b = true := by
  induction fuel generalizing b high with
  | zero =>
    cases b with
    | nil => rfl
    | cons => cases h
  | succ fuel ih =>
    cases b with
    | nil => rfl
    | cons b p =>
      rw [utf8Loop] at h
      rw [textLoop]
      cases hr : unicodeFromUtf8 (b :: p) with
      | none =>
        rw [hr] at h
        cases h
      | some r =>
        obtain ⟨c, rest⟩ := r
        simp only [hr, Bool.and_eq_true, Bool.or_eq_true, decide_eq_true_eq] at h
        obtain ⟨hc, hrest⟩ := h
        have hlow : (decide (0xdc00 ≤ c) && decide (c < 0xe000)) = false := by
          simp only [Bool.and_eq_false_iff, decide_eq_false_iff_not]
          omega
        have hle : c ≤ 0x10ffff := by omega
        simp only [hlow, hle, decide_true, Bool.and_false, Bool.not_false, Bool.true_and, ih hrest]

/-- A key in UTF-8 is the key for a name. -/
theorem exists_name {b : Bytes} (h : isUtf8 b = true) : ∃ k, toCStringLen k = b := by
  obtain ⟨s, hs, -⟩ := exists_of_textLoop (textLoop_of_utf8Loop h false)
  exact ⟨s, hs⟩

/-! ## Depth -/

/-- Maps nest in the term no deeper than `n`, and the keys of a map are distinct. -/
def TermShallow : ℕ → Term → Prop
  | n + 1, .map es => (Assoc.keys es).Nodup ∧ ∀ e ∈ es, TermShallow n e.2
  | 0, .map _ => False
  | _, _ => True

/-- Objects, all of them plain ones, nest in the value no deeper than `n`, along prototypes too. -/
def ValueShallow : ℕ → JsValue → Prop
  | n + 1, .object proto props => (∀ p ∈ proto, ValueShallow n p) ∧ ∀ e ∈ props, ValueShallow n e.2
  | 0, .object _ _ => False
  | _, .func _ => False
  | _, .error _ _ => False
  | _, .promise => False
  | _, _ => True

theorem TermShallow.mono {n : ℕ} {t : Term} (h : TermShallow n t) : TermShallow (n + 1) t := by
  induction n generalizing t with
  | zero =>
    cases t with
    | map => exact h.elim
    | _ => trivial
  | succ n ih =>
    cases t with
    | map es => exact ⟨h.1, fun e he => ih (h.2 e he)⟩
    | _ => trivial

theorem TermShallow.mono_le {m n : ℕ} (hmn : m ≤ n) {t : Term} (h : TermShallow m t) :
    TermShallow n t := by
  induction hmn with
  | refl => exact h
  | step _ ih => exact ih.mono

theorem allMapData_iff {es : List (Term × Term)} :
    allMapData es = true ↔
      ∀ e ∈ es, ∃ b, e.1 = .binary b ∧ isUtf8 b = true ∧ isMapData e.2 = true := by
  induction es with
  | nil => simp [allMapData]
  | cons e es ih =>
    obtain ⟨k, t⟩ := e
    cases k <;> simp [allMapData, ih, and_assoc]

theorem isMapData_map {es : List (Term × Term)} :
    isMapData (.map es) = true ↔ (Assoc.keys es).Nodup ∧
      ∀ e ∈ es, ∃ b, e.1 = .binary b ∧ isUtf8 b = true ∧ isMapData e.2 = true := by
  rw [isMapData, Bool.and_eq_true, decide_eq_true_eq, allMapData_iff]

/-- The data has a depth. -/
theorem exists_termShallow {t : Term} (ht : isMapData t = true) : ∃ n, TermShallow n t := by
  induction t using Term.induction_on with
  | map es ih =>
    obtain ⟨hnd, hall⟩ := isMapData_map.mp ht
    suffices h : ∃ n, ∀ e ∈ es, TermShallow n e.2 by
      obtain ⟨n, hn⟩ := h
      exact ⟨n + 1, hnd, hn⟩
    clear ht hnd
    induction es with
    | nil => exact ⟨0, by simp⟩
    | cons e es ihes =>
      obtain ⟨⟨-, he⟩, hes⟩ := List.forall_mem_cons.mp ih
      obtain ⟨⟨b, -, -, hdata⟩, hrest⟩ := List.forall_mem_cons.mp hall
      obtain ⟨m, hm⟩ := he hdata
      obtain ⟨n, hn⟩ := ihes hes hrest
      refine ⟨max m n, List.forall_mem_cons.mpr ⟨hm.mono_le (le_max_left m n), fun e' he' => ?_⟩⟩
      exact (hn e' he').mono_le (le_max_right m n)
  | _ => exact ⟨0, trivial⟩

theorem ValueShallow.setProp {n : ℕ} {obj v : JsValue} (hobj : ValueShallow (n + 1) obj)
    (hv : ValueShallow n v) (k : JsString) : ValueShallow (n + 1) (obj.setProp k v) := by
  cases obj with
  | object proto props =>
    obtain ⟨hproto, hprops⟩ := hobj
    simp only [JsValue.setProp]
    split
    · refine ⟨hproto, fun e he => ?_⟩
      rcases Assoc.mem_replace he with he | rfl
      · exact hprops e he
      · exact hv
    · split
      · unfold setProto
        split
        · refine ⟨fun p hp => ?_, hprops⟩
          obtain rfl : JsValue.null = p := Option.some.inj hp
          trivial
        · split
          · refine ⟨fun p hp => ?_, hprops⟩
            obtain rfl : v = p := Option.some.inj hp
            exact hv
          · exact ⟨hproto, hprops⟩
      · refine ⟨hproto, fun e he => ?_⟩
        rcases List.mem_cons.mp ((insertProp_perm k v props).mem_iff.mp he) with rfl | he
        · exact hv
        · exact hprops e he
  | _ => exact hobj

theorem ValueShallow.setProps {n : ℕ} {obj : JsValue} {ps : List (JsString × JsValue)}
    (hobj : ValueShallow (n + 1) obj) (hps : ∀ p ∈ ps, ValueShallow n p.2) :
    ValueShallow (n + 1) (setProps obj ps) := by
  induction ps generalizing obj with
  | nil => exact hobj
  | cons p ps ih =>
    obtain ⟨hp, hps⟩ := List.forall_mem_cons.mp hps
    exact ih (hobj.setProp hp p.1) hps

/-! ## Data and its names -/

/-- The entries of a map with their keys as names. -/
abbrev NamedEntries := List (JsString × Term)

/-- The entries that stand for such a list. -/
def NamedEntries.entries (qs : NamedEntries) : List (Term × Term) :=
  qs.map fun e => (.binary (toCStringLen e.1), e.2)

/-- A map of the data lists its values under the keys for distinct names. -/
theorem exists_namedEntries {es : List (Term × Term)} (h : isMapData (.map es) = true) :
    ∃ qs : NamedEntries, es = qs.entries ∧ (Assoc.keys qs).Nodup ∧
      ∀ e ∈ qs, isMapData e.2 = true := by
  obtain ⟨hnd, hall⟩ := isMapData_map.mp h
  have hqs : ∃ qs : NamedEntries, es = qs.entries ∧ ∀ e ∈ qs, isMapData e.2 = true := by
    clear h hnd
    induction es with
    | nil => exact ⟨[], rfl, by simp⟩
    | cons e es ih =>
      obtain ⟨⟨b, hb, hutf, hdata⟩, hes⟩ := List.forall_mem_cons.mp hall
      obtain ⟨qs, rfl, hqs⟩ := ih hes
      obtain ⟨k, rfl⟩ := exists_name hutf
      obtain ⟨k', t⟩ := e
      obtain rfl : k' = _ := hb
      exact ⟨(k, t) :: qs, rfl, List.forall_mem_cons.mpr ⟨hdata, hqs⟩⟩
  obtain ⟨qs, rfl, hdata⟩ := hqs
  refine ⟨qs, rfl, ?_, hdata⟩
  have hkeys : Assoc.keys qs.entries = (Assoc.keys qs).map fun k => .binary (toCStringLen k) := by
    simp [NamedEntries.entries, Function.comp_def]
  rw [hkeys] at hnd
  exact hnd.of_map _

theorem termNames_entries (qs : NamedEntries) :
    termNames (.map qs.entries) = qs.flatMap fun e => termNames e.2 ++ [e.1] := by
  rw [termNames]
  induction qs with
  | nil => rfl
  | cons e qs ih =>
    rw [NamedEntries.entries, List.map_cons, entryNames, newStringLen_toCStringLen,
      ← NamedEntries.entries, ih]
    simp

theorem keepsValues_map {es : List (Term × Term)} :
    keepsValues (.map es) = true ↔ isPidMap es = false ∧ ∀ e ∈ es, keepsValues e.2 = true := by
  have hall : allKeepValues es = true ↔ ∀ e ∈ es, keepsValues e.2 = true := by
    induction es with
    | nil => simp [allKeepValues]
    | cons e es ih => simp [allKeepValues, ih]
  simp [keepsValues, hall]

/-- A map is read entry by entry. -/
theorem erlTermToJs_entries (known : Atoms) (qs : NamedEntries) :
    erlTermToJs known (.map qs.entries) =
      (setProps emptyObject (readEntries known (qs.map fun e => (toCStringLen e.1, e.2))).1,
        (readEntries known (qs.map fun e => (toCStringLen e.1, e.2))).2) := by
  have h := erlEntriesToJs_eq known emptyObject (qs.map fun e => (toCStringLen e.1, e.2))
  rw [List.map_map] at h
  rw [erlTermToJs]
  exact h

/-- The properties set are the values of the entries as they are read one after another. -/
theorem forall₂_readEntries (known : Atoms) (qs : NamedEntries) :
    List.Forall₂ (fun p q => ∃ known', p.2 = (erlTermToJs known' q.2).1)
      (readEntries known (qs.map fun e => (toCStringLen e.1, e.2))).1 qs := by
  induction qs generalizing known with
  | nil => exact .nil
  | cons e qs ih => exact .cons ⟨known, rfl⟩ (ih _)

/-- A leaf becomes a value that is no object. What it comes back as is equal to it exactly if it is
kept. -/
theorem leaf_returns (ord : MapOrder) {t : Term} (ht : isMapData t = true)
    (hmap : ∀ es, t ≠ .map es) :
    ∃ v, (∀ known, erlTermToJs known t = (v, known)) ∧ ValueShallow 0 v ∧
      ∃ r, jsValueToErl ord v = some r ∧ (Term.equal r t = true ↔ keepsValues t = true) := by
  cases t with
  | int n =>
    refine ⟨.number (.int (Int32.ofInt n)),
      fun known => by rw [erlTermToJs, erlIntToJs_of_inInt32 ht], trivial, _, rfl, ?_⟩
    have hn : (Int32.ofInt n).toInt = n := by
      have hrange : inInt32 n = true := ht
      simp only [inInt32, Bool.and_eq_true, decide_eq_true_eq] at hrange
      exact Int32.toInt_ofInt_of_le (by omega) (by omega)
    simp [Term.equal, keepsValues, hn]
  | atom name =>
    have hname : (name = "true" ∨ name = "false") ∨ name = "nil" := by simpa [isMapData] using ht
    obtain (rfl | rfl) | rfl := hname
    · exact ⟨.bool true, fun _ => rfl, trivial, _, rfl, by simp [Term.ofBool, Term.equal, keepsValues]⟩
    · exact ⟨.bool false, fun _ => rfl, trivial, _, rfl, by simp [Term.ofBool, Term.equal, keepsValues]⟩
    · exact ⟨.null, fun _ => rfl, trivial, _, rfl, by simp [Term.null, Term.equal, keepsValues]⟩
  | binary b =>
    refine ⟨.string (newStringLen b), fun known => rfl, trivial, _, rfl, ?_⟩
    rw [Term.equal, beq_iff_eq, keepsValues, isText_iff]
  | map es => exact absurd rfl (hmap es)
  | _ => cases ht

/-- Objects nest in what a term is converted to no deeper than maps nest in it. -/
theorem TermShallow.toJs {n : ℕ} {t : Term} (ht : isMapData t = true) (h : TermShallow n t)
    (known : Atoms) : ValueShallow n (erlTermToJs known t).1 := by
  induction n generalizing t known with
  | zero =>
    by_cases hmap : ∃ es, t = .map es
    · obtain ⟨es, rfl⟩ := hmap
      exact h.elim
    · obtain ⟨v, hv, hleaf, -⟩ := leaf_returns .insertion ht fun es he => hmap ⟨es, he⟩
      rw [hv]
      exact hleaf
  | succ n ih =>
    by_cases hmap : ∃ es, t = .map es
    · obtain ⟨es, rfl⟩ := hmap
      obtain ⟨qs, rfl, -, hdata⟩ := exists_namedEntries ht
      rw [erlTermToJs_entries]
      refine ValueShallow.setProps ⟨by simp, by simp⟩ fun p hp => ?_
      obtain ⟨q, hq, known', hpq⟩ := exists_of_forall₂ (forall₂_readEntries known qs) hp
      rw [hpq]
      exact ih (hdata q hq) (h.2 _ (List.mem_map_of_mem hq)) known'
    · obtain ⟨v, hv, hleaf, -⟩ := leaf_returns .insertion ht fun es he => hmap ⟨es, he⟩
      rw [hv]
      cases v with
      | object => exact hleaf.elim
      | _ => trivial

/-! ## A map that is taken for a pid handle -/

theorem nodup_keys_toMap (ord : MapOrder) {es : List (Bytes × Term)} (h : (Assoc.keys es).Nodup) :
    (Assoc.keys ((ord.arrange es).map fun e => (Term.binary e.1, e.2))).Nodup := by
  have hnd : (Assoc.keys (ord.arrange es)).Nodup := ((ord.perm es).map Prod.fst).nodup_iff.mpr h
  have hkeys : Assoc.keys ((ord.arrange es).map fun e => (Term.binary e.1, e.2)) =
      (Assoc.keys (ord.arrange es)).map Term.binary := by
    simp [Function.comp_def]
  rw [hkeys]
  exact hnd.map fun _ _ => Term.binary.inj

theorem jsValueToErl_pidTag {proto : Option JsValue} {props : List (JsString × JsValue)}
    (h : isPidTag (getProp noBuiltins (js "__beamjs_type") (.object proto props)) = true) :
    jsValueToErl ord (.object proto props) = jsDataToErl ord (.object proto props) := by
  rw [jsValueToErl, if_pos h, jsDataToErl]

theorem jsValueToErl_noTag {proto : Option JsValue} {props : List (JsString × JsValue)}
    (h : isPidTag (getProp noBuiltins (js "__beamjs_type") (.object proto props)) = false) :
    jsValueToErl ord (.object proto props) = jsPropsToMap ord (jsPropsToErl ord props) := by
  rw [jsValueToErl, h]
  rfl

/-- The term of an object that is no pid handle. -/
theorem jsPropsToMap_spec {props : List (JsString × JsValue)} {t : Term}
    (h : jsPropsToMap ord (jsPropsToErl ord props) = some t) :
    t = ord.toMap (mapEntries ord props) ∧
      ∀ e ∈ props, jsValueToErl ord e.2 = some (termOf ord e.2) := by
  have hall := jsPropsToMap_eq_some h
  rw [jsPropsToMap_eq hall] at h
  exact ⟨(Option.some.inj h).symm, hall⟩

theorem termShallow_of_ne_map {n : ℕ} {t : Term} (h : ∀ es, t ≠ .map es) : TermShallow n t := by
  cases t with
  | map es => exact absurd rfl (h es)
  | _ => cases n <;> trivial

/-- Only objects become maps. -/
theorem ne_map_of_leaf {v : JsValue} {t : Term} (h : ValueShallow 0 v)
    (ht : jsValueToErl ord v = some t) (es : List (Term × Term)) : t ≠ .map es := by
  rintro rfl
  cases v with
  | object | func | error | promise => exact h.elim
  | number n =>
    rw [jsValueToErl, jsNumberToErl.eq_def] at ht
    split at ht
    · cases ht
    · split at ht <;> cases ht
    all_goals cases ht
  | array vs =>
    obtain ⟨ts, -, hts⟩ := Option.map_eq_some_iff.mp (by rwa [jsValueToErl] at ht)
    cases hts
  | bool b => cases b <;> cases ht
  | _ => cases ht

/-- Maps nest in what a value is converted to no deeper than objects nest in it, and less deep in
what the `__beamjs_data` of an object is converted to. -/
theorem ValueShallow.toErl {n : ℕ} {v : JsValue} (h : ValueShallow n v) {t : Term} :
    (jsValueToErl ord v = some t → TermShallow n t) ∧
      (jsDataToErl ord v = some t → TermShallow (n - 1) t) := by
  induction n generalizing v t with
  | zero =>
    refine ⟨fun ht => termShallow_of_ne_map (ne_map_of_leaf h ht), fun ht => ?_⟩
    cases v with
    | object => exact h.elim
    | _ => cases ht; trivial
  | succ n ih =>
    cases v with
    | object proto props =>
      obtain ⟨hproto, hprops⟩ := h
      -- the data of the object itself, or the data it inherits
      have hdata : jsDataToErl ord (.object proto props) = some t → TermShallow n t := by
        intro ht
        rw [jsDataToErl, jsPropsToErl_eq, Assoc.lookup_map_snd (jsValueToErl ord)] at ht
        cases hl : props.lookup (js "__beamjs_data") with
        | some d =>
          rw [hl] at ht
          exact (ih (hprops _ (Assoc.mem_of_lookup hl))).1 ht
        | none =>
          rw [hl] at ht
          cases proto with
          | none =>
            cases ht
            exact termShallow_of_ne_map fun es he => by cases he
          | some p => exact ((ih (hproto p rfl)).2 ht).mono_le (Nat.sub_le n 1)
      refine ⟨fun ht => ?_, hdata⟩
      cases htag : isPidTag (getProp noBuiltins (js "__beamjs_type") (.object proto props)) with
      | true =>
        rw [jsValueToErl_pidTag htag] at ht
        exact (hdata ht).mono
      | false =>
        rw [jsValueToErl_noTag htag] at ht
        obtain ⟨rfl, hall⟩ := jsPropsToMap_spec ht
        refine ⟨nodup_keys_toMap ord (nodup_keys_mapEntries ord props), fun e he => ?_⟩
        obtain ⟨x, hx, rfl⟩ := List.mem_map.mp he
        rcases Assoc.mem_putAll ((ord.perm _).mem_iff.mp hx) with hx | hx
        · simp at hx
        · obtain ⟨p, hp, rfl⟩ := List.mem_map.mp hx
          exact (ih (hprops p hp)).1 (hall p hp)
    | func | error | promise => exact h.elim
    | _ =>
      refine ⟨fun ht => termShallow_of_ne_map (ne_map_of_leaf (by trivial) ht), fun ht => ?_⟩
      cases ht
      exact termShallow_of_ne_map fun es he => by cases he

/-- An entry of a map that is equal to another one, found in that one. -/
theorem exists_entry_of_equal {es fs : List (Term × Term)} (hes : (Assoc.keys es).Nodup)
    (hfs : (Assoc.keys fs).Nodup) (h : Term.equal (.map es) (.map fs) = true) {f : Term × Term}
    (hf : f ∈ fs) : ∃ a, (f.1, a) ∈ es ∧ Term.equal a f.2 = true := by
  simp only [Term.equal, Bool.and_eq_true, beq_iff_eq, Term.equalEntries_iff] at h
  obtain ⟨hlen, hall⟩ := h
  have hsub : Assoc.keys es ⊆ Assoc.keys fs := by
    intro k hk
    obtain ⟨e, he, rfl⟩ := List.mem_map.mp hk
    obtain ⟨b, hb, -⟩ := hall e he
    exact Assoc.mem_keys_of_mem (Assoc.mem_of_lookup hb)
  have hperm := (List.subperm_of_subset hes hsub).perm_of_length_le (by simpa using hlen.ge)
  obtain ⟨e, he, hname⟩ := List.mem_map.mp (hperm.mem_iff.mpr (Assoc.mem_keys_of_mem hf))
  obtain ⟨b, hb, heq⟩ := hall e he
  rw [hname, Assoc.lookup_of_mem hfs hf, Option.some.injEq] at hb
  exact ⟨e.2, hname ▸ he, hb ▸ heq⟩

/-- What is equal to a term is as deep. -/
theorem TermShallow.of_equal {n : ℕ} {t m : Term} (h : TermShallow n t) (hm : isMapData m = true)
    (heq : Term.equal t m = true) : TermShallow n m := by
  induction n generalizing t m with
  | zero =>
    refine termShallow_of_ne_map fun es he => ?_
    subst he
    cases t with
    | map => exact h.elim
    | _ => cases heq
  | succ n ih =>
    by_cases hmap : ∃ fs, m = .map fs
    · obtain ⟨fs, rfl⟩ := hmap
      cases t with
      | map es =>
        obtain ⟨hnd, hall⟩ := isMapData_map.mp hm
        refine ⟨hnd, fun f hf => ?_⟩
        obtain ⟨a, ha, haf⟩ := exists_entry_of_equal h.1 hnd heq hf
        obtain ⟨_, -, -, hdata⟩ := hall f hf
        exact ih (h.2 _ ha) hdata haf
      | _ => cases heq
    · exact termShallow_of_ne_map fun fs he => hmap ⟨fs, he⟩

/-- An object that is taken for a pid handle is not read back as the map it was made from. -/
theorem noTag_of_equal {es : List (Term × Term)} (hm : isMapData (.map es) = true) {known : Atoms}
    {proto : Option JsValue} {props : List (JsString × JsValue)}
    (hrun : (erlTermToJs known (.map es)).1 = .object proto props) {t : Term}
    (ht : jsValueToErl ord (.object proto props) = some t)
    (heq : Term.equal t (.map es) = true) :
    isPidTag (getProp noBuiltins (js "__beamjs_type") (.object proto props)) = false := by
  refine eq_false_of_ne_true fun htag => ?_
  rw [jsValueToErl_pidTag htag] at ht
  have hdeep : ∀ n, ¬ TermShallow n (.map es) := by
    intro n
    induction n with
    | zero => exact id
    | succ n ih =>
      intro hn
      have hv := hn.toJs hm known
      rw [hrun] at hv
      exact ih ((hv.toErl.2 ht).of_equal hm heq)
  obtain ⟨n, hn⟩ := exists_termShallow hm
  exact hdeep n hn

/-! ## A map entry by entry -/

/-- The value is converted to something equal to the term. -/
def ComesBack (ord : MapOrder) (t : Term) (v : JsValue) : Prop :=
  ∃ r, jsValueToErl ord v = some r ∧ Term.equal r t = true

/-- The property has the name of the entry, and its value comes back as that of the entry. -/
def EntryBack (ord : MapOrder) (p : JsString × JsValue) (q : JsString × Term) : Prop :=
  p.1 = q.1 ∧ ComesBack ord q.2 p.2

/-- The properties that are set for the entries. -/
def readNamed (known : Atoms) (qs : NamedEntries) : List (JsString × JsValue) × Atoms :=
  readEntries known (qs.map fun e => (toCStringLen e.1, e.2))

theorem lookup_entries (qs : NamedEntries) (k : JsString) :
    qs.entries.lookup (.binary (toCStringLen k)) = qs.lookup k := by
  have h := Assoc.lookup_map_key (fun k => Term.binary (toCStringLen k)) (id : Term → Term)
    (l := qs) (k := k) fun _ _ h => toCStringLen_injective (Term.binary.inj h)
  simpa [NamedEntries.entries] using h

theorem lookup_type (qs : NamedEntries) :
    qs.entries.lookup (.binary (bytes "__beamjs_type")) = qs.lookup (js "__beamjs_type") :=
  lookup_entries qs (js "__beamjs_type")

theorem isPidMap_entries (qs : NamedEntries) :
    isPidMap qs.entries = true ↔
      ∃ b, qs.lookup (js "__beamjs_type") = some (.binary b) ∧ cString b = bytes "pid" := by
  rw [isPidMap, lookup_type]
  split
  · rename_i b hb
    simp [hb]
  · rename_i hb
    refine iff_of_false (by simp) ?_
    rintro ⟨b, h, -⟩
    exact hb b h

/-- The pid mark of the properties is that of the entries they come back as. -/
theorem isPidHandle_of_entryBack {ps : List (JsString × JsValue)} {qs : NamedEntries}
    (hnd : (Assoc.keys qs).Nodup) (h : ∀ p ∈ ps, ∃ q ∈ qs, EntryBack ord p q)
    (htag : isPidMap qs.entries = false) : isPidHandle ps = false := by
  refine eq_false_of_ne_true fun hps => ?_
  unfold isPidHandle at hps
  cases hl : ps.lookup (js "__beamjs_type") with
  | none => simp [hl] at hps
  | some v =>
    obtain ⟨q, hq, hkey, r, hr, heq⟩ := h _ (Assoc.mem_of_lookup hl)
    cases v with
    | string s =>
      obtain rfl := Option.some.inj hr
      simp only [hl] at hps
      have hb : q.2 = .binary (toCStringLen s) := by
        cases hq2 : q.2 with
        | binary b =>
          rw [hq2] at heq
          rw [beq_iff_eq.mp heq]
        | _ =>
          rw [hq2] at heq
          cases heq
      have hlook : qs.lookup (js "__beamjs_type") = some (.binary (toCStringLen s)) := by
        rw [show js "__beamjs_type" = q.1 from hkey, ← hb]
        exact Assoc.lookup_of_mem hnd hq
      have := (isPidMap_entries qs).mpr ⟨_, hlook, of_decide_eq_true hps⟩
      rw [htag] at this
      cases this
    | _ => simp [hl] at hps

/-- Entries that are read under their names are the properties of the object. -/
theorem object_of_names {qs : NamedEntries} (hnd : (Assoc.keys qs).Nodup) {known : Atoms}
    (hnames : Assoc.keys (readNamed known qs).1 = Assoc.keys qs)
    (hnul : ∀ e ∈ qs, 0 ∉ e.1 ∧ e.1 ≠ js "__proto__") :
    ∃ ps, (erlTermToJs known (.map qs.entries)).1 = .object none ps ∧
      ps.Perm (readNamed known qs).1 ∧ js "__proto__" ∉ Assoc.keys ps := by
  have hproto : js "__proto__" ∉ Assoc.keys (readNamed known qs).1 := by
    rw [hnames]
    intro hmem
    obtain ⟨e, he, heq⟩ := List.mem_map.mp hmem
    exact (hnul e he).2 heq
  obtain ⟨ps, hrun, hps⟩ := setProps_new none [] (by rwa [List.nil_append, hnames]) hproto
  rw [List.nil_append] at hps
  refine ⟨ps, ?_, hps, ?_⟩
  · rw [erlTermToJs_entries]
    exact hrun
  · rwa [Assoc.keys, (hps.map Prod.fst).mem_iff]

/-- A map without pid mark whose entries all come back under their names comes back. -/
theorem map_comesBack {qs : NamedEntries} (hnd : (Assoc.keys qs).Nodup) {known : Atoms}
    (htag : isPidMap qs.entries = false)
    (hall : List.Forall₂ (EntryBack ord) (readNamed known qs).1 qs)
    (hnul : ∀ e ∈ qs, 0 ∉ e.1 ∧ e.1 ≠ js "__proto__") :
    ComesBack ord (.map qs.entries) (erlTermToJs known (.map qs.entries)).1 := by
  have hnames : Assoc.keys (readNamed known qs).1 = Assoc.keys qs :=
    Assoc.keys_eq_of_forall₂ (hall.imp fun _ _ h => h.1)
  obtain ⟨ps, hrun, hps, -⟩ := object_of_names hnd hnames hnul
  have hback : ∀ p ∈ ps, ∃ q ∈ qs, EntryBack ord p q := fun p hp =>
    exists_of_forall₂ hall (hps.mem_iff.mp hp)
  have hterm : ∀ p ∈ ps, jsValueToErl ord p.2 = some (termOf ord p.2) := by
    intro p hp
    obtain ⟨q, -, -, r, hr, -⟩ := hback p hp
    rw [termOf, hr]
    rfl
  have hpsnd : (Assoc.keys ps).Nodup := by
    rw [(hps.map Prod.fst).nodup_iff, ← Assoc.keys, hnames]
    exact hnd
  have hpsnul : ∀ k ∈ Assoc.keys ps, 0 ∉ k := by
    intro k hk
    obtain ⟨p, hp, rfl⟩ := List.mem_map.mp hk
    obtain ⟨q, hq, hkey, -⟩ := hback p hp
    exact hkey ▸ (hnul q hq).1
  have hentries := mapEntries_of_notMem ord hpsnd hpsnul
  refine ⟨ord.toMap (mapEntries ord ps), ?_, ?_⟩
  · rw [hrun,
      jsValueToErl_object rfl (isPidHandle_of_entryBack hnd hback htag), jsPropsToMap_eq hterm]
    rfl
  · have hlen : (ord.arrange (mapEntries ord ps)).length = qs.length := by
      rw [(ord.perm _).length_eq, hentries, List.length_map, hps.length_eq, hall.length_eq]
    simp only [MapOrder.toMap, Term.equal, List.length_map, hlen, NamedEntries.entries,
      beq_self_eq_true, Bool.true_and]
    refine Term.equalEntries_iff.mpr fun e he => ?_
    obtain ⟨x, hx, rfl⟩ := List.mem_map.mp he
    rw [(ord.perm _).mem_iff, hentries] at hx
    obtain ⟨p, hp, rfl⟩ := List.mem_map.mp hx
    obtain ⟨q, hq, hkey, r, hr, heq⟩ := hback p hp
    refine ⟨q.2, ?_, ?_⟩
    · rw [← NamedEntries.entries, lookup_entries, hkey]
      exact Assoc.lookup_of_mem hnd hq
    · rw [termOf, hr]
      exact heq

/-- A map that comes back had no pid mark, and all its entries came back under their names. -/
theorem entries_of_comesBack {qs : NamedEntries} (hm : isMapData (.map qs.entries) = true)
    (hnd : (Assoc.keys qs).Nodup) {known : Atoms}
    (h : ComesBack ord (.map qs.entries) (erlTermToJs known (.map qs.entries)).1) :
    isPidMap qs.entries = false ∧ List.Forall₂ (EntryBack ord) (readNamed known qs).1 qs ∧
      ∀ e ∈ qs, 0 ∉ e.1 ∧ e.1 ≠ js "__proto__" := by
  obtain ⟨t, ht, heq⟩ := h
  obtain ⟨proto, ps, hrun, hlenps, hsub, hpsnd⟩ := setProps_bound (readNamed known qs).1 none []
  have hobj : (erlTermToJs known (.map qs.entries)).1 = .object proto ps := by
    rw [erlTermToJs_entries]
    exact hrun
  rw [hobj] at ht
  have htag := noTag_of_equal hm hobj ht heq
  rw [jsValueToErl_noTag htag] at ht
  obtain ⟨rfl, hterm⟩ := jsPropsToMap_spec ht
  have hmnd : (Assoc.keys qs.entries).Nodup := (isMapData_map.mp hm).1
  have htnd := nodup_keys_toMap ord (nodup_keys_mapEntries ord ps)
  -- every key of the map is one that came back, and so has no NUL
  have hkey : ∀ q ∈ qs, ∃ p ∈ ps, mapKey p.1 = toCStringLen q.1 ∧
      Term.equal (termOf ord p.2) q.2 = true := by
    intro q hq
    obtain ⟨a, ha, haq⟩ := exists_entry_of_equal htnd hmnd heq (List.mem_map_of_mem hq)
    obtain ⟨x, hx, hxa⟩ := List.mem_map.mp ha
    obtain ⟨hx1, rfl⟩ := Prod.mk.inj hxa
    rcases Assoc.mem_putAll ((ord.perm _).mem_iff.mp hx) with hx | hx
    · simp at hx
    · obtain ⟨p, hp, rfl⟩ := List.mem_map.mp hx
      exact ⟨p, hp, Term.binary.inj hx1, haq⟩
  have hnul : ∀ q ∈ qs, 0 ∉ q.1 := by
    intro q hq
    obtain ⟨p, -, hname, -⟩ := hkey q hq
    rw [mapKey_eq] at hname
    rw [← toCStringLen_injective hname]
    exact zero_notMem_cutName p.1
  have hpsnul : ∀ k ∈ Assoc.keys ps, 0 ∉ k := by
    intro k hk
    rcases hsub k hk with hk | hk
    · simp at hk
    · obtain ⟨e, he, known', rfl⟩ := mem_keys_readEntries hk
      obtain ⟨q, hq, rfl⟩ := List.mem_map.mp he
      exact zero_notMem_newAtomLen known' (hnul q hq)
  have hcut : ∀ p ∈ ps, mapKey p.1 = toCStringLen p.1 := by
    intro p hp
    rw [mapKey_eq, cutName_of_notMem (hpsnul _ (Assoc.mem_keys_of_mem hp))]
  -- the names of the properties are those of the entries
  have hpsnd' := hpsnd List.nodup_nil
  have hperm : (Assoc.keys ps).Perm (Assoc.keys qs) := by
    have hincl : Assoc.keys qs ⊆ Assoc.keys ps := by
      intro k hk
      obtain ⟨q, hq, rfl⟩ := List.mem_map.mp hk
      obtain ⟨p, hp, hname, -⟩ := hkey q hq
      rw [hcut p hp] at hname
      exact toCStringLen_injective hname ▸ Assoc.mem_keys_of_mem hp
    refine ((List.subperm_of_subset hnd hincl).perm_of_length_le ?_).symm
    simpa [readNamed] using hlenps
  obtain ⟨rfl, hps, hnames, hproto⟩ := props_of_full known (fun t => t) hrun hperm
  have hall : List.Forall₂ (EntryBack ord) (readNamed known qs).1 qs := by
    refine Assoc.forall₂_of_keys_eq hnames fun p hp q hq hpq => ?_
    obtain ⟨p', hp', hname, heqp⟩ := hkey q hq
    rw [hcut p' hp'] at hname
    have hsame : p'.2 = p.2 := by
      have h1 := Assoc.lookup_of_mem hpsnd' (hps.mem_iff.mpr hp)
      have h2 := Assoc.lookup_of_mem hpsnd' hp'
      rw [toCStringLen_injective hname, ← hpq, h1] at h2
      exact (Option.some.inj h2).symm
    rw [hsame] at heqp
    exact ⟨hpq, _, hterm p (hps.mem_iff.mpr hp), heqp⟩
  refine ⟨?_, hall, fun e he => ⟨hnul e he, fun hname => hproto ?_⟩⟩
  · -- the pid mark of an entry would be one of the object
    refine eq_false_of_ne_true fun hpid => ?_
    obtain ⟨b, hlook, hb⟩ := (isPidMap_entries qs).mp hpid
    have hq := Assoc.mem_of_lookup hlook
    obtain ⟨p, hp, ⟨hname, r, hr, heqr⟩, known', hval⟩ :=
      exists_and_of_forall₂ hall.flip (forall₂_readEntries known qs) hq
    replace hval : p.2 = .string (newStringLen b) := hval
    rw [hval] at hr
    obtain rfl := Option.some.inj hr
    have hback : toCStringLen (newStringLen b) = b := beq_iff_eq.mp heqr
    have hprop : ps.lookup (js "__beamjs_type") = some (.string (newStringLen b)) := by
      rw [← hval, ← show p.1 = js "__beamjs_type" from hname]
      exact Assoc.lookup_of_mem hpsnd' (hps.mem_iff.mpr hp)
    rw [getProp, getProp?_object, hprop, Option.some_or, Option.getD_some, isPidTag, hback, hb] at htag
    simp at htag
  · rw [hnames, ← hname]
    exact Assoc.mem_keys_of_mem he

/-! ## Whole terms -/

theorem reads_of_leaf (ord : MapOrder) {t : Term} (ht : isMapData t = true)
    (hmap : ∀ es, t ≠ .map es) :
    Reads t (ComesBack ord t) (keepsValues t = true) (termNames t) := by
  obtain ⟨v, hv, -, r, hr, hiff⟩ := leaf_returns ord ht hmap
  have hnames : termNames t = [] := by
    cases t with
    | map es => exact absurd rfl (hmap es)
    | _ => rfl
  rw [hnames]
  refine ⟨fun known => ?_, fun known _ x => ?_⟩
  · rw [hv, ComesBack, hr, ← hiff]
    simp [NamesKept]
  · rw [hv, List.nil_append]

/-- What the term is converted to comes back exactly if the names are kept and the values are. -/
theorem reads_of_mapData (ord : MapOrder) {t : Term} (ht : isMapData t = true) :
    Reads t (ComesBack ord t) (keepsValues t = true) (termNames t) := by
  induction t using Term.induction_on with
  | map es ih =>
    obtain ⟨qs, rfl, hnd, hdata⟩ := exists_namedEntries ht
    have hentries := entries_read (fun t => t) (ComesBack ord) (fun t => keepsValues t = true)
      termNames fun q hq => (ih _ (List.mem_map_of_mem hq)).2 (hdata q hq)
    have hkeeps : keepsValues (.map qs.entries) = true ↔
        isPidMap qs.entries = false ∧ ∀ e ∈ qs, keepsValues e.2 = true := by
      rw [keepsValues_map, NamedEntries.entries, List.forall_mem_map]
    refine ⟨fun known => ?_, fun known hk x => ?_⟩
    · rw [hkeeps, termNames_entries, and_assoc, ← (hentries known).1]
      exact ⟨entries_of_comesBack ht hnd, fun ⟨htag, hall, hnul⟩ => map_comesBack hnd htag hall hnul⟩
    · rw [hkeeps, termNames_entries, and_assoc] at hk
      rw [erlTermToJs_entries, termNames_entries]
      exact (hentries known).2 hk.2 x
  | _ => exact reads_of_leaf ord ht (by simp)

/-! ## The global object -/

theorem minCode_ge (l : ℕ) : 0x80 ≤ minCode l := by
  unfold minCode
  split <;> decide

/-- A buffer that reads as ASCII is ASCII. -/
theorem newStringLoop_ascii {fuel : ℕ} {b : Bytes} (hf : b.length ≤ fuel)
    (h : ∀ c ∈ newStringLoop fuel b, c.toNat < 0x80) : newStringLoop fuel b = latin1 b := by
  induction fuel generalizing b with
  | zero =>
    obtain rfl : b = [] := List.length_eq_zero_iff.mp (Nat.le_zero.mp hf)
    rfl
  | succ fuel ih =>
    cases b with
    | nil => rfl
    | cons b p =>
      rw [newStringLoop] at h ⊢
      by_cases hb : b.toNat < 0x80
      · rw [if_pos hb] at h ⊢
        rw [ih (by simpa using hf) fun c hc => h c (List.mem_cons_of_mem _ hc)]
        rfl
      · -- a character of more bytes, or none, does not read as ASCII
        exfalso
        rw [if_neg hb] at h
        cases hr : unicodeFromUtf8 (b :: p) with
        | none =>
          rw [hr] at h
          have := h _ (List.mem_cons_self ..)
          revert this
          decide
        | some r =>
          obtain ⟨c, rest⟩ := r
          obtain ⟨l, -, hmin, -⟩ := readTail_of_unicodeFromUtf8 hb hr
          have hge := (minCode_ge l).trans hmin
          simp only [hr] at h
          split at h
          · have := h _ (List.mem_cons_self ..)
            rw [UInt16.toNat_ofNat'] at this
            omega
          · split at h
            · have := h _ (List.mem_cons_self ..)
              rw [UInt16.toNat_ofNat', Nat.shiftRight_eq_div_pow] at this
              omega
            · have := h _ (List.mem_cons_self ..)
              revert this
              decide

/-- An ASCII buffer reads as itself. -/
theorem newStringLoop_of_ascii {fuel : ℕ} {b : Bytes} (hf : b.length ≤ fuel)
    (h : ∀ c ∈ latin1 b, c.toNat < 0x80) : newStringLoop fuel b = latin1 b := by
  induction fuel generalizing b with
  | zero =>
    obtain rfl : b = [] := List.length_eq_zero_iff.mp (Nat.le_zero.mp hf)
    rfl
  | succ fuel ih =>
    cases b with
    | nil => rfl
    | cons b p =>
      obtain ⟨hb, hp⟩ := List.forall_mem_cons.mp h
      have hb' : b.toNat < 0x80 := by
        rw [UInt16.toNat_ofNat'] at hb
        have := b.toNat_lt
        omega
      rw [newStringLoop, if_pos hb', ih (by simpa using hf) hp]
      rfl

/-- Whether a name is read as that of a constant can be seen from its bytes. -/
theorem newAtomLen_mem_constants {known : Atoms} {buf : Bytes} :
    (newAtomLen known buf).1 ∈ Assoc.keys GlobalScope.constants ↔
      latin1 buf ∈ Assoc.keys GlobalScope.constants := by
  have hascii : ∀ k ∈ Assoc.keys GlobalScope.constants, ∀ c ∈ k, c.toNat < 0x80 := by
    have hall : ((Assoc.keys GlobalScope.constants).all fun k =>
        k.all fun c => decide (c.toNat < 0x80)) = true := by decide
    intro k hk c hc
    exact of_decide_eq_true (List.all_eq_true.mp (List.all_eq_true.mp hall k hk) c hc)
  unfold newAtomLen
  split
  · rfl
  · constructor
    · intro h
      have hsame := newStringLoop_ascii (Nat.le_refl _) (hascii _ h)
      rwa [newStringLen, hsame] at h
    · intro h
      rwa [newStringLen, newStringLoop_of_ascii (Nat.le_refl _) (hascii _ h)]

/-- A name is read as before when it is read again. -/
theorem newAtomLen_again (known : Atoms) (buf : Bytes) :
    (newAtomLen (newAtomLen known buf).2 buf).1 = (newAtomLen known buf).1 := by
  by_cases hc : (!startsWithDigit buf && known.contains (latin1 buf)) = true
  · simp only [newAtomLen, if_pos hc]
  · have htable : (newAtomLen known buf) = (newStringLen buf, newStringLen buf :: known) := if_neg hc
    rw [htable, newAtomLen]
    split
    · rename_i hc'
      simp only [Bool.and_eq_true, List.contains_cons, Bool.or_eq_true] at hc hc'
      rcases hc'.2 with h | h
      · exact beq_iff_eq.mp h
      · exact absurd ⟨hc'.1, h⟩ hc
    · rfl

theorem lookup_insertProp_self {k : JsString} {props : List (JsString × JsValue)}
    (h : k ∉ Assoc.keys props) (v : JsValue) : (insertProp k v props).lookup k = some v := by
  have hnone : ∀ {l : List (JsString × JsValue)}, l.Sublist props → l.lookup k = none :=
    fun hl => Assoc.lookup_eq_none.mpr fun hmem => h ((hl.map Prod.fst).subset hmem)
  unfold insertProp
  split
  · rw [List.lookup_append, hnone (List.takeWhile_sublist _), Option.none_or, List.lookup_cons_self]
  · rw [List.lookup_append, hnone (List.Sublist.refl _), Option.none_or, List.lookup_cons_self]

theorem GlobalScope.setProp_eq {scope : GlobalScope} {key : JsString} {v : JsValue}
    (hkey : key ∉ Assoc.keys GlobalScope.constants) {proto : Option JsValue}
    {props : List (JsString × JsValue)}
    (h : JsValue.setProp (.object scope.proto scope.props) key v = .object proto props) :
    scope.setProp key v = { scope with proto, props } := by
  rw [GlobalScope.setProp, if_neg hkey, h]

/-- An own property of the global object is found, unless it is a constant. -/
theorem GlobalScope.getProp_own {builtins : Builtins} {scope : GlobalScope} {key : JsString}
    {v : JsValue}
    (hkey : key ∉ Assoc.keys GlobalScope.constants) (h : scope.props.lookup key = some v) :
    scope.getProp builtins key = v := by
  have hin : key ∈ Assoc.keys scope.props := Assoc.mem_keys_of_mem (Assoc.mem_of_lookup h)
  rw [GlobalScope.getProp, Assoc.lookup_eq_none.mpr hkey]
  simp only [hin, not_true_eq_false, false_and, and_false, if_false]
  rw [JsValue.getProp, getProp?_object, h, Option.some_or, Option.getD_some]

/-- A property that is set to an object is found. -/
theorem GlobalScope.getProp_setProp {builtins : Builtins} {scope : GlobalScope} {key : JsString}
    {v : JsValue}
    (hkey : key ∉ Assoc.keys GlobalScope.constants) (hobj : v.isObject = true)
    (hv : v.leadsToAccessor = true) : (scope.setProp key v).getProp builtins key = v := by
  by_cases hk : key ∈ Assoc.keys scope.props
  · rw [GlobalScope.setProp_eq hkey (if_pos hk)]
    exact GlobalScope.getProp_own hkey (Assoc.lookup_replace_self hk v)
  by_cases hp : key = js "__proto__" ∧ (object scope.proto []).leadsToAccessor = true
  · -- the value becomes the prototype, where the getter of `__proto__` finds it
    have hset : JsValue.setProp (.object scope.proto scope.props) key v =
        .object (some v) scope.props := by
      simp only [JsValue.setProp, if_neg hk, if_pos hp]
      unfold setProto
      split
      · cases hobj
      · exact if_pos hobj
    have hacc : (object (some v) []).leadsToAccessor = true := by
      rw [leadsToAccessor]
      simpa using hv
    rw [GlobalScope.setProp_eq hkey hset, GlobalScope.getProp, Assoc.lookup_eq_none.mpr hkey]
    exact if_pos ⟨hp.1, hk, hacc⟩
  · have hset : JsValue.setProp (.object scope.proto scope.props) key v =
        .object scope.proto (insertProp key v scope.props) := by
      simp only [JsValue.setProp, if_neg hk, if_neg hp]
    rw [GlobalScope.setProp_eq hkey hset]
    exact GlobalScope.getProp_own hkey (lookup_insertProp_self hk v)

@[simp] theorem GlobalScope.known_setProp (scope : GlobalScope) (key : JsString) (v : JsValue) :
    (scope.setProp key v).known = scope.known := by
  unfold GlobalScope.setProp
  split
  · rfl
  · split <;> rfl

/-- The name under which `set_global` and `get_global` find the variable. -/
def globalKey (scope : GlobalScope) (name : Bytes) (t : Term) : JsString :=
  (newAtomLen (erlTermToJs scope.known t).2 (cString name)).1

theorem globalKey_mem_constants (scope : GlobalScope) (name : Bytes) (t : Term) :
    globalKey scope name t ∈ Assoc.keys GlobalScope.constants ↔
      latin1 (cString name) ∈ Assoc.keys GlobalScope.constants := newAtomLen_mem_constants

/-- What `get_global` after `set_global` converts. -/
theorem getGlobal_setGlobal (ord : MapOrder) (builtins : Builtins) (scope : GlobalScope)
    (name : Bytes)
    (t : Term) :
    ∃ known, getGlobal ord builtins (setGlobal scope name t) name =
      (jsValueToErl ord (({ scope with known }.setProp (globalKey scope name t)
        (erlTermToJs scope.known t).1).getProp builtins (globalKey scope name t))).map
          fun r => .tuple [.ok, r] := by
  refine ⟨(newAtomLen (erlTermToJs scope.known t).2 (cString name)).2, ?_⟩
  rw [getGlobal, setGlobal]
  simp only [globalKey, GlobalScope.known_setProp, newAtomLen_again]
  cases jsValueToErl ord _ <;> rfl

/-- A constant does not read as a map. -/
theorem constant_ne_map {builtins : Builtins} {scope : GlobalScope} {key : JsString}
    (h : key ∈ Assoc.keys GlobalScope.constants) {r : Term}
    (hr : jsValueToErl ord (scope.getProp builtins key) = some r) (es : List (Term × Term)) :
    Term.equal r (.map es) = false := by
  have hkey : key = js "Infinity" ∨ key = js "NaN" ∨ key = js "undefined" := by
    simpa [GlobalScope.constants] using h
  rcases hkey with rfl | rfl | rfl
  · cases hr
  · cases hr
  · cases hr
    rfl

/-- A map of 32-bit integers, booleans, `nil` and binaries, nested to any depth, comes back from the
two conversions and from a global variable exactly if the context keeps it. -/
theorem map_kept_iff (ord : MapOrder) (builtins : Builtins) (scope : GlobalScope) (name : Bytes)
    {entries : List (Term × Term)} (hm : isMapData (.map entries) = true) :
    MapKept ord builtins scope name (.map entries) ↔ KeepsMap scope name (.map entries) := by
  have hreads := reads_of_mapData ord hm
  obtain ⟨known, hglobal⟩ := getGlobal_setGlobal ord builtins scope name (.map entries)
  constructor
  · rintro ⟨htrip, t, ht, heq⟩
    obtain ⟨hvalues, hnames⟩ := (hreads.arrives scope.known).mp htrip
    refine ⟨hnames, hvalues, fun hconst => ?_⟩
    rw [← globalKey_mem_constants scope name (.map entries)] at hconst
    rw [hglobal, GlobalScope.setProp, if_pos hconst] at ht
    obtain ⟨r, hr, hrt⟩ := Option.map_eq_some_iff.mp ht
    cases hrt
    rw [constant_ne_map hconst hr] at heq
    cases heq
  · rintro ⟨hnames, hvalues, hwritable⟩
    have htrip := (hreads.arrives scope.known).mpr ⟨hvalues, hnames⟩
    refine ⟨htrip, ?_⟩
    obtain ⟨qs, rfl, hnd, -⟩ := exists_namedEntries hm
    obtain ⟨-, hall, hnul⟩ := entries_of_comesBack hm hnd htrip
    obtain ⟨ps, hrun, -, hproto⟩ :=
      object_of_names hnd (Assoc.keys_eq_of_forall₂ (hall.imp fun _ _ h => h.1)) hnul
    obtain ⟨t, ht, heq⟩ := htrip
    have hacc : (object none ps).leadsToAccessor = true := by
      rw [leadsToAccessor, if_neg hproto]
    rw [← globalKey_mem_constants scope name (.map qs.entries)] at hwritable
    rw [hrun] at hglobal ht
    rw [GlobalScope.getProp_setProp hwritable rfl hacc, ht] at hglobal
    exact ⟨t, hglobal, heq⟩

/-- A nested map that comes back. -/
theorem map_kept_nested :
    MapKept .insertion noBuiltins ⟨[js "id"], none, []⟩ (bytes "config")
      (.map [(.binary (bytes "id"), .int 7), (.binary [0xc3, 0xa9], .map
        [(.binary (bytes "on"), .atom "true"), (.binary [], .binary (bytes "x"))])]) :=
  (map_kept_iff _ _ _ _ (by decide)).mpr ⟨by decide, by decide, by decide⟩

/-- Maps that do not come back: two keys that agree up to a NUL, the key `__proto__`, the mark of a
pid handle, and a binary that is no text. -/
theorem map_entries_lost :
    (isMapData (.map [(.binary [97, 0], .int 1), (.binary [97], .int 2)]) = true ∧
      ¬ MapKept .insertion noBuiltins ⟨[], none, []⟩ (bytes "m")
        (.map [(.binary [97, 0], .int 1), (.binary [97], .int 2)])) ∧
    (isMapData (.map [(.binary (bytes "__proto__"), .int 1)]) = true ∧
      ¬ MapKept .insertion noBuiltins ⟨[], none, []⟩ (bytes "m")
        (.map [(.binary (bytes "__proto__"), .int 1)])) ∧
    (isMapData (.map [(.binary (bytes "__beamjs_type"), .binary (bytes "pid"))]) = true ∧
      ¬ MapKept .insertion noBuiltins ⟨[], none, []⟩ (bytes "m")
        (.map [(.binary (bytes "__beamjs_type"), .binary (bytes "pid"))])) ∧
    (isMapData (.map [(.binary (bytes "k"), .binary [0xff])]) = true ∧
      ¬ MapKept .insertion noBuiltins ⟨[], none, []⟩ (bytes "m")
        (.map [(.binary (bytes "k"), .binary [0xff])])) := by
  refine ⟨⟨by decide, ?_⟩, ⟨by decide, ?_⟩, ⟨by decide, ?_⟩, ⟨by decide, ?_⟩⟩ <;>
  · rintro ⟨⟨t, ht, heq⟩, -⟩
    revert heq
    cases ht
    decide

end BeamJS
