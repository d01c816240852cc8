import BeamJS.Js.Json
import Mathlib.Data.List.Nodup
import Mathlib.Data.Nat.Digits.Lemmas
import Mathlib.Data.Nat.Prime.Basic
import Mathlib.Data.Rat.Lemmas

/-!
# Proofs: `JSON.stringify`

A string can be read back from its quoted text, and so data from its JSON text, as far as it shows
there: `jsonTree` keeps what is shown, and equal texts are those of equal trees.
-/

namespace BeamJS

open Lib Utf8 JsValue

/-! ## Strings -/

theorem hexChar_injective : ∀ n < 16, ∀ m < 16, hexChar n = hexChar m → n = m := by decide

theorem unicodeEscape_append {c d : UInt16} {r s : JsString}
    (h : unicodeEscape c ++ r = unicodeEscape d ++ s) : c = d ∧ r = s := by
  simp only [unicodeEscape, List.cons_append, List.nil_append, List.cons_eq_cons, true_and] at h
  obtain ⟨h3, h2, h1, h0, rfl⟩ := h
  have hc := c.toNat_lt
  have hd := d.toNat_lt
  have e3 := hexChar_injective _ (by omega) _ (by omega) h3
  have e2 := hexChar_injective _ (by omega) _ (by omega) h2
  have e1 := hexChar_injective _ (by omega) _ (by omega) h1
  have e0 := hexChar_injective _ (by omega) _ (by omega) h0
  exact ⟨UInt16.toNat_inj.mp (by omega), rfl⟩

/-- The code units with a short escape, and its second character. -/
def shortEscapes : List (UInt16 × UInt16) :=
  [(9, 116), (13, 114), (10, 110), (8, 98), (12, 102), (34, 34), (92, 92)]

/-- The three ways to quote a code unit. -/
inductive Quoted (c : UInt16) : Prop where
  | short {x : UInt16} (hx : (c, x) ∈ shortEscapes) (h : quoteUnit c = [92, x])
  | unicode (h : quoteUnit c = unicodeEscape c)
  | plain (hquote : c ≠ 34) (hslash : c ≠ 92) (hhigh : isHigh c = false) (h : quoteUnit c = [c])

/-- A code unit without a short escape. -/
theorem quoteUnit_of_notMem {c : UInt16} (h : c ∉ Assoc.keys shortEscapes) :
    quoteUnit c = if c.toNat < 32 || (0xd800 ≤ c.toNat && c.toNat < 0xe000) then unicodeEscape c
      else [c] := by
  have hne {d : UInt16} (hd : d ∈ Assoc.keys shortEscapes) (hcd : c.toNat = d.toNat) : False :=
    h (UInt16.toNat_inj.mp hcd ▸ hd)
  unfold quoteUnit
  split
  · rename_i hc
    exact (hne (d := 9) (by decide) hc).elim
  · rename_i hc
    exact (hne (d := 13) (by decide) hc).elim
  · rename_i hc
    exact (hne (d := 10) (by decide) hc).elim
  · rename_i hc
    exact (hne (d := 8) (by decide) hc).elim
  · rename_i hc
    exact (hne (d := 12) (by decide) hc).elim
  · rename_i hc
    exact (hne (d := 34) (by decide) hc).elim
  · rename_i hc
    exact (hne (d := 92) (by decide) hc).elim
  · rfl

theorem quoted (c : UInt16) : Quoted c := by
  by_cases hmem : c ∈ Assoc.keys shortEscapes
  · have hall : (shortEscapes.all fun e => quoteUnit e.1 == [92, e.2]) = true := by decide
    obtain ⟨⟨c', x⟩, he, rfl⟩ := List.mem_map.mp hmem
    exact .short he (eq_of_beq (List.all_eq_true.mp hall _ he))
  · have hdef := quoteUnit_of_notMem hmem
    split at hdef
    · exact .unicode hdef
    · rename_i hrange
      have hhigh : isHigh c = false := by
        simp only [Bool.or_eq_true, Bool.and_eq_true, decide_eq_true_eq] at hrange
        simp only [isHigh, Bool.and_eq_false_iff, decide_eq_false_iff_not]
        omega
      refine .plain ?_ ?_ hhigh hdef
      · rintro rfl
        exact hmem (by decide)
      · rintro rfl
        exact hmem (by decide)

/-- A quoted code unit can be told from any other. -/
theorem quoteUnit_append {c d : UInt16} {r s : JsString}
    (h : quoteUnit c ++ r = quoteUnit d ++ s) : c = d ∧ r = s := by
  have hshort {x : UInt16} (hx : x ∈ shortEscapes.map Prod.snd) : x ≠ 117 := by
    rintro rfl
    revert hx
    decide
  have hdistinct : (shortEscapes.map Prod.snd).Nodup := by decide
  cases quoted c with
  | short hx hc =>
    cases quoted d with
    | short hy hd =>
      simp only [hc, hd, List.cons_append, List.nil_append, List.cons_eq_cons, true_and] at h
      obtain ⟨hxy, rfl⟩ := h
      exact ⟨congrArg Prod.fst (List.inj_on_of_nodup_map hdistinct hx hy hxy), rfl⟩
    | unicode hd =>
      simp only [hc, hd, unicodeEscape, List.cons_append, List.nil_append, List.cons_eq_cons,
        true_and] at h
      exact absurd h.1 (hshort (List.mem_map_of_mem hx))
    | plain _ hslash _ hd =>
      simp only [hc, hd, List.cons_append, List.nil_append, List.cons_eq_cons] at h
      exact absurd h.1.symm hslash
  | unicode hc =>
    cases quoted d with
    | short hy hd =>
      simp only [hc, hd, unicodeEscape, List.cons_append, List.nil_append, List.cons_eq_cons,
        true_and] at h
      exact absurd h.1.symm (hshort (List.mem_map_of_mem hy))
    | unicode hd =>
      rw [hc, hd] at h
      exact unicodeEscape_append h
    | plain _ hslash _ hd =>
      simp only [hc, hd, unicodeEscape, List.cons_append, List.nil_append, List.cons_eq_cons] at h
      exact absurd h.1.symm hslash
  | plain _ hslash _ hc =>
    cases quoted d with
    | short hy hd =>
      simp only [hc, hd, List.cons_append, List.nil_append, List.cons_eq_cons] at h
      exact absurd h.1 hslash
    | unicode hd =>
      simp only [hc, hd, unicodeEscape, List.cons_append, List.nil_append, List.cons_eq_cons] at h
      exact absurd h.1 hslash
    | plain _ _ _ hd =>
      rw [hc, hd] at h
      exact List.cons_eq_cons.mp h

/-- A character of a string, as `string_getc` takes it. -/
inductive StringChar where
  | unit (c : UInt16)
  | pair (c c1 : UInt16) (h : isHigh c = true)

namespace StringChar

/-- The code units of a character. -/
def units : StringChar → JsString
  | unit c => [c]
  | pair c c1 _ => [c, c1]

/-- The quoted character. -/
def quote : StringChar → JsString
  | unit c => quoteUnit c
  | pair c c1 _ => [c, c1]

/-- The characters of a string. -/
def ofString : JsString → List StringChar
  | [] => []
  | [c] => [unit c]
  | c :: c1 :: s =>
    if h : isHigh c = true ∧ isLow c1 = true then pair c c1 h.1 :: ofString s
    else unit c :: ofString (c1 :: s)

theorem flatMap_units (s : JsString) : (ofString s).flatMap units = s := by
  fun_induction ofString s with
  | case1 => rfl
  | case2 c => rfl
  | case3 c c1 s h ih => rw [List.flatMap_cons, ih]; rfl
  | case4 c c1 s h ih => rw [List.flatMap_cons, ih]; rfl

theorem flatMap_quote (s : JsString) : (ofString s).flatMap quote = quoteChars s := by
  fun_induction ofString s with
  | case1 => rfl
  | case2 c => exact List.append_nil _
  | case3 c c1 s h ih =>
    rw [List.flatMap_cons, ih, quoteChars, if_pos (by simp [h])]
    rfl
  | case4 c c1 s h ih =>
    rw [List.flatMap_cons, ih, quoteChars, if_neg (by simpa using h)]
    rfl

/-- A quoted code unit starts with no high surrogate. -/
theorem head_quoteUnit {c d : UInt16} (h : (quoteUnit c).head? = some d) :
    d ≠ 34 ∧ isHigh d = false := by
  cases quoted c with
  | short hx hc =>
    rw [hc] at h
    cases h
    exact ⟨by decide, by decide⟩
  | unicode hc =>
    rw [hc] at h
    cases h
    exact ⟨by decide, by decide⟩
  | plain hquote _ hhigh hc =>
    rw [hc] at h
    cases h
    exact ⟨hquote, hhigh⟩

theorem quote_ne_nil (c : StringChar) : c.quote ≠ [] := by
  cases c with
  | unit c =>
    rw [quote]
    cases quoted c with
    | short hx hc => rw [hc]; exact List.cons_ne_nil _ _
    | unicode hc => rw [hc]; exact List.cons_ne_nil _ _
    | plain _ _ _ hc => rw [hc]; exact List.cons_ne_nil _ _
  | pair c c1 h => exact List.cons_ne_nil _ _

/-- A quoted character does not start with a quotation mark. -/
theorem head_quote_ne (c : StringChar) : c.quote.head? ≠ some 34 := by
  cases c with
  | unit c => exact fun h => (head_quoteUnit h).1 rfl
  | pair c c1 h =>
    intro hc
    obtain rfl : c = 34 := Option.some.inj hc
    cases h

theorem quote_readsBack (c : StringChar) : ReadsBack (fun _ => True) quote c := by
  have hmixed {c d d1 : UInt16} {r s : JsString} (hd : isHigh d = true)
      (heq : quoteUnit c ++ r = d :: d1 :: s) : False := by
    have hne := quote_ne_nil (.unit c)
    cases hc : quoteUnit c with
    | nil => exact hne hc
    | cons x t =>
      rw [hc, List.cons_append] at heq
      have hx := (head_quoteUnit (d := x) (by rw [hc]; rfl)).2
      rw [(List.cons_eq_cons.mp heq).1, hd] at hx
      cases hx
  rintro d r s - - heq
  cases c with
  | unit c =>
    cases d with
    | unit d =>
      obtain ⟨rfl, hrs⟩ := quoteUnit_append heq
      exact ⟨rfl, hrs⟩
    | pair d d1 hd => exact (hmixed hd heq).elim
  | pair c c1 hc =>
    cases d with
    | unit d => exact (hmixed hc heq.symm).elim
    | pair d d1 hd =>
      simp only [quote, List.cons_append, List.nil_append, List.cons_eq_cons] at heq
      obtain ⟨rfl, rfl, hrs⟩ := heq
      exact ⟨rfl, hrs⟩

end StringChar

/-- A string reads back from its quoted text. -/
theorem toQuotedString_readsBack (s : JsString) : ReadsBack (fun _ => True) toQuotedString s := by
  rintro t r r' - - heq
  simp only [toQuotedString, List.cons_append, List.append_assoc, List.nil_append,
    List.cons_eq_cons, true_and, ← StringChar.flatMap_quote] at heq
  obtain ⟨hchars, hr⟩ := flatMap_readsBack (fun c _ => StringChar.quote_readsBack c)
    StringChar.head_quote_ne StringChar.quote_ne_nil heq
  refine ⟨?_, hr⟩
  rw [← StringChar.flatMap_units s, hchars, StringChar.flatMap_units]

/-! ## Trees -/

/-- The texts of numbers and strings in the engine. -/
def NumberText.code (nt : NumberText) : JsonCode FiniteDouble JsString where
  number := nt.text
  string := toQuotedString

theorem NumberText.readable (nt : NumberText) : nt.code.Readable where
  number := readsBack_of_all (fun _ h => h) nt.chars nt.injective
  numberHead q := by
    show ∃ c t, nt.text q = c :: t ∧ isNumberChar c = true
    have hchars := nt.chars q
    cases hq : nt.text q with
    | nil => exact absurd hq (nt.nonempty q)
    | cons c t => exact ⟨c, t, rfl, hchars c (by rw [hq]; exact List.mem_cons_self)⟩
  string := toQuotedString_readsBack
  stringHead s := ⟨_, rfl⟩

/-- What a number shows in JSON. -/
def numberTree : Double → JsonTree FiniteDouble JsString
  | .finite q => .number q
  | .negZero => .number .zero
  | .inf _ | .nan => .null

mutual

/-- What a value shows in JSON. An element of an array that is not shown leaves `null`. -/
def jsonTree : JsValue → JsonTree FiniteDouble JsString
  | .bool b => .bool b
  | .number n => numberTree n.toDouble
  | .string s => .string s
  | .array elems => .array (treeElems elems)
  | .object _ props => .object (treeProps props)
  | _ => .null

/-- What the elements of an array show. -/
def treeElems : List JsValue → List (JsonTree FiniteDouble JsString)
  | [] => []
  | v :: vs => jsonTree v :: treeElems vs

/-- What the properties of an object show. -/
def treeProps : List (JsString × JsValue) → List (JsString × JsonTree FiniteDouble JsString)
  | [] => []
  | (k, v) :: props => if v.isShown then (k, jsonTree v) :: treeProps props else treeProps props

end

theorem allLooseData_iff {vs : List JsValue} :
    allLooseData vs = true ↔ ∀ v ∈ vs, isLooseData v = true := by
  induction vs with
  | nil => simp [allLooseData]
  | cons v vs ih => simp [allLooseData, ih]

theorem allLooseProps_iff {props : List (JsString × JsValue)} :
    allLooseProps props = true ↔ ∀ e ∈ props, isLooseData e.2 = true := by
  induction props with
  | nil => simp [allLooseProps]
  | cons e props ih => simp [allLooseProps, ih]

variable (nt : NumberText)

theorem numberToStr_eq (d : Double) : numberToStr nt d = (numberTree d).print nt.code := by
  cases d with
  | finite q => rfl
  | negZero => rfl
  | inf b => rfl
  | nan => rfl

theorem jsonTree_of_not_isShown {v : JsValue} (h : v.isShown = false) : jsonTree v = .null := by
  cases v <;> first | rfl | cases h

theorem jsonElems_eq {vs : List JsValue}
    (h : ∀ v ∈ vs, v.isShown = true → jsonToStr nt v = .ok ((jsonTree v).print nt.code)) :
    jsonElems nt vs = .ok (JsonTree.printElems nt.code (treeElems vs)) := by
  induction vs with
  | nil => rfl
  | cons v vs ih =>
    have hrest := ih fun w hw => h w (List.mem_cons_of_mem _ hw)
    have hv : (if v.isShown then jsonToStr nt v else .ok (js "null")) =
        .ok ((jsonTree v).print nt.code) := by
      cases hs : v.isShown with
      | true => exact h v List.mem_cons_self hs
      | false =>
        rw [jsonTree_of_not_isShown hs]
        rfl
    rw [jsonElems, hv, hrest]
    rfl

theorem jsonProps_eq {props : List (JsString × JsValue)}
    (h : ∀ e ∈ props, e.2.isShown = true → jsonToStr nt e.2 = .ok ((jsonTree e.2).print nt.code)) :
    jsonProps nt props = .ok (JsonTree.printMembers nt.code (treeProps props)) := by
  induction props with
  | nil => rfl
  | cons e props ih =>
    obtain ⟨k, v⟩ := e
    have hrest := ih fun f hf => h f (List.mem_cons_of_mem _ hf)
    cases hs : v.isShown with
    | true =>
      have hv : jsonToStr nt v = .ok ((jsonTree v).print nt.code) := h (k, v) List.mem_cons_self hs
      rw [jsonProps, if_pos hs, hv, hrest, treeProps, if_pos hs]
      rfl
    | false =>
      rw [jsonProps, if_neg (by simp [hs]), hrest, treeProps, if_neg (by simp [hs])]

/-- The text of data is that of what it shows. -/
theorem jsonToStr_eq {v : JsValue} (hv : isLooseData v = true) (hs : v.isShown = true) :
    jsonToStr nt v = .ok ((jsonTree v).print nt.code) := by
  induction v using JsValue.induction_on with
  | null => rfl
  | bool b => cases b <;> rfl
  | number n => exact congrArg Except.ok (numberToStr_eq nt n.toDouble)
  | string s => rfl
  | array elems ih =>
    rw [isLooseData, allLooseData_iff] at hv
    rw [jsonToStr, jsonElems_eq nt fun w hw hws => ih w hw (hv w hw) hws]
    rfl
  | object proto props _ ih =>
    rw [isLooseData, Bool.and_eq_true, allLooseProps_iff] at hv
    rw [jsonToStr, jsonProps_eq nt fun e he hes => ih e he (hv.2 e he) hes]
    rfl
  | undefined => cases hs
  | symbol i => cases hs
  | func i => cases hs
  | bigint n => cases hv
  | error m s => cases hv
  | promise => cases hv

/-- Two values have the same text exactly if they show the same. -/
theorem stringify_eq_iff {a b : JsValue} (ha : isLooseData a = true) (hb : isLooseData b = true) :
    stringify nt a = stringify nt b ↔ a.isShown = b.isShown ∧ jsonTree a = jsonTree b := by
  rw [stringify, stringify]
  cases has : a.isShown with
  | true =>
    rw [if_pos rfl, jsonToStr_eq nt ha has]
    cases hbs : b.isShown with
    | true =>
      rw [if_pos rfl, jsonToStr_eq nt hb hbs]
      constructor
      · intro h
        simp only [Except.map, Except.ok.injEq, Option.some.injEq] at h
        exact ⟨rfl, JsonTree.print_injective nt.readable h⟩
      · rintro ⟨-, h⟩
        rw [h]
    | false => simp [Except.map]
  | false =>
    rw [jsonTree_of_not_isShown has]
    cases hbs : b.isShown with
    | true =>
      rw [if_pos rfl, jsonToStr_eq nt hb hbs]
      simp [Except.map]
    | false => simp [jsonTree_of_not_isShown hbs]

/-! ## A decimal notation -/

/-- The decimal digits of a natural number. -/
def decimalText (n : ℕ) : JsString :=
  (if n = 0 then [0] else Nat.digits 10 n).reverse.map fun d => UInt16.ofNat (48 + d)

theorem decimalText_digits {n d : ℕ} (h : d ∈ if n = 0 then [0] else Nat.digits 10 n) : d < 10 := by
  split at h
  · obtain rfl := List.mem_singleton.mp h
    decide
  · exact Nat.digits_lt_base (by decide) h

theorem ofDigits_decimalText (n : ℕ) :
    Nat.ofDigits 10 ((decimalText n).reverse.map fun c => c.toNat - 48) = n := by
  have hdigit : ∀ d ∈ (if n = 0 then [0] else Nat.digits 10 n),
      ((fun c : UInt16 => c.toNat - 48) ∘ fun d => UInt16.ofNat (48 + d)) d = id d := by
    intro d hd
    have := decimalText_digits hd
    rw [Function.comp_apply, UInt16.toNat_ofNat', id]
    omega
  rw [decimalText, ← List.map_reverse, List.reverse_reverse, List.map_map,
    List.map_congr_left hdigit, List.map_id]
  split
  · rename_i h
    rw [h]
    rfl
  · exact Nat.ofDigits_digits 10 n

theorem decimalText_injective (m n : ℕ) (h : decimalText m = decimalText n) : m = n := by
  rw [← ofDigits_decimalText m, h, ofDigits_decimalText]

/-- A decimal digit. -/
def isDigit (c : UInt16) : Bool := 48 ≤ c && c ≤ 57

theorem isDigit_decimalText (n : ℕ) : ∀ c ∈ decimalText n, isDigit c = true := by
  intro c hc
  obtain ⟨d, hd, rfl⟩ := List.mem_map.mp hc
  have hlt := decimalText_digits (List.mem_reverse.mp hd)
  have hall : ∀ d < 10, isDigit (UInt16.ofNat (48 + d)) = true := by decide
  exact hall d hlt

theorem decimalText_ne_nil (n : ℕ) : decimalText n ≠ [] := by
  intro h
  rw [decimalText, List.map_eq_nil_iff, List.reverse_eq_nil_iff] at h
  split at h
  · cases h
  · rename_i hn
    exact hn (Nat.digits_eq_nil_iff_eq_zero.mp h)

/-- The denominator of a double is a power of two. -/
theorem FiniteDouble.den_eq (q : FiniteDouble) : q.val.den = 2 ^ q.val.den.log2 := by
  have hpow : ∃ n : ℕ, q.val.den ∣ 2 ^ n := by
    obtain ⟨m, e, -, -, -, hval⟩ := q.isDouble
    rcases Int.le_total 0 e with he | he
    · refine ⟨0, ?_⟩
      obtain ⟨n, rfl⟩ := Int.eq_ofNat_of_zero_le he
      have hint : q.val = ((m * 2 ^ n : ℤ) : ℚ) := by
        rw [hval]
        push_cast
        rfl
      rw [hint, Rat.den_intCast, pow_zero]
    · obtain ⟨n, hn⟩ := Int.eq_ofNat_of_zero_le (Int.neg_nonneg.mpr he)
      have hdiv : q.val = Rat.divInt m ((2 ^ n : ℕ) : ℤ) := by
        rw [hval, Rat.divInt_eq_div, ← neg_neg e, hn, zpow_neg]
        push_cast
        rw [div_eq_mul_inv]
        rfl
      refine ⟨n, ?_⟩
      have := Rat.den_dvd m ((2 ^ n : ℕ) : ℤ)
      rw [← hdiv] at this
      exact Int.natCast_dvd_natCast.mp this
  obtain ⟨n, hn⟩ := hpow
  obtain ⟨k, -, hk⟩ := (Nat.dvd_prime_pow Nat.prime_two).mp hn
  rw [hk, Nat.log2_two_pow]

/-- `m` or `me-k`, which stands for the number exactly. -/
def exactText (q : FiniteDouble) : JsString :=
  (if q.val.num < 0 then [45] else []) ++ decimalText (q.val.num.natAbs * 5 ^ q.val.den.log2) ++
    if q.val.den.log2 = 0 then [] else 101 :: 45 :: decimalText q.val.den.log2

theorem stops_exponent (k : ℕ) :
    Stops (isDigit · = false) (if k = 0 then [] else 101 :: 45 :: decimalText k) := by
  intro c hc
  split at hc
  · cases hc
  · cases hc
    decide

theorem exponent_injective {k l : ℕ}
    (h : (if k = 0 then [] else 101 :: 45 :: decimalText k) =
      if l = 0 then [] else (101 : UInt16) :: 45 :: decimalText l) : k = l := by
  split at h
  · rename_i hk
    split at h
    · rename_i hl
      rw [hk, hl]
    · cases h
  · split at h
    · cases h
    · exact decimalText_injective k l (List.cons_eq_cons.mp (List.cons_eq_cons.mp h).2).2

/-- The sign, the digits and the exponent can be told from the text. -/
theorem exactText_injective (p q : FiniteDouble) (h : exactText p = exactText q) : p = q := by
  have hreads (n : ℕ) : ReadsBack (isDigit · = false) decimalText n :=
    readsBack_of_all (fun _ h => h) isDigit_decimalText decimalText_injective n
  have hsign (n : ℕ) (r t : JsString) : decimalText n ++ r ≠ 45 :: t := by
    have hdigits := isDigit_decimalText n
    cases hn : decimalText n with
    | nil => exact absurd hn (decimalText_ne_nil n)
    | cons c s =>
      rintro heq
      obtain rfl : c = 45 := (List.cons_eq_cons.mp heq).1
      have := hdigits 45 (by rw [hn]; exact List.mem_cons_self)
      revert this
      decide
  have hparts : (p.val.num < 0 ↔ q.val.num < 0) ∧
      p.val.num.natAbs * 5 ^ p.val.den.log2 = q.val.num.natAbs * 5 ^ q.val.den.log2 ∧
      p.val.den.log2 = q.val.den.log2 := by
    simp only [exactText, List.append_assoc] at h
    by_cases hp : p.val.num < 0
    · by_cases hq : q.val.num < 0
      · rw [if_pos hp, if_pos hq] at h
        obtain ⟨hd, he⟩ := hreads _ (stops_exponent _) (stops_exponent _)
          (List.append_cancel_left h)
        exact ⟨iff_of_true hp hq, hd, exponent_injective he⟩
      · rw [if_pos hp, if_neg hq] at h
        exact absurd h.symm (hsign _ _ _)
    · by_cases hq : q.val.num < 0
      · rw [if_neg hp, if_pos hq] at h
        exact absurd h (hsign _ _ _)
      · rw [if_neg hp, if_neg hq] at h
        obtain ⟨hd, he⟩ := hreads _ (stops_exponent _) (stops_exponent _) h
        exact ⟨iff_of_false hp hq, hd, exponent_injective he⟩
  obtain ⟨hsgn, hnum, hlog⟩ := hparts
  have hden : p.val.den = q.val.den := by rw [p.den_eq, q.den_eq, hlog]
  rw [hlog] at hnum
  have habs := Nat.eq_of_mul_eq_mul_right (Nat.pow_pos (by decide)) hnum
  exact FiniteDouble.ext (Rat.ext (by omega) hden)

/-- The exact decimal notation. On whole numbers it is that of the engine, which shortens others. -/
def NumberText.exact : NumberText where
  text := exactText
  injective := exactText_injective
  nonempty q := by
    rw [exactText, List.append_assoc]
    exact fun h => decimalText_ne_nil _ (List.append_eq_nil_iff.mp (List.append_eq_nil_iff.mp h).2).1
  chars q c hc := by
    have hdigit {n : ℕ} (h : c ∈ decimalText n) : isNumberChar c = true := by
      have := isDigit_decimalText n c h
      simp only [isDigit] at this
      simp [isNumberChar, this]
    rw [exactText, List.append_assoc, List.mem_append, List.mem_append] at hc
    rcases hc with hc | hc | hc
    · split at hc
      · obtain rfl := List.mem_singleton.mp hc
        decide
      · cases hc
    · exact hdigit hc
    · split at hc
      · cases hc
      · rcases List.mem_cons.mp hc with rfl | hc
        · decide
        · rcases List.mem_cons.mp hc with rfl | hc
          · decide
          · exact hdigit hc

end BeamJS
