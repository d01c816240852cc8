import BeamJS.Js.JsString
import Mathlib.Data.List.Basic

/-!
# Proofs: strings survive the crossing to bytes and back

`newStringLen` undoes `toCStringLen` on every string, unmatched surrogates included. The NUL bytes
of a string's UTF-8 form are its NUL characters, so cutting the form at its first NUL cuts the
string there.
-/

namespace BeamJS

namespace Utf8

theorem tail_toNat (c : Nat) : (tail c).toNat = c % 64 + 128 := by
  have h : ∀ x < 64, x ||| 0x80 = x + 128 := by decide
  have hm : c &&& 0x3f = c % 64 := Nat.and_two_pow_sub_one_eq_mod c 6
  have hlt : c % 64 < 64 := Nat.mod_lt _ (by decide)
  rw [tail, hm, h _ hlt, UInt8.toNat_ofNat']
  omega

/-- The first byte of a character of two bytes or more. -/
theorem first_toNat {x m k : Nat} (hx : x < k) (hk : k ≤ 64) (hm : ∀ y < k, y ||| m = y + m)
    (hb : m + k ≤ 256) : (UInt8.ofNat (x ||| m)).toNat = x + m := by
  rw [hm x hx, UInt8.toNat_ofNat']
  omega

/-- One round of the loop over the following bytes. -/
theorem readTail_tail (l c d : Nat) (p : Bytes) :
    readTail (l + 1) c (tail d :: p) = readTail l (c * 64 + d % 64) p := by
  have hd : d % 64 < 64 := Nat.mod_lt _ (by decide)
  have hand : ∀ x < 64, (x + 128) &&& 0x3f = x := by decide
  have hor : (c <<< 6) ||| (d % 64) = c * 64 + d % 64 := by
    rw [← Nat.shiftLeft_add_eq_or_of_lt (by simpa using hd), Nat.shiftLeft_eq]
  have hguard : ¬ ((tail d).toNat < 0x80 ∨ 0xc0 ≤ (tail d).toNat) := by
    rw [tail_toNat]; omega
  rw [readTail, if_neg hguard, tail_toNat, hand _ hd, hor]

/-- Reading a character of two bytes or more whose following bytes are read. -/
theorem unicodeFromUtf8_of_first {b : UInt8} {l c : Nat} {p rest : Bytes} (hb : ¬ b.toNat < 0x80)
    (hf : followers b.toNat = some l) (hl : l ≤ p.length)
    (hr : readTail l (b.toNat &&& firstCodeMask l) p = some (c, rest)) (hmin : minCode l ≤ c) :
    unicodeFromUtf8 (b :: p) = some (c, rest) := by
  simp only [unicodeFromUtf8, if_neg hb, hf, hr]
  rw [if_neg (by omega), if_neg (by omega)]

/-- Reading back the bytes of one character. -/
theorem unicodeFromUtf8_append {c : Nat} (hc : c < 0x110000) (p : Bytes) :
    unicodeFromUtf8 (unicodeToUtf8 c ++ p) = some (c, p) := by
  have hs6 : c >>> 6 = c / 64 := Nat.shiftRight_eq_div_pow c 6
  have hs12 : c >>> 12 = c / 4096 := Nat.shiftRight_eq_div_pow c 12
  have hs18 : c >>> 18 = c / 262144 := Nat.shiftRight_eq_div_pow c 18
  unfold unicodeToUtf8
  by_cases h1 : c < 0x80
  · have hb : (UInt8.ofNat c).toNat = c := by rw [UInt8.toNat_ofNat']; omega
    simp [h1, unicodeFromUtf8, hb]
  rw [if_neg h1]
  by_cases h2 : c < 0x800
  · have hb := first_toNat (x := c >>> 6) (m := 0xc0) (k := 32) (by omega) (by omega) (by decide)
      (by omega)
    have hm : ∀ x < 32, (x + 0xc0) &&& firstCodeMask 1 = x := by decide
    simp only [if_pos h2, List.cons_append, List.nil_append]
    refine unicodeFromUtf8_of_first (l := 1) (by omega) ?_ (by simp) ?_ (by simp [minCode]; omega)
    · rw [hb, followers, if_neg (by omega), if_pos (by omega)]
    · rw [hb, hm _ (by omega), readTail_tail, readTail]
      congr 2; omega
  rw [if_neg h2]
  by_cases h3 : c < 0x10000
  · have hb := first_toNat (x := c >>> 12) (m := 0xe0) (k := 16) (by omega) (by omega) (by decide)
      (by omega)
    have hm : ∀ x < 16, (x + 0xe0) &&& firstCodeMask 2 = x := by decide
    simp only [if_pos h3, List.cons_append, List.nil_append]
    refine unicodeFromUtf8_of_first (l := 2) (by omega) ?_ (by simp) ?_ (by simp [minCode]; omega)
    · rw [hb, followers, if_neg (by omega), if_neg (by omega), if_pos (by omega)]
    · rw [hb, hm _ (by omega), readTail_tail, readTail_tail, readTail]
      congr 2; omega
  have hb := first_toNat (x := c >>> 18) (m := 0xf0) (k := 8) (by omega) (by omega) (by decide)
    (by omega)
  have hm : ∀ x < 8, (x + 0xf0) &&& firstCodeMask 3 = x := by decide
  simp only [if_neg h3, if_pos (show c < 0x200000 by omega), List.cons_append, List.nil_append]
  refine unicodeFromUtf8_of_first (l := 3) (by omega) ?_ (by simp) ?_ (by simp [minCode]; omega)
  · rw [hb, followers, if_neg (by omega), if_neg (by omega), if_neg (by omega), if_pos (by omega)]
  · rw [hb, hm _ (by omega), readTail_tail, readTail_tail, readTail_tail, readTail]
    congr 2; omega

theorem tail_congr {c d : Nat} (h : c % 64 = d % 64) : tail c = tail d := by
  refine UInt8.toNat_inj.mp ?_
  rw [tail_toNat, tail_toNat, h]

/-- A following byte that is read contributes its last six bits. -/
theorem readTail_succ {l c : Nat} {p : Bytes} {r : Nat × Bytes}
    (h : readTail (l + 1) c p = some r) :
    ∃ d < 64, ∃ q, p = tail d :: q ∧ readTail l (c * 64 + d) q = some r := by
  cases p with
  | nil => cases h
  | cons b q =>
    by_cases hb : b.toNat < 0x80 ∨ 0xc0 ≤ b.toNat
    · rw [readTail, if_pos hb] at h
      cases h
    · have htail : b = tail (b.toNat % 64) := by
        refine UInt8.toNat_inj.mp ?_
        rw [tail_toNat]
        omega
      have hmod : b.toNat % 64 % 64 = b.toNat % 64 := Nat.mod_mod _ _
      rw [htail, readTail_tail, hmod] at h
      exact ⟨b.toNat % 64, Nat.mod_lt _ (by decide), q, congrArg (· :: q) htail, h⟩

/-- The first byte of a character of two bytes or more is made of its mark and its bits. -/
theorem first_eq {b : UInt8} {x m k : Nat} (hx : x < k) (hk : k ≤ 64)
    (hm : ∀ y < k, y ||| m = y + m)
    (hb : b.toNat = x + m) (hlt : m + k ≤ 256) : b = UInt8.ofNat (x ||| m) := by
  refine UInt8.toNat_inj.mp ?_
  rw [first_toNat hx hk hm hlt, hb]

/-- What was read of a character of two bytes or more. -/
theorem readTail_of_unicodeFromUtf8 {b : UInt8} {p rest : Bytes} {c : Nat} (hb : ¬ b.toNat < 0x80)
    (h : unicodeFromUtf8 (b :: p) = some (c, rest)) :
    ∃ l, followers b.toNat = some l ∧ minCode l ≤ c ∧
      readTail l (b.toNat &&& firstCodeMask l) p = some (c, rest) := by
  rw [unicodeFromUtf8, if_neg hb] at h
  cases hl : followers b.toNat with
  | none =>
    rw [hl] at h
    cases h
  | some l =>
    simp only [hl] at h
    split at h
    · cases h
    cases hr : readTail l (b.toNat &&& firstCodeMask l) p with
    | none =>
      rw [hr] at h
      cases h
    | some r =>
      simp only [hr] at h
      split at h
      · cases h
      · rename_i hmin
        have hrc : r = (c, rest) := Option.some.inj h
        rw [hrc] at hr hmin
        exact ⟨l, rfl, Nat.le_of_not_lt hmin, hr⟩

/-- A character that is read was written as `unicode_to_utf8` writes it. -/
theorem eq_append_of_unicodeFromUtf8 {p : Bytes} {c : Nat} {rest : Bytes}
    (h : unicodeFromUtf8 p = some (c, rest)) (hc : c < 0x110000) :
    p = unicodeToUtf8 c ++ rest := by
  have hs6 : c >>> 6 = c / 64 := Nat.shiftRight_eq_div_pow c 6
  have hs12 : c >>> 12 = c / 4096 := Nat.shiftRight_eq_div_pow c 12
  have hs18 : c >>> 18 = c / 262144 := Nat.shiftRight_eq_div_pow c 18
  cases p with
  | nil => cases h
  | cons b p =>
    by_cases hb : b.toNat < 0x80
    · rw [unicodeFromUtf8, if_pos hb] at h
      obtain ⟨rfl, rfl⟩ := Prod.mk.inj (Option.some.inj h)
      rw [unicodeToUtf8, if_pos hb, UInt8.ofNat_toNat]
      rfl
    have hlt := b.toNat_lt
    obtain ⟨l, hl, hmin, hr⟩ := readTail_of_unicodeFromUtf8 hb h
    -- a code point needs at most three following bytes
    unfold followers at hl
    split_ifs at hl with h1 h2 h3 h4 h5 h6 <;> obtain rfl := Option.some.inj hl
    · have hmask : b.toNat &&& firstCodeMask 1 = b.toNat % 32 :=
        Nat.and_two_pow_sub_one_eq_mod _ 5
      obtain ⟨d, hd, q, rfl, hr1⟩ := readTail_succ hr
      obtain ⟨hcode, rfl⟩ := Prod.mk.inj (Option.some.inj hr1)
      rw [hmask] at hcode
      have hge : ¬ c < 0x80 := Nat.not_lt.mpr hmin
      have hfirst := first_eq (b := b) (x := c >>> 6) (m := 0xc0) (k := 32) (by omega) (by omega)
        (by decide) (by omega) (by omega)
      have ht : tail c = tail d := tail_congr (by omega)
      simp only [unicodeToUtf8, if_neg hge, if_pos (show c < 0x800 by omega), ← hfirst, ht,
        List.cons_append, List.nil_append]
    · have hmask : b.toNat &&& firstCodeMask 2 = b.toNat % 16 :=
        Nat.and_two_pow_sub_one_eq_mod _ 4
      obtain ⟨d1, hd1, q1, rfl, hr1⟩ := readTail_succ hr
      obtain ⟨d2, hd2, q2, rfl, hr2⟩ := readTail_succ hr1
      obtain ⟨hcode, rfl⟩ := Prod.mk.inj (Option.some.inj hr2)
      rw [hmask] at hcode
      have hge : ¬ c < 0x800 := Nat.not_lt.mpr hmin
      have hfirst := first_eq (b := b) (x := c >>> 12) (m := 0xe0) (k := 16) (by omega) (by omega)
        (by decide) (by omega) (by omega)
      have ht1 : tail (c >>> 6) = tail d1 := tail_congr (by omega)
      have ht2 : tail c = tail d2 := tail_congr (by omega)
      simp only [unicodeToUtf8, if_neg hge, if_neg (show ¬ c < 0x80 by omega),
        if_pos (show c < 0x10000 by omega), ← hfirst, ht1, ht2, List.cons_append, List.nil_append]
    · have hmask : b.toNat &&& firstCodeMask 3 = b.toNat % 8 :=
        Nat.and_two_pow_sub_one_eq_mod _ 3
      obtain ⟨d1, hd1, q1, rfl, hr1⟩ := readTail_succ hr
      obtain ⟨d2, hd2, q2, rfl, hr2⟩ := readTail_succ hr1
      obtain ⟨d3, hd3, q3, rfl, hr3⟩ := readTail_succ hr2
      obtain ⟨hcode, rfl⟩ := Prod.mk.inj (Option.some.inj hr3)
      rw [hmask] at hcode
      have hge : ¬ c < 0x10000 := Nat.not_lt.mpr hmin
      have hfirst := first_eq (b := b) (x := c >>> 18) (m := 0xf0) (k := 8) (by omega) (by omega)
        (by decide) (by omega) (by omega)
      have ht1 : tail (c >>> 12) = tail d1 := tail_congr (by omega)
      have ht2 : tail (c >>> 6) = tail d2 := tail_congr (by omega)
      have ht3 : tail c = tail d3 := tail_congr (by omega)
      simp only [unicodeToUtf8, if_neg hge, if_neg (show ¬ c < 0x80 by omega),
        if_neg (show ¬ c < 0x800 by omega), if_pos (show c < 0x200000 by omega), ← hfirst, ht1, ht2,
        ht3, List.cons_append, List.nil_append]
    · have hge : 0x200000 ≤ c := hmin
      omega
    · have hge : 0x4000000 ≤ c := hmin
      omega

theorem unicodeToUtf8_ne_nil {c : Nat} (hc : c < 0x110000) : unicodeToUtf8 c ≠ [] := by
  unfold unicodeToUtf8
  split_ifs <;> simp
  omega

/-- Only the character NUL has a NUL byte. -/
theorem unicodeToUtf8_ne_zero {c : Nat} (hc : c < 0x110000) (h0 : c ≠ 0) :
    ∀ b ∈ unicodeToUtf8 c, b ≠ 0 := by
  have htail : ∀ d, tail d ≠ 0 := by
    intro d h
    have := tail_toNat d
    rw [h] at this
    simp at this
  have hfirst : ∀ x m, 0 < m → m < 256 → x < 64 → (∀ y < 64, y ||| m < 256 ∧ 0 < y ||| m) →
      UInt8.ofNat (x ||| m) ≠ 0 := by
    intro x m _ _ hx hm h
    obtain ⟨h1, h2⟩ := hm x hx
    have := congrArg UInt8.toNat h
    rw [UInt8.toNat_ofNat', Nat.mod_eq_of_lt h1] at this
    simp at this
    omega
  have hs6 : c >>> 6 = c / 64 := Nat.shiftRight_eq_div_pow c 6
  have hs12 : c >>> 12 = c / 4096 := Nat.shiftRight_eq_div_pow c 12
  have hs18 : c >>> 18 = c / 262144 := Nat.shiftRight_eq_div_pow c 18
  intro b hb
  unfold unicodeToUtf8 at hb
  by_cases h1 : c < 0x80
  · have hb' : b = UInt8.ofNat c := by simpa [h1] using hb
    intro hz
    have := congrArg UInt8.toNat (hb'.symm.trans hz)
    rw [UInt8.toNat_ofNat'] at this
    simp at this
    omega
  rw [if_neg h1] at hb
  by_cases h2 : c < 0x800
  · simp only [if_pos h2, List.mem_cons, List.not_mem_nil, or_false] at hb
    rcases hb with rfl | rfl
    · exact hfirst _ _ (by omega) (by omega) (by omega) (by decide)
    · exact htail _
  rw [if_neg h2] at hb
  by_cases h3 : c < 0x10000
  · simp only [if_pos h3, List.mem_cons, List.not_mem_nil, or_false] at hb
    rcases hb with rfl | rfl | rfl
    · exact hfirst _ _ (by omega) (by omega) (by omega) (by decide)
    · exact htail _
    · exact htail _
  simp only [if_neg h3, if_pos (show c < 0x200000 by omega), List.mem_cons, List.not_mem_nil,
    or_false] at hb
  rcases hb with rfl | rfl | rfl | rfl
  · exact hfirst _ _ (by omega) (by omega) (by omega) (by decide)
  · exact htail _
  · exact htail _
  · exact htail _

/-- One round of `JS_NewStringLen` over the bytes of one character. -/
theorem newStringLoop_char {c : Nat} (hc : c < 0x110000) (fuel : Nat) (p : Bytes) :
    newStringLoop (fuel + 1) (unicodeToUtf8 c ++ p) =
      (if c < 0x10000 then [UInt16.ofNat c]
        else [UInt16.ofNat (((c - 0x10000) >>> 10) + 0xd800),
          UInt16.ofNat (((c - 0x10000) &&& 0x3ff) + 0xdc00)]) ++ newStringLoop fuel p := by
  have hread := unicodeFromUtf8_append hc p
  cases hbs : unicodeToUtf8 c ++ p with
  | nil =>
    have hnil := (List.append_eq_nil_iff.mp hbs).1
    exact absurd hnil (unicodeToUtf8_ne_nil hc)
  | cons b q =>
    rw [hbs] at hread
    rw [newStringLoop]
    by_cases hb : b.toNat < 0x80
    · have hcb : b.toNat = c ∧ q = p := by
        simpa [unicodeFromUtf8, hb] using hread
      obtain ⟨rfl, rfl⟩ := hcb
      rw [if_pos hb, if_pos (by omega)]
      rfl
    · simp only [if_neg hb, hread]
      by_cases hc' : c < 0x10000
      · rw [if_pos hc', if_pos hc']
        rfl
      · rw [if_neg hc', if_neg hc', if_pos (by omega)]
        rfl

/-- The two halves of a surrogate pair are found again in its code point. -/
theorem pairCode_halves {c c1 : UInt16} (hc : isHigh c) (hc1 : isLow c1) :
    pairCode c c1 < 0x110000 ∧ ¬ pairCode c c1 < 0x10000 ∧
      UInt16.ofNat (((pairCode c c1 - 0x10000) >>> 10) + 0xd800) = c ∧
      UInt16.ofNat (((pairCode c c1 - 0x10000) &&& 0x3ff) + 0xdc00) = c1 := by
  simp only [isHigh, isLow, Bool.and_eq_true, decide_eq_true_eq] at hc hc1
  have hm : ∀ x : Nat, x &&& 0x3ff = x % 1024 := fun x => Nat.and_two_pow_sub_one_eq_mod x 10
  have hlo : c1.toNat % 1024 < 2 ^ 10 := Nat.mod_lt _ (by decide)
  have hp : pairCode c c1 = c.toNat % 1024 * 1024 + c1.toNat % 1024 + 0x10000 := by
    rw [pairCode, hm, hm, ← Nat.shiftLeft_add_eq_or_of_lt hlo, Nat.shiftLeft_eq]
  have hs : (pairCode c c1 - 0x10000) >>> 10 = (pairCode c c1 - 0x10000) / 1024 :=
    Nat.shiftRight_eq_div_pow _ 10
  refine ⟨by omega, by omega, ?_, ?_⟩
  · rw [hs, show (pairCode c c1 - 0x10000) / 1024 + 0xd800 = c.toNat by omega]
    exact UInt16.ofNat_toNat
  · rw [hm, show (pairCode c c1 - 0x10000) % 1024 + 0xdc00 = c1.toNat by omega]
    exact UInt16.ofNat_toNat

/-- With enough fuel, the loop of `JS_NewStringLen` reads back the string. -/
theorem newStringLoop_toCStringLen (s : JsString) (fuel : Nat)
    (hf : (toCStringLen s).length ≤ fuel) :
    newStringLoop fuel (toCStringLen s) = s := by
  have hlt : ∀ c : UInt16, c.toNat < 0x10000 := fun c => c.toNat_lt
  have hpos : ∀ c < 0x110000, 0 < (unicodeToUtf8 c).length := fun c hc =>
    List.length_pos_iff.mpr (unicodeToUtf8_ne_nil hc)
  fun_induction toCStringLen s generalizing fuel with
  | case1 => cases fuel <;> rfl
  | case2 c =>
    have hc := hlt c
    have h1 := hpos c.toNat (by omega)
    obtain ⟨n, rfl⟩ : ∃ n, fuel = n + 1 := ⟨fuel - 1, by omega⟩
    have hstep := newStringLoop_char (c := c.toNat) (by omega) n []
    rw [List.append_nil] at hstep
    rw [hstep, if_pos hc, UInt16.ofNat_toNat]
    cases n <;> rfl
  | case3 c c1 s h ih =>
    obtain ⟨h1, h2⟩ := Bool.and_eq_true_iff.mp h
    obtain ⟨hp, hp', hhigh, hlow⟩ := pairCode_halves h1 h2
    have hl := hpos _ hp
    rw [List.length_append] at hf
    obtain ⟨n, rfl⟩ : ∃ n, fuel = n + 1 := ⟨fuel - 1, by omega⟩
    rw [newStringLoop_char hp, if_neg hp', hhigh, hlow, ih n (by omega)]
    rfl
  | case4 c c1 s h ih =>
    have hc := hlt c
    have hl := hpos c.toNat (by omega)
    rw [List.length_append] at hf
    obtain ⟨n, rfl⟩ : ∃ n, fuel = n + 1 := ⟨fuel - 1, by omega⟩
    rw [newStringLoop_char (by omega), if_pos hc, UInt16.ofNat_toNat, ih n (by omega)]
    rfl

end Utf8

open Utf8

/-- Every string survives the crossing to bytes and back. -/
@[simp] theorem newStringLen_toCStringLen (s : JsString) : newStringLen (toCStringLen s) = s :=
  newStringLoop_toCStringLen s _ (Nat.le_refl _)

theorem toCStringLen_injective {s t : JsString} (h : toCStringLen s = toCStringLen t) : s = t := by
  rw [← newStringLen_toCStringLen s, h, newStringLen_toCStringLen]

theorem cString_append_of_ne_zero {p q : Bytes} (h : ∀ b ∈ p, b ≠ 0) :
    cString (p ++ q) = p ++ cString q := by
  induction p with
  | nil => rfl
  | cons b p ih =>
    have hb : b ≠ 0 := h b (by simp)
    have hp := ih fun x hx => h x (List.mem_cons_of_mem _ hx)
    simp only [cString, List.cons_append] at hp ⊢
    rw [List.takeWhile_cons_of_pos (by simpa using hb), hp]

/-- Cutting the UTF-8 form of a string at its first NUL byte cuts the string at its first NUL. -/
theorem cString_toCStringLen (s : JsString) :
    cString (toCStringLen s) = toCStringLen (s.takeWhile (· ≠ 0)) := by
  fun_induction toCStringLen s with
  | case1 => rfl
  | case2 c =>
    by_cases h0 : c = 0
    · subst h0; decide
    · have hc : c.toNat ≠ 0 := fun h => h0 (by rw [← UInt16.ofNat_toNat (x := c), h]; rfl)
      have hne := unicodeToUtf8_ne_zero (by have := c.toNat_lt; omega) hc
      have := cString_append_of_ne_zero (q := []) hne
      simp only [List.append_nil] at this
      rw [this, List.takeWhile_cons_of_pos (by simpa using h0)]
      simp [cString, toCStringLen]
  | case3 c c1 s h ih =>
    obtain ⟨h1, h2⟩ := Bool.and_eq_true_iff.mp h
    obtain ⟨hp, hp', -, -⟩ := pairCode_halves h1 h2
    have hc0 : c ≠ 0 := by rintro rfl; simp [isHigh] at h1
    have hc10 : c1 ≠ 0 := by rintro rfl; simp [isLow] at h2
    rw [cString_append_of_ne_zero (unicodeToUtf8_ne_zero hp (by omega)), ih,
      List.takeWhile_cons_of_pos (by simpa using hc0),
      List.takeWhile_cons_of_pos (by simpa using hc10), toCStringLen, if_pos h]
  | case4 c c1 s h ih =>
    by_cases h0 : c = 0
    · subst h0
      simp [unicodeToUtf8, cString, toCStringLen]
    · have hc : c.toNat ≠ 0 := fun h => h0 (by rw [← UInt16.ofNat_toNat (x := c), h]; rfl)
      have hne := unicodeToUtf8_ne_zero (by have := c.toNat_lt; omega) hc
      have hout : (c :: c1 :: s).takeWhile (· ≠ 0) = c :: (c1 :: s).takeWhile (· ≠ 0) :=
        List.takeWhile_cons_of_pos (by simpa using h0)
      rw [cString_append_of_ne_zero hne, ih, hout]
      by_cases h10 : c1 = 0
      · subst h10
        simp [toCStringLen]
      · have hin : (c1 :: s).takeWhile (· ≠ 0) = c1 :: s.takeWhile (· ≠ 0) :=
          List.takeWhile_cons_of_pos (by simpa using h10)
        rw [hin, toCStringLen.eq_3, if_neg h]

/-! ## Strings in ASCII -/

theorem unicodeToUtf8_of_ascii {c : Nat} (h : c < 0x80) : unicodeToUtf8 c = [UInt8.ofNat c] :=
  if_pos h

/-- A character outside ASCII takes more than one byte. -/
theorem two_le_length_unicodeToUtf8 {c : Nat} (h : 0x80 ≤ c) (hc : c < 0x110000) :
    2 ≤ (unicodeToUtf8 c).length := by
  unfold unicodeToUtf8
  split_ifs <;> simp <;> omega

/-- The UTF-8 form of a string is never shorter than the string, and as long only in ASCII. -/
theorem length_toCStringLen (s : JsString) :
    s.length ≤ (toCStringLen s).length ∧
      ((toCStringLen s).length = s.length → ∀ c ∈ s, c.toNat < 0x80) := by
  have hone : ∀ c : UInt16, 1 ≤ (unicodeToUtf8 c.toNat).length ∧
      ((unicodeToUtf8 c.toNat).length = 1 → c.toNat < 0x80) := by
    intro c
    have hc := c.toNat_lt
    by_cases h : c.toNat < 0x80
    · rw [unicodeToUtf8_of_ascii h]
      exact ⟨Nat.le_refl _, fun _ => h⟩
    · have := two_le_length_unicodeToUtf8 (c := c.toNat) (by omega) (by omega)
      omega
  fun_induction toCStringLen s with
  | case1 => simp
  | case2 c => simpa using hone c
  | case3 c c1 s h ih =>
    obtain ⟨h1, h2⟩ := Bool.and_eq_true_iff.mp h
    obtain ⟨hp, hp', -, -⟩ := pairCode_halves h1 h2
    have h4 : (unicodeToUtf8 (pairCode c c1)).length = 4 := by
      unfold unicodeToUtf8
      rw [if_neg (by omega), if_neg (by omega), if_neg hp', if_pos (by omega)]
      rfl
    simp only [List.length_append, List.length_cons, h4]
    omega
  | case4 c c1 s h ih =>
    obtain ⟨hle, heq⟩ := hone c
    rw [List.length_append, List.length_cons]
    refine ⟨by omega, fun hlen => List.forall_mem_cons.mpr ⟨heq (by omega), ih.2 (by omega)⟩⟩

/-- Up to ASCII, the Latin-1 reading of the UTF-8 form is the string itself. -/
theorem latin1_toCStringLen {s : JsString} (h : ∀ c ∈ s, c.toNat < 0x80) :
    latin1 (toCStringLen s) = s := by
  have hone : ∀ c : UInt16, c.toNat < 0x80 → latin1 (unicodeToUtf8 c.toNat) = [c] := by
    intro c hc
    have hb : (UInt8.ofNat c.toNat).toNat = c.toNat := by rw [UInt8.toNat_ofNat']; omega
    rw [unicodeToUtf8_of_ascii hc, latin1, List.map_singleton, hb, UInt16.ofNat_toNat]
  fun_induction toCStringLen s with
  | case1 => rfl
  | case2 c => exact hone c (h c (by simp))
  | case3 c c1 s hs ih =>
    exfalso
    have hc := h c (by simp)
    simp only [isHigh, Bool.and_eq_true, decide_eq_true_eq] at hs
    omega
  | case4 c c1 s hs ih =>
    obtain ⟨hc, hs⟩ := List.forall_mem_cons.mp h
    have happ : latin1 (unicodeToUtf8 c.toNat ++ toCStringLen (c1 :: s)) =
        latin1 (unicodeToUtf8 c.toNat) ++ latin1 (toCStringLen (c1 :: s)) := List.map_append
    rw [happ, hone c hc, ih hs]
    rfl

/-- ASCII is its own Latin-1 and UTF-8 form. -/
theorem toCStringLen_latin1 {b : Bytes} (h : ∀ c ∈ b, c.toNat < 0x80) :
    toCStringLen (latin1 b) = b := by
  have hunit (c : UInt8) (hc : c.toNat < 0x80) :
      unicodeToUtf8 (UInt16.ofNat c.toNat).toNat = [c] ∧ isHigh (UInt16.ofNat c.toNat) = false := by
    have hnat : (UInt16.ofNat c.toNat).toNat = c.toNat := by
      rw [UInt16.toNat_ofNat']
      omega
    rw [isHigh, hnat, unicodeToUtf8_of_ascii hc, UInt8.ofNat_toNat]
    exact ⟨rfl, by simp only [Bool.and_eq_false_iff, decide_eq_false_iff_not]; omega⟩
  induction b with
  | nil => rfl
  | cons c b ih =>
    obtain ⟨hc, hb⟩ := List.forall_mem_cons.mp h
    obtain ⟨hone, hhigh⟩ := hunit c hc
    cases b with
    | nil => exact hone
    | cons d b =>
      show toCStringLen (UInt16.ofNat c.toNat :: UInt16.ofNat d.toNat :: latin1 b) = _
      rw [toCStringLen, hhigh, Bool.false_and, if_neg (by decide), hone]
      exact congrArg ([c] ++ ·) (ih hb)

/-- ASCII is read as it is. -/
theorem newStringLen_of_ascii {b : Bytes} (h : ∀ c ∈ b, c.toNat < 0x80) :
    newStringLen b = latin1 b := by
  conv_lhs => rw [← toCStringLen_latin1 h]
  exact newStringLen_toCStringLen _

/-- The Latin-1 reading of the UTF-8 form is the string itself, or longer. -/
theorem length_le_latin1_toCStringLen (s : JsString) :
    s.length ≤ (latin1 (toCStringLen s)).length ∧
      ((latin1 (toCStringLen s)).length = s.length → latin1 (toCStringLen s) = s) := by
  have hl : (latin1 (toCStringLen s)).length = (toCStringLen s).length := List.length_map ..
  obtain ⟨hle, heq⟩ := length_toCStringLen s
  rw [hl]
  exact ⟨hle, fun h => latin1_toCStringLen (heq h)⟩

end BeamJS
