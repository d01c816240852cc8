import BeamJS.Npm.Launcher
import Mathlib

/-!
# Proofs: which arguments pass through the launcher

Splitting drops characters: quotes, backslashes, white space. Counted without the double quotes, the
result weighs at most what the string does, and as much only if nothing but double quotes and one
space between two arguments was dropped. A list that passes through weighs as much, so that its
arguments are read one by one.
-/

namespace BeamJS

namespace Launcher

variable {rules : SplitRules}

/-! ## Weight -/

/-- The number of characters other than the double quote. -/
def weight (s : Text) : ℕ := s.countP (· ≠ '"')

/-- The weight of a list, with one more for each element. -/
def weights (l : List Text) : ℕ := (l.map fun s => weight s + 1).sum

@[simp] theorem weight_nil : weight [] = 0 := rfl

theorem weight_cons (c : Char) (s : Text) :
    weight (c :: s) = weight s + if c = '"' then 0 else 1 := by
  by_cases h : c = '"' <;> simp [weight, h]

@[simp] theorem weight_append (s t : Text) : weight (s ++ t) = weight s + weight t :=
  List.countP_append ..

@[simp] theorem weights_append (l m : List Text) : weights (l ++ m) = weights l + weights m := by
  simp [weights]

@[simp] theorem weights_singleton (s : Text) : weights [s] = weight s + 1 := by
  simp [weights]

theorem weight_dropWhile_le (p : Char → Bool) (s : Text) : weight (s.dropWhile p) ≤ weight s :=
  (List.dropWhile_sublist p).countP_le

/-- Dropping white space makes a string lighter. -/
theorem weight_dropWhile_lt {s : Text} (h : s.dropWhile rules.isWhite ≠ s) :
    weight (s.dropWhile rules.isWhite) < weight s := by
  cases s with
  | nil => exact absurd rfl h
  | cons c t =>
    by_cases hc : rules.isWhite c = true
    · rw [List.dropWhile_cons_of_pos hc, weight_cons, if_neg (rules.notWhite c hc).1]
      have := weight_dropWhile_le rules.isWhite t
      omega
    · exact absurd (List.dropWhile_cons_of_neg hc) h

/-! ## One step of the splitting -/

/-- A state of the splitting: the string left, the buffer, the arguments read and the open quote. -/
structure State where
  input : Text
  buffer : Text
  acc : List Text
  quote : Option Char

/-- The result from a state. -/
def State.result (rules : SplitRules) (st : State) : Option (List Text) :=
  doSplit rules st.input st.buffer st.acc st.quote

/-- What is at most left of a state in the result. -/
def State.mass (st : State) : ℕ := weight st.input + weight st.buffer + weights st.acc + 1

/-- A move that drops nothing but a double quote, or turns a white space into the end of an
argument. -/
inductive Lossless (rules : SplitRules) : State → State → Prop where
  | keep (c t b acc) (h : c ≠ '"' ∧ c ≠ '\'' ∧ rules.isWhite c = false)
      (hesc : ¬ (c = '\\' ∧ nextEscapable rules t = true)) :
      Lossless rules ⟨c :: t, b, acc, none⟩ ⟨t, b ++ [c], acc, none⟩
  | open (t b acc) : Lossless rules ⟨'"' :: t, b, acc, none⟩ ⟨t, b, acc, some '"'⟩
  | close (t b acc) : Lossless rules ⟨'"' :: t, b, acc, some '"'⟩ ⟨t, b, acc, none⟩
  | keepQuoted (c t b acc) (h : c ≠ '"') (hesc : ¬ (c = '\\' ∧ t.head? = some '"')) :
      Lossless rules ⟨c :: t, b, acc, some '"'⟩ ⟨t, b ++ [c], acc, some '"'⟩
  | separate (c t b acc) (h : rules.isWhite c = true) (htrim : t.dropWhile rules.isWhite = t) :
      Lossless rules ⟨c :: t, b, acc, none⟩ ⟨t, [], acc ++ [b], none⟩

theorem weight_head_tail (t : Text) : weight t = weight t.tail + weight t.head?.toList := by
  cases t with
  | nil => rfl
  | cons c t =>
    rw [weight_cons, List.tail_cons, List.head?_cons, Option.toList_some, weight_cons]
    simp

/-- The result is no heavier than what it is made from. -/
theorem weights_le {s b : Text} {acc out : List Text} {q : Option Char}
    (h : doSplit rules s b acc q = some out) :
    weights out ≤ weight s + weight b + weights acc + 1 := by
  fun_induction doSplit rules s b acc q with
  | case1 b acc =>
    obtain rfl := Option.some.inj h
    split
    · omega
    · simp
      omega
  | case2 => cases h
  | case3 b acc c t q hc ih =>
    have := ih h
    have ht := weight_head_tail t
    rw [hc.2] at ht
    simp only [weight_append, Option.toList_some] at this ht
    rw [weight_cons]
    omega
  | case4 b acc c t _ ih =>
    have := ih h
    rw [weight_cons]
    omega
  | case5 b acc c t q _ _ ih =>
    have := ih h
    simp only [weight_append, weight_cons, weight_nil] at this ⊢
    omega
  | case6 b acc c t hc ih =>
    have := ih h
    rw [weight_cons]
    omega
  | case7 b acc c t _ hc ih =>
    have := ih h
    have ht := weight_head_tail t
    simp only [weight_append] at this
    rw [weight_cons]
    omega
  | case8 b acc c t _ _ hc ih =>
    have := ih h
    have hle := weight_dropWhile_le rules.isWhite t
    simp only [weights_append, weights_singleton, weight_nil] at this
    rw [weight_cons, if_neg (rules.notWhite c hc).1]
    omega
  | case9 b acc c t _ _ _ ih =>
    have := ih h
    simp only [weight_append, weight_cons, weight_nil] at this ⊢
    omega

/-- A state whose result weighs as much as it. -/
structure Tight (rules : SplitRules) (st : State) (out : List Text) : Prop where
  result : st.result rules = some out
  weights : weights out = st.mass
  quote : st.quote = none ∨ st.quote = some '"'

/-- A tight state makes a lossless move to a tight state. -/
theorem Tight.step {c : Char} {t b : Text} {acc out : List Text} {q : Option Char}
    (h : Tight rules ⟨c :: t, b, acc, q⟩ out) :
    ∃ st, Lossless rules ⟨c :: t, b, acc, q⟩ st ∧ Tight rules st out := by
  obtain ⟨hres, hw, hq⟩ := h
  simp only [State.result, State.mass] at hres hw
  rcases hq with hq | hq
  · obtain rfl : q = none := hq
    rw [doSplit] at hres
    by_cases hc : c = '"' ∨ c = '\''
    · rw [if_pos hc] at hres
      rcases hc with rfl | rfl
      · exact ⟨_, .open t b acc, hres, hw, .inr rfl⟩
      · have := weights_le hres
        rw [weight_cons, if_neg (by decide)] at hw
        omega
    rw [if_neg hc] at hres
    push Not at hc
    by_cases hesc : c = '\\' ∧ nextEscapable rules t = true
    · rw [if_pos hesc] at hres
      have := weights_le hres
      have ht := weight_head_tail t
      rw [weight_append] at this
      rw [weight_cons, if_neg hc.1] at hw
      omega
    rw [if_neg hesc] at hres
    by_cases hwhite : rules.isWhite c = true
    · rw [if_pos hwhite] at hres
      have := weights_le hres
      rw [weight_cons, if_neg hc.1] at hw
      have htrim : t.dropWhile rules.isWhite = t := by
        by_contra hne
        have hlt := weight_dropWhile_lt hne
        simp only [weights_append, weights_singleton, weight_nil] at this
        omega
      rw [htrim] at hres
      refine ⟨_, .separate c t b acc hwhite htrim, hres, ?_, .inl rfl⟩
      simp only [State.mass, weights_append, weights_singleton, weight_nil]
      omega
    · rw [if_neg hwhite] at hres
      refine ⟨_, .keep c t b acc ⟨hc.1, hc.2, eq_false_of_ne_true hwhite⟩ hesc, hres, ?_, .inl rfl⟩
      simp only [State.mass, weight_append, weight_cons, weight_nil] at hw ⊢
      omega
  · obtain rfl : q = some '"' := hq
    rw [doSplit] at hres
    by_cases hesc : c = '\\' ∧ t.head? = some '"'
    · rw [if_pos hesc] at hres
      have := weights_le hres
      have ht := weight_head_tail t
      rw [hesc.2, Option.toList_some] at ht
      rw [weight_append] at this
      rw [weight_cons, if_neg (by rw [hesc.1]; decide)] at hw
      omega
    rw [if_neg hesc] at hres
    by_cases hc : c = '"'
    · rw [if_pos hc] at hres
      obtain rfl := hc
      exact ⟨_, .close t b acc, hres, hw, .inl rfl⟩
    · rw [if_neg hc] at hres
      refine ⟨_, .keepQuoted c t b acc hc hesc, hres, ?_, .inr rfl⟩
      simp only [State.mass, weight_append, weight_cons, weight_nil] at hw ⊢
      omega

/-- At the end of the string, the last argument is in the buffer. -/
theorem Tight.finish {b : Text} {acc out : List Text} {q : Option Char}
    (h : Tight rules ⟨[], b, acc, q⟩ out) : q = none ∧ b ≠ [] ∧ out = acc ++ [b] := by
  obtain ⟨hres, hw, hq⟩ := h
  simp only [State.result, State.mass] at hres hw
  rcases hq with hq | hq
  · obtain rfl : q = none := hq
    rw [doSplit] at hres
    obtain rfl := Option.some.inj hres
    by_cases hb : b = []
    · rw [if_pos hb] at hw
      omega
    · exact ⟨rfl, hb, if_neg hb⟩
  · obtain rfl : q = some '"' := hq
    rw [doSplit] at hres
    cases hres

/-! ## Reading one argument -/

/-- What has been read stays. -/
theorem acc_isPrefix {s b : Text} {acc out : List Text} {q : Option Char}
    (h : doSplit rules s b acc q = some out) : acc <+: out := by
  fun_induction doSplit rules s b acc q with
  | case1 b acc =>
    obtain rfl := Option.some.inj h
    split
    · exact List.prefix_rfl
    · exact List.prefix_append ..
  | case2 => cases h
  | case8 b acc c t _ _ _ ih => exact (List.prefix_append ..).trans (ih h)
  | case3 b acc c t q _ ih | case4 b acc c t _ ih | case5 b acc c t q _ _ ih
  | case6 b acc c t _ ih | case7 b acc c t _ _ ih | case9 b acc c t _ _ _ ih => exact ih h

/-- Without escapes and other quotes, no double quote gets into the result. -/
theorem Tight.notMem {s b : Text} {acc out : List Text} {q : Option Char}
    (h : Tight rules ⟨s, b, acc, q⟩ out) (hb : '"' ∉ b) (hacc : ∀ x ∈ acc, '"' ∉ x) :
    ∀ x ∈ out, '"' ∉ x := by
  induction s generalizing b acc q with
  | nil =>
    obtain ⟨-, -, rfl⟩ := h.finish
    intro x hx
    rcases List.mem_append.mp hx with hx | hx
    · exact hacc x hx
    · obtain rfl : x = b := by simpa using hx
      exact hb
  | cons c t ih =>
    obtain ⟨st, hmove, hst⟩ := h.step
    cases hmove with
    | keep _ _ _ _ hc _ => exact ih hst (by simpa using ⟨hb, hc.1.symm⟩) hacc
    | «open» => exact ih hst hb hacc
    | close => exact ih hst hb hacc
    | keepQuoted _ _ _ _ hc _ => exact ih hst (by simpa using ⟨hb, Ne.symm hc⟩) hacc
    | separate =>
      refine ih hst (by simp) fun x hx => ?_
      rcases List.mem_append.mp hx with hx | hx
      · exact hacc x hx
      · obtain rfl : x = b := by simpa using hx
        exact hb

theorem getLast?_cons_eq {c x : Char} {a : Text} (h : (c :: a).getLast? = some x) :
    (a = [] ∧ c = x) ∨ a.getLast? = some x := by
  cases a with
  | nil => exact .inl ⟨rfl, by simpa using h⟩
  | cons d a => exact .inr (by rwa [List.getLast?_cons_cons] at h)

/-- An argument without quotes around it that is read as it is. -/
theorem Tight.plain {a s b : Text} {acc out : List Text}
    (h : Tight rules ⟨a ++ s, b, acc, none⟩ out) (hdq : '"' ∉ a) (hout : acc ++ [b ++ a] <+: out) :
    Tight rules ⟨s, b ++ a, acc, none⟩ out ∧ '\'' ∉ a ∧ (∀ c ∈ a, rules.isWhite c = false) ∧
      ¬ (a.getLast? = some '\\' ∧ nextEscapable rules s = true) := by
  induction a generalizing b with
  | nil => simpa using h
  | cons c a ih =>
    obtain ⟨hc, ha⟩ : '"' ≠ c ∧ '"' ∉ a := by simpa using hdq
    obtain ⟨st, hmove, hst⟩ := h.step
    cases hmove with
    | keep _ _ _ _ hkeep hesc =>
      have happ : b ++ [c] ++ a = b ++ c :: a := by simp
      obtain ⟨htight, hsq, hwhite, hlast⟩ := ih hst ha (by rwa [happ])
      rw [happ] at htight
      refine ⟨htight, ?_, List.forall_mem_cons.mpr ⟨hkeep.2.2, hwhite⟩, ?_⟩
      · simpa using ⟨hkeep.2.1.symm, hsq⟩
      · rintro ⟨hl, hnext⟩
        rcases getLast?_cons_eq hl with ⟨rfl, rfl⟩ | hl
        · exact hesc ⟨rfl, hnext⟩
        · exact hlast ⟨hl, hnext⟩
    | «open» => exact absurd rfl hc
    | separate _ _ _ _ hwhite _ =>
      -- the argument would end before its end
      exfalso
      have hpre := acc_isPrefix hst.result
      have hsame := List.prefix_of_prefix_length_le hpre hout (by simp)
      have hlen := hsame.eq_of_length (by simp)
      simp at hlen

/-- An argument in double quotes that is read as it is. -/
theorem Tight.quoted {a s b : Text} {acc out : List Text}
    (h : Tight rules ⟨a ++ s, b, acc, some '"'⟩ out) (hdq : '"' ∉ a) :
    Tight rules ⟨s, b ++ a, acc, some '"'⟩ out ∧
      ¬ (a.getLast? = some '\\' ∧ s.head? = some '"') := by
  induction a generalizing b with
  | nil => simpa using h
  | cons c a ih =>
    obtain ⟨hc, ha⟩ : '"' ≠ c ∧ '"' ∉ a := by simpa using hdq
    obtain ⟨st, hmove, hst⟩ := h.step
    cases hmove with
    | close => exact absurd rfl hc
    | keepQuoted _ _ _ _ _ hesc =>
      obtain ⟨htight, hlast⟩ := ih hst ha
      rw [List.append_assoc] at htight
      refine ⟨htight, ?_⟩
      rintro ⟨hl, hnext⟩
      rcases getLast?_cons_eq hl with ⟨rfl, rfl⟩ | hl
      · exact hesc ⟨rfl, hnext⟩
      · exact hlast ⟨hl, hnext⟩

theorem isKeptArg_of_mem {a : Text} (h : ' ' ∈ a) :
    isKeptArg rules a = true ↔ '"' ∉ a ∧ a.getLast? ≠ some '\\' := by
  have hne : a ≠ [] := List.ne_nil_of_mem h
  simp [isKeptArg, h, hne]

theorem isKeptArg_of_notMem {a : Text} (h : ' ' ∉ a) :
    isKeptArg rules a = true ↔
      a ≠ [] ∧ '"' ∉ a ∧ '\'' ∉ a ∧ ∀ c ∈ a, rules.isWhite c = false := by
  simp [isKeptArg, h, and_assoc]

/-- An argument that is read as it is is kept, unless it is empty. -/
theorem Tight.arg {a s : Text} {acc out : List Text}
    (h : Tight rules ⟨quoteArg a ++ s, [], acc, none⟩ out) (hdq : '"' ∉ a)
    (hout : acc ++ [a] <+: out) :
    Tight rules ⟨s, a, acc, none⟩ out ∧ (a ≠ [] → isKeptArg rules a = true) ∧
      (isOpenArg a = true → nextEscapable rules s = false) := by
  by_cases hsp : ' ' ∈ a
  · have hq : quoteArg a ++ s = '"' :: (a ++ '"' :: s) := by simp [quoteArg, hsp]
    rw [hq] at h
    obtain ⟨st, hmove, hst⟩ := h.step
    cases hmove with
    | keep _ _ _ _ hc _ => exact absurd rfl hc.1
    | separate _ _ _ _ hw _ => exact absurd rfl (rules.notWhite _ hw).1
    | «open» =>
      obtain ⟨hclose, hlast⟩ := hst.quoted hdq
      obtain ⟨st', hmove', hst'⟩ := hclose.step
      cases hmove' with
      | close =>
        refine ⟨hst', fun hne => ?_, fun hopen => ?_⟩
        · exact (isKeptArg_of_mem hsp).mpr ⟨hdq, fun hl => hlast ⟨hl, rfl⟩⟩
        · simp [isOpenArg, hsp] at hopen
      | keepQuoted _ _ _ _ hc _ => exact absurd rfl hc
  · have hq : quoteArg a = a := by simp [quoteArg, hsp]
    rw [hq] at h
    obtain ⟨htight, hsq, hwhite, hlast⟩ := h.plain hdq hout
    refine ⟨htight, fun hne => ?_, fun hopen => ?_⟩
    · exact (isKeptArg_of_notMem hsp).mpr ⟨hne, hdq, hsq, hwhite⟩
    · refine eq_false_of_ne_true fun hnext => hlast ⟨?_, hnext⟩
      simpa [isOpenArg, hsp] using hopen

/-! ## Reading the list -/

theorem beamjsArgs_cons_cons (a b : Text) (argv : List Text) :
    beamjsArgs (a :: b :: argv) = quoteArg a ++ ' ' :: beamjsArgs (b :: argv) := rfl

theorem weight_quoteArg (a : Text) : weight (quoteArg a) = weight a := by
  unfold quoteArg
  split
  · simp [weight_cons]
  · rfl

/-- The text of a list weighs as much as the list. -/
theorem weight_beamjsArgs {argv : List Text} (h : argv ≠ []) :
    weight (beamjsArgs argv) + 1 = weights argv := by
  induction argv with
  | nil => exact absurd rfl h
  | cons a argv ih =>
    cases argv with
    | nil => simp [beamjsArgs, weight_quoteArg]
    | cons b argv =>
      have hrest := ih (by simp)
      have hcons : weights (a :: b :: argv) = weight a + 1 + weights (b :: argv) := by
        simp [weights]
      rw [beamjsArgs_cons_cons, weight_append, weight_cons, weight_quoteArg, hcons, ← hrest]
      simp
      omega

/-- A list that is read as it is, without white space to trim, is kept. -/
theorem keeps_of_tight {argv acc : List Text} (hne : argv ≠ [])
    (h : Tight rules ⟨beamjsArgs argv, [], acc, none⟩ (acc ++ argv))
    (hdq : ∀ a ∈ argv, '"' ∉ a)
    (htrim : (beamjsArgs argv).dropWhile rules.isWhite = beamjsArgs argv) :
    keepsArgs rules argv = true := by
  induction argv generalizing acc with
  | nil => exact absurd rfl hne
  | cons a argv ih =>
    obtain ⟨ha, hargv⟩ := List.forall_mem_cons.mp hdq
    have hpre : acc ++ [a] <+: acc ++ a :: argv := by
      rw [show acc ++ a :: argv = acc ++ [a] ++ argv by simp]
      exact List.prefix_append ..
    cases argv with
    | nil =>
      rw [beamjsArgs, ← List.append_nil (quoteArg a)] at h
      obtain ⟨htight, hkept, -⟩ := h.arg ha hpre
      obtain ⟨-, hane, -⟩ := htight.finish
      simp [keepsArgs, hkept hane]
    | cons b argv =>
      rw [beamjsArgs_cons_cons] at h htrim
      obtain ⟨htight, hkept, hopen⟩ := h.arg ha hpre
      have hane : a ≠ [] := by
        rintro rfl
        rw [show quoteArg [] = [] from rfl, List.nil_append,
          List.dropWhile_cons_of_pos rules.space] at htrim
        have := congrArg List.length htrim
        have hle := (List.dropWhile_sublist (l := beamjsArgs (b :: argv)) rules.isWhite).length_le
        simp only [List.length_cons] at this
        omega
      obtain ⟨st, hmove, hst⟩ := htight.step
      cases hmove with
      | keep _ _ _ _ hc _ =>
        rw [rules.space] at hc
        exact absurd hc.2.2 (by simp)
      | separate _ _ _ _ _ htrim' =>
        have hrest := ih (by simp) (by rwa [List.append_assoc]) hargv htrim'
        simp only [keepsArgs, Bool.and_eq_true, Bool.or_eq_true, List.all_cons, List.dropLast_cons_cons,
          Bool.not_eq_true'] at hrest ⊢
        refine ⟨⟨hkept hane, hrest.1⟩, ?_⟩
        cases hesc : rules.isEscapable ' ' with
        | false => exact .inl rfl
        | true =>
          rw [hesc] at hrest
          refine .inr ⟨eq_false_of_ne_true fun hop => ?_, hrest.2.resolve_left (by simp)⟩
          have := hopen hop
          simp [nextEscapable, hesc] at this

/-- A list that passes through is kept. -/
theorem keeps_of_passes {argv : List Text} (h : PassesThrough rules argv) :
    keepsArgs rules argv = true := by
  by_cases hne : argv = []
  · subst hne
    simp [keepsArgs]
  have hargs : beamjsArgs argv ≠ [] := by
    intro hnil
    rw [PassesThrough, hnil, cliArgv, if_pos rfl] at h
    exact hne (Option.some.inj h).symm
  rw [PassesThrough, cliArgv, if_neg hargs, split] at h
  have hmass := weight_beamjsArgs hne
  have htrim : (beamjsArgs argv).dropWhile rules.isWhite = beamjsArgs argv := by
    by_contra hlt
    have hlt' := weight_dropWhile_lt hlt
    have hle := weights_le h
    simp only [weight_nil, weights, List.map_nil, List.sum_nil] at hle hmass
    omega
  rw [htrim] at h
  have htight : Tight rules ⟨beamjsArgs argv, [], [], none⟩ ([] ++ argv) :=
    ⟨h, by simpa [State.mass, weights] using hmass.symm, .inl rfl⟩
  exact keeps_of_tight hne htight (htight.notMem (by simp) (by simp)) htrim

/-! ## Arguments that are kept pass through -/

theorem doSplit_plain {a s b : Text} {acc : List Text}
    (h : ∀ c ∈ a, c ≠ '"' ∧ c ≠ '\'' ∧ rules.isWhite c = false)
    (hlast : a.getLast? = some '\\' → nextEscapable rules s = false) :
    doSplit rules (a ++ s) b acc none = doSplit rules s (b ++ a) acc none := by
  induction a generalizing b with
  | nil => simp
  | cons c a ih =>
    obtain ⟨hc, ha⟩ := List.forall_mem_cons.mp h
    have hesc : ¬ (c = '\\' ∧ nextEscapable rules (a ++ s) = true) := by
      rintro ⟨rfl, hnext⟩
      cases a with
      | nil => exact absurd hnext (by simpa using hlast rfl)
      | cons d a =>
        obtain ⟨hd, -⟩ := List.forall_mem_cons.mp ha
        rcases rules.escapable d (by simpa [nextEscapable] using hnext) with rfl | rfl | hw
        · exact hd.1 rfl
        · exact hd.2.1 rfl
        · rw [hd.2.2] at hw
          cases hw
    have hl : a.getLast? = some '\\' → nextEscapable rules s = false := by
      intro hl
      refine hlast ?_
      cases a with
      | nil => cases hl
      | cons d a => rwa [List.getLast?_cons_cons]
    rw [List.cons_append, doSplit, if_neg (not_or.mpr ⟨hc.1, hc.2.1⟩), if_neg hesc,
      if_neg (by rw [hc.2.2]; simp), ih ha hl, List.append_assoc]
    rfl

theorem doSplit_quoted {a s b : Text} {acc : List Text} (h : '"' ∉ a)
    (hlast : a.getLast? ≠ some '\\') :
    doSplit rules (a ++ '"' :: s) b acc (some '"') = doSplit rules s (b ++ a) acc none := by
  induction a generalizing b with
  | nil =>
    rw [List.nil_append, doSplit, if_neg (by simp), if_pos rfl, List.append_nil]
  | cons c a ih =>
    obtain ⟨hc, ha⟩ : '"' ≠ c ∧ '"' ∉ a := by simpa using h
    have hesc : ¬ (c = '\\' ∧ (a ++ '"' :: s).head? = some '"') := by
      rintro ⟨rfl, hhead⟩
      cases a with
      | nil => exact hlast rfl
      | cons d a =>
        obtain rfl : d = '"' := by simpa using hhead
        simp at ha
    have hl : a.getLast? ≠ some '\\' := by
      intro hl
      refine hlast ?_
      cases a with
      | nil => cases hl
      | cons d a => rwa [List.getLast?_cons_cons]
    rw [List.cons_append, doSplit, if_neg hesc, if_neg hc.symm, ih ha hl, List.append_assoc]
    rfl

/-- An argument that is kept is read as it is. -/
theorem doSplit_arg {a s : Text} {acc : List Text} (h : isKeptArg rules a = true)
    (hopen : isOpenArg a = true → nextEscapable rules s = false) :
    doSplit rules (quoteArg a ++ s) [] acc none = doSplit rules s a acc none := by
  by_cases hsp : ' ' ∈ a
  · obtain ⟨hdq, hlast⟩ := (isKeptArg_of_mem hsp).mp h
    have hq : quoteArg a ++ s = '"' :: (a ++ '"' :: s) := by simp [quoteArg, hsp]
    rw [hq, doSplit, if_pos (.inl rfl), doSplit_quoted hdq hlast, List.nil_append]
  · obtain ⟨-, hdq, hsq, hwhite⟩ := (isKeptArg_of_notMem hsp).mp h
    have hq : quoteArg a = a := by simp [quoteArg, hsp]
    rw [hq, doSplit_plain (fun c hc => ⟨?_, ?_, hwhite c hc⟩) fun hl => hopen ?_, List.nil_append]
    · rintro rfl
      exact hdq hc
    · rintro rfl
      exact hsq hc
    · simp [isOpenArg, hsp, hl]

theorem head_beamjsArgs {a : Text} (argv : List Text) (h : isKeptArg rules a = true) :
    ∃ c t, beamjsArgs (a :: argv) = c :: t ∧ rules.isWhite c = false := by
  have hquote : ∃ c t, quoteArg a = c :: t ∧ rules.isWhite c = false := by
    by_cases hsp : ' ' ∈ a
    · refine ⟨'"', a ++ ['"'], by simp [quoteArg, hsp], eq_false_of_ne_true fun hw => ?_⟩
      exact (rules.notWhite _ hw).1 rfl
    · obtain ⟨hne, -, -, hwhite⟩ := (isKeptArg_of_notMem hsp).mp h
      obtain ⟨c, t, rfl⟩ := List.exists_cons_of_ne_nil hne
      exact ⟨c, t, by simp [quoteArg, hsp], hwhite c (by simp)⟩
  obtain ⟨c, t, hq, hw⟩ := hquote
  cases argv with
  | nil => exact ⟨c, t, by rw [beamjsArgs, hq], hw⟩
  | cons b argv => exact ⟨c, t ++ ' ' :: beamjsArgs (b :: argv), by rw [beamjsArgs_cons_cons, hq]; rfl, hw⟩

theorem doSplit_beamjsArgs {argv acc : List Text} (hne : argv ≠ [])
    (h : keepsArgs rules argv = true) :
    doSplit rules (beamjsArgs argv) [] acc none = some (acc ++ argv) := by
  induction argv generalizing acc with
  | nil => exact absurd rfl hne
  | cons a argv ih =>
    simp only [keepsArgs, Bool.and_eq_true, Bool.or_eq_true, List.all_cons,
      Bool.not_eq_true'] at h
    obtain ⟨⟨ha, hargv⟩, hopen⟩ := h
    have hane : a ≠ [] := by
      rintro rfl
      simp [isKeptArg] at ha
    cases argv with
    | nil =>
      rw [beamjsArgs, ← List.append_nil (quoteArg a), doSplit_arg ha fun _ => rfl, doSplit,
        if_neg hane]
    | cons b argv =>
      have hrest : keepsArgs rules (b :: argv) = true := by
        simp only [keepsArgs, Bool.and_eq_true, Bool.or_eq_true, Bool.not_eq_true']
        refine ⟨hargv, hopen.imp_right fun hall => ?_⟩
        simp only [List.dropLast_cons_cons, List.all_cons, Bool.and_eq_true] at hall
        exact hall.2
      obtain ⟨hb, -⟩ : isKeptArg rules b = true ∧ argv.all (isKeptArg rules) = true := by
        simpa only [List.all_cons, Bool.and_eq_true] using hargv
      obtain ⟨c, t, hct, hw⟩ := head_beamjsArgs argv hb
      have hnext : isOpenArg a = true → nextEscapable rules (' ' :: beamjsArgs (b :: argv)) = false := by
        intro hop
        rcases hopen with hesc | hall
        · simpa [nextEscapable] using hesc
        · simp [hop] at hall
      rw [beamjsArgs_cons_cons, doSplit_arg ha hnext, doSplit, if_neg (by decide), if_neg (by simp),
        if_pos rules.space, hct, List.dropWhile_cons_of_neg (by rw [hw]; simp), ← hct,
        ih (by simp) hrest, List.append_assoc]
      rfl

/-- A list of arguments passes through the launcher exactly if it is kept. -/
theorem passes_through_iff (rules : SplitRules) (argv : List Text) :
    PassesThrough rules argv ↔ keepsArgs rules argv = true := by
  refine ⟨keeps_of_passes, fun h => ?_⟩
  cases argv with
  | nil => rfl
  | cons a argv =>
    have ha : isKeptArg rules a = true := by
      simp only [keepsArgs, Bool.and_eq_true, List.all_cons] at h
      exact h.1.1
    obtain ⟨c, t, hct, hw⟩ := head_beamjsArgs argv ha
    rw [PassesThrough, cliArgv, if_neg (by rw [hct]; simp), split, hct,
      List.dropWhile_cons_of_neg (by rw [hw]; simp), ← hct,
      doSplit_beamjsArgs (by simp) h, List.nil_append]

/-- Lists that do not pass through: an empty argument, a double quote, single quotes that take two
arguments for one, a backslash before the space, and a quote that is not closed, for which the
splitting raises. -/
theorem arguments_changed :
    ¬ PassesThrough .elixir [[]] ∧
    ¬ PassesThrough .elixir ["a\"b".toList] ∧
    ¬ PassesThrough .elixir ["'a".toList, "b'".toList] ∧
    ¬ PassesThrough .elixir ["\\".toList, "a".toList] ∧
    cliArgv .elixir (beamjsArgs ["it's".toList]) = none := by
  have hno : ∀ argv, keepsArgs .elixir argv = false → ¬ PassesThrough .elixir argv := by
    intro argv hargv h
    rw [keeps_of_passes h] at hargv
    cases hargv
  refine ⟨hno _ (by decide), hno _ (by decide), hno _ (by decide), hno _ (by decide), ?_⟩
  have htext : beamjsArgs ["it's".toList] = ['i', 't', '\'', 's'] := by decide
  rw [htext]
  simp [cliArgv, split, doSplit, SplitRules.elixir]

end Launcher

end BeamJS
