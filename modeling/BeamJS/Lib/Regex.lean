import Mathlib.Algebra.BigOperators.Group.List.Basic
import Mathlib.Data.List.Infix
import Mathlib.Tactic.Linarith

/-!
# Regular expressions with backtracking

The matches of a regular expression in the order in which a backtracking matcher tries them, and the
replacement of all that it finds from left to right. Weighing the characters bounds from below what
a match takes away.
-/

namespace Lib

universe u

/-- A regular expression. Its operators are greedy. -/
inductive Regex (α : Type u) where
  | empty
  | lit (c : α)
  | cls (p : α → Bool)
  | seq (r s : Regex α)
  | opt (r : Regex α)
  | star (r : Regex α)
  /-- The start of the text, or the place after a line break. -/
  | lineStart (isBreak : α → Bool)

/-- A place in a text: the character before it and what follows. -/
structure Place (α : Type u) where
  prev : Option α
  rest : List α

/-- A stretch of a text that is kept or found. -/
inductive Piece (α : Type u) where
  | keep (c : α)
  | hit (found : List α)
  deriving DecidableEq

namespace Piece

variable {α : Type u}

/-- The text of a piece. -/
def source : Piece α → List α
  | keep c => [c]
  | hit found => found

/-- The text that replaces a piece. -/
def replaced (replacement : List α) : Piece α → List α
  | keep c => [c]
  | hit _ => replacement

end Piece

namespace Regex

variable {α : Type u}

/-- `r+`. -/
def plus (r : Regex α) : Regex α := .seq r (.star r)

/-- Expressions one after the other. -/
def seqs : List (Regex α) → Regex α
  | [] => .empty
  | r :: rs => .seq r (seqs rs)

/-- The given characters. -/
def lits (cs : List α) : Regex α := seqs (cs.map .lit)

/-- The loop of `r*` from a place on, where `body` lists the matches of `r`. An iteration that takes
nothing ends it. -/
def starMatches (body : Place α → List (Place α)) : ℕ → Place α → List (Place α)
  | 0, p => [p]
  | n + 1, p =>
    ((body p).filter fun q => q.rest.length < p.rest.length).flatMap (starMatches body n) ++ [p]

section Search

variable [DecidableEq α]

/-- The ends of the matches from a place on, the preferred one first. -/
def matchesAt : Regex α → Place α → List (Place α)
  | empty, p => [p]
  | lit c, p =>
    match p.rest with
    | [] => []
    | d :: rest => if d = c then [⟨some d, rest⟩] else []
  | cls f, p =>
    match p.rest with
    | [] => []
    | d :: rest => if f d then [⟨some d, rest⟩] else []
  | seq r s, p => (matchesAt r p).flatMap (matchesAt s)
  | opt r, p => matchesAt r p ++ [p]
  | star r, p => starMatches (matchesAt r) p.rest.length p
  | lineStart isBreak, p => if p.prev.all isBreak then [p] else []

/-- The pieces of the text from a place on. A match has to take something. -/
def scan (r : Regex α) : ℕ → Place α → List (Piece α)
  | 0, _ => []
  | n + 1, p =>
    match p.rest with
    | [] => []
    | c :: rest =>
      match (r.matchesAt p).find? fun q => q.rest.length < p.rest.length with
      | some q => .hit (p.rest.take (p.rest.length - q.rest.length)) :: scan r n q
      | none => .keep c :: scan r n ⟨some c, rest⟩

/-- The pieces of a text. -/
def pieces (r : Regex α) (text : List α) : List (Piece α) := r.scan text.length ⟨none, text⟩

/-- The text that `s` takes in the preferred match of `r` and then `s` at a place. -/
def groupAt (r s : Regex α) (p : Place α) : Option (List α) :=
  (r.matchesAt p).findSome? fun q =>
    (s.matchesAt q).head?.map fun q' => q.rest.take (q.rest.length - q'.rest.length)

/-- The text that `s` takes in the first match of `r` and then `s` from a place on. -/
def scanGroup (r s : Regex α) : ℕ → Place α → Option (List α)
  | 0, p => groupAt r s p
  | n + 1, p =>
    match groupAt r s p, p.rest with
    | some found, _ => some found
    | none, c :: rest => scanGroup r s n ⟨some c, rest⟩
    | none, [] => none

/-- The group `(s)` of the first match of `r(s)` in a text. -/
def firstGroup (r s : Regex α) (text : List α) : Option (List α) :=
  r.scanGroup s text.length ⟨none, text⟩

/-- The text with everything found replaced. -/
def replaceAll (r : Regex α) (replacement text : List α) : List α :=
  (r.pieces text).flatMap (Piece.replaced replacement)

end Search

/-! ## What a match takes -/

/-- The weight of a text. -/
def weigh (w : α → ℕ) (text : List α) : ℕ := (text.map w).sum

/-- What a match weighs at least. -/
def least (w : α → ℕ) : Regex α → ℕ
  | lit c => w c
  | seq r s => least w r + least w s
  | empty | cls _ | opt _ | star _ | lineStart _ => 0

section Weight

variable {w : α → ℕ}

@[simp] theorem weigh_nil : weigh w [] = 0 := rfl

@[simp] theorem weigh_cons (c : α) (text : List α) : weigh w (c :: text) = w c + weigh w text := by
  simp [weigh]

@[simp] theorem weigh_append (s t : List α) : weigh w (s ++ t) = weigh w s + weigh w t := by
  simp [weigh]

theorem least_seqs (rs : List (Regex α)) : (seqs rs).least w = (rs.map (least w)).sum := by
  induction rs with
  | nil => rfl
  | cons r rs ih => rw [seqs, least, ih, List.map_cons, List.sum_cons]

/-- Fixed characters weigh what they weigh in a text. -/
theorem least_lits (cs : List α) : (lits cs).least w = weigh w cs := by
  rw [lits, least_seqs, List.map_map]
  rfl

variable (w) in
/-- The place `q` is `n` further on than `p`, by weight. -/
structure Reaches (n : ℕ) (p q : Place α) : Prop where
  suffix : q.rest <:+ p.rest
  weight : n + weigh w q.rest ≤ weigh w p.rest

theorem Reaches.refl (p : Place α) : Reaches w 0 p p := ⟨List.suffix_rfl, (Nat.zero_add _).le⟩

theorem Reaches.trans {m n : ℕ} {p q r : Place α} (h : Reaches w m p q) (h' : Reaches w n q r) :
    Reaches w (m + n) p r := by
  have hpq := h.weight
  have hqr := h'.weight
  exact ⟨h'.suffix.trans h.suffix, by omega⟩

theorem Reaches.mono {m n : ℕ} {p q : Place α} (h : Reaches w n p q) (hmn : m ≤ n) :
    Reaches w m p q := ⟨h.suffix, (Nat.add_le_add_right hmn _).trans h.weight⟩

theorem reaches_of_char {p : Place α} {d : α} {rest : List α} (h : p.rest = d :: rest) :
    Reaches w (w d) p ⟨some d, rest⟩ := by
  constructor
  · rw [h]
    exact List.suffix_cons d rest
  · rw [h, weigh_cons]

theorem starMatches_reaches {body : Place α → List (Place α)}
    (hbody : ∀ p, ∀ q ∈ body p, Reaches w 0 p q) (n : ℕ) (p : Place α) :
    ∀ q ∈ starMatches body n p, Reaches w 0 p q := by
  induction n generalizing p with
  | zero =>
    intro q hq
    obtain rfl := List.mem_singleton.mp hq
    exact .refl q
  | succ n ih =>
    intro q hq
    rcases List.mem_append.mp hq with hq | hq
    · obtain ⟨r, hr, hq⟩ := List.mem_flatMap.mp hq
      exact (hbody p r (List.mem_filter.mp hr).1).trans (ih r q hq)
    · obtain rfl := List.mem_singleton.mp hq
      exact .refl q

variable [DecidableEq α]

/-- A match takes at least the least that the expression weighs. -/
theorem matchesAt_reaches (r : Regex α) (p : Place α) :
    ∀ q ∈ r.matchesAt p, Reaches w (r.least w) p q := by
  induction r generalizing p with
  | empty =>
    intro q hq
    obtain rfl := List.mem_singleton.mp hq
    exact .refl q
  | lit c =>
    intro q hq
    unfold matchesAt at hq
    cases hrest : p.rest with
    | nil => simp [hrest] at hq
    | cons d rest =>
      by_cases hd : d = c
      · subst hd
        obtain rfl : q = ⟨some d, rest⟩ := by simpa [hrest] using hq
        exact reaches_of_char hrest
      · simp [hrest, hd] at hq
  | cls f =>
    intro q hq
    unfold matchesAt at hq
    cases hrest : p.rest with
    | nil => simp [hrest] at hq
    | cons d rest =>
      by_cases hd : f d = true
      · obtain rfl : q = ⟨some d, rest⟩ := by simpa [hrest, hd] using hq
        exact (reaches_of_char hrest).mono (Nat.zero_le _)
      · simp [hrest, hd] at hq
  | seq r s ihr ihs =>
    intro q hq
    obtain ⟨m, hm, hq⟩ := List.mem_flatMap.mp hq
    exact (ihr p m hm).trans (ihs m q hq)
  | opt r ih =>
    intro q hq
    rcases List.mem_append.mp hq with hq | hq
    · exact (ih p q hq).mono (Nat.zero_le _)
    · obtain rfl := List.mem_singleton.mp hq
      exact .refl q
  | star r ih =>
    exact starMatches_reaches (fun p q hq => (ih p q hq).mono (Nat.zero_le _)) _ p
  | lineStart isBreak =>
    intro q hq
    unfold matchesAt at hq
    by_cases hprev : p.prev.all isBreak = true
    · obtain rfl : q = p := by simpa [hprev] using hq
      exact .refl q
    · simp [hprev] at hq

/-- What is found weighs no less than any match. -/
theorem least_le_of_hit {r : Regex α} {n : ℕ} {p : Place α} {found : List α}
    (h : .hit found ∈ r.scan n p) : r.least w ≤ weigh w found := by
  induction n generalizing p with
  | zero => cases h
  | succ n ih =>
    unfold scan at h
    cases hrest : p.rest with
    | nil => simp [hrest] at h
    | cons c rest =>
      cases hfind : (r.matchesAt p).find? fun q => q.rest.length < p.rest.length with
      | none =>
        simp only [hrest] at h hfind
        simp only [hfind, List.mem_cons, reduceCtorEq, false_or] at h
        exact ih h
      | some q =>
        obtain ⟨hsuffix, hweight⟩ := matchesAt_reaches (w := w) r p q (List.mem_of_find?_eq_some hfind)
        obtain ⟨t, ht⟩ := hsuffix
        simp only [hrest] at h hfind
        simp only [hfind, List.mem_cons, Piece.hit.injEq] at h
        rcases h with rfl | h
        · have htake : (c :: rest).take ((c :: rest).length - q.rest.length) = t := by
            rw [← hrest, ← ht]
            simp
          rw [htake]
          rw [← ht, weigh_append] at hweight
          omega
        · exact ih h

/-! ## What a replacement changes -/

/-- The pieces make up the text. -/
theorem source_scan (r : Regex α) {n : ℕ} {p : Place α} (hn : p.rest.length ≤ n) :
    (r.scan n p).flatMap Piece.source = p.rest := by
  induction n generalizing p with
  | zero => exact (List.length_eq_zero_iff.mp (Nat.le_zero.mp hn)).symm
  | succ n ih =>
    unfold scan
    cases hrest : p.rest with
    | nil => simp
    | cons c rest =>
      rw [hrest, List.length_cons] at hn
      cases hfind : (r.matchesAt p).find? fun q => q.rest.length < p.rest.length with
      | none =>
        simp only [hrest] at hfind
        simp only [hfind, List.flatMap_cons, ih (p := ⟨some c, rest⟩) (by simpa using hn)]
        rfl
      | some q =>
        obtain ⟨hsuffix, -⟩ :=
          matchesAt_reaches (w := fun _ => 0) r p q (List.mem_of_find?_eq_some hfind)
        have hshort : q.rest.length < p.rest.length := by simpa using List.find?_some hfind
        obtain ⟨t, ht⟩ := hsuffix
        rw [hrest] at ht hshort
        simp only [hrest] at hfind
        simp only [hfind, List.flatMap_cons, ih (p := q) (by simp at hshort; omega), Piece.source]
        rw [← ht]
        simp

theorem source_pieces (r : Regex α) (text : List α) :
    (r.pieces text).flatMap Piece.source = text := source_scan r (Nat.le_refl _)

omit [DecidableEq α] in
/-- Pieces among which nothing was found. -/
theorem eq_map_keep {ps : List (Piece α)} (h : ∀ found, .hit found ∉ ps) :
    ps = (ps.flatMap Piece.source).map .keep := by
  induction ps with
  | nil => rfl
  | cons p ps ih =>
    have hps := ih fun found hmem => h found (List.mem_cons_of_mem _ hmem)
    cases p with
    | hit found => exact absurd List.mem_cons_self (h found)
    | keep c =>
      rw [List.flatMap_cons, List.map_append, ← hps]
      rfl

omit [DecidableEq α] in
/-- Where everything found weighs more than what replaces it, the text becomes no heavier, and
lighter where anything was found. -/
theorem weigh_replaced {replacement : List α} {ps : List (Piece α)}
    (h : ∀ found, .hit found ∈ ps → weigh w replacement < weigh w found) :
    weigh w (ps.flatMap (Piece.replaced replacement)) ≤ weigh w (ps.flatMap Piece.source) ∧
      (weigh w (ps.flatMap Piece.source) ≤ weigh w (ps.flatMap (Piece.replaced replacement)) →
        ∀ found, .hit found ∉ ps) := by
  induction ps with
  | nil => exact ⟨Nat.le_refl _, fun _ _ hmem => by cases hmem⟩
  | cons p ps ih =>
    obtain ⟨hle, hnone⟩ := ih fun found hmem => h found (List.mem_cons_of_mem _ hmem)
    rw [List.flatMap_cons, List.flatMap_cons, weigh_append, weigh_append]
    cases p with
    | keep c =>
      refine ⟨Nat.add_le_add_left hle _, fun hge found hmem => ?_⟩
      have hmem' : .hit found ∈ ps := by simpa using hmem
      exact hnone (Nat.le_of_add_le_add_left hge) found hmem'
    | hit found =>
      have hlight := h found List.mem_cons_self
      simp only [Piece.replaced, Piece.source]
      exact ⟨by omega, fun hge => by omega⟩

/-- A replacement that is lighter than any match makes the text lighter, or finds nothing. -/
theorem weigh_replaceAll {r : Regex α} {replacement : List α}
    (h : weigh w replacement < r.least w) (text : List α) :
    weigh w (r.replaceAll replacement text) ≤ weigh w text ∧
      (weigh w text ≤ weigh w (r.replaceAll replacement text) → r.pieces text = text.map .keep) := by
  have hhits : ∀ found, .hit found ∈ r.pieces text → weigh w replacement < weigh w found :=
    fun found hmem => h.trans_le (least_le_of_hit hmem)
  have hweigh := weigh_replaced hhits
  rw [source_pieces] at hweigh
  refine ⟨hweigh.1, fun hge => ?_⟩
  have hkeep := eq_map_keep (hweigh.2 hge)
  rwa [source_pieces] at hkeep

end Weight

/-! ## What stays in its order -/

/-- The characters that every match takes, in their order. -/
def fixed : Regex α → List α
  | lit c => [c]
  | seq r s => fixed r ++ fixed s
  | empty | cls _ | opt _ | star _ | lineStart _ => []

theorem fixed_seqs (rs : List (Regex α)) : (seqs rs).fixed = rs.flatMap fixed := by
  induction rs with
  | nil => rfl
  | cons r rs ih => rw [seqs, fixed, ih, List.flatMap_cons]

@[simp] theorem fixed_lits (cs : List α) : (lits cs).fixed = cs := by
  rw [lits, fixed_seqs, List.flatMap_map]
  exact List.flatMap_singleton' cs

section Order

variable [DecidableEq α]

/-- A match takes the fixed characters, whatever it takes between them. -/
theorem matchesAt_fixed (r : Regex α) (p : Place α) :
    ∀ q ∈ r.matchesAt p, ∃ taken, taken ++ q.rest = p.rest ∧ r.fixed.Sublist taken := by
  induction r generalizing p with
  | lit c =>
    intro q hq
    unfold matchesAt at hq
    cases hrest : p.rest with
    | nil => simp [hrest] at hq
    | cons d rest =>
      by_cases hd : d = c
      · subst hd
        obtain rfl : q = ⟨some d, rest⟩ := by simpa [hrest] using hq
        exact ⟨[d], rfl, List.Sublist.refl [d]⟩
      · simp [hrest, hd] at hq
  | seq r s ihr ihs =>
    intro q hq
    obtain ⟨m, hm, hq⟩ := List.mem_flatMap.mp hq
    obtain ⟨taken, htaken, hfixed⟩ := ihr p m hm
    obtain ⟨taken', htaken', hfixed'⟩ := ihs m q hq
    refine ⟨taken ++ taken', ?_, hfixed.append hfixed'⟩
    rw [List.append_assoc, htaken', htaken]
  | empty | cls _ | opt _ _ | star _ _ | lineStart _ =>
    intro q hq
    obtain ⟨taken, htaken⟩ := (matchesAt_reaches (w := fun _ => 0) _ p q hq).suffix
    exact ⟨taken, htaken, List.nil_sublist taken⟩

/-- What is found is what some match takes. -/
theorem exists_match_of_hit {r : Regex α} {n : ℕ} {p : Place α} {found : List α}
    (h : .hit found ∈ r.scan n p) : ∃ p', ∃ q ∈ r.matchesAt p', found ++ q.rest = p'.rest := by
  induction n generalizing p with
  | zero => cases h
  | succ n ih =>
    unfold scan at h
    cases hrest : p.rest with
    | nil => simp [hrest] at h
    | cons c rest =>
      cases hfind : (r.matchesAt p).find? fun q => q.rest.length < p.rest.length with
      | none =>
        simp only [hrest] at h hfind
        simp only [hfind, List.mem_cons, reduceCtorEq, false_or] at h
        exact ih h
      | some q =>
        have hq := List.mem_of_find?_eq_some hfind
        obtain ⟨taken, htaken, -⟩ := matchesAt_fixed r p q hq
        simp only [hrest] at h hfind
        simp only [hfind, List.mem_cons, Piece.hit.injEq] at h
        rcases h with rfl | h
        · refine ⟨p, q, hq, ?_⟩
          rw [← hrest, ← htaken]
          simp
        · exact ih h

/-- What is found has the fixed characters in their order. -/
theorem fixed_sublist_of_hit {r : Regex α} {text found : List α}
    (h : .hit found ∈ r.pieces text) : r.fixed.Sublist found := by
  obtain ⟨p, q, hq, hfound⟩ := exists_match_of_hit h
  obtain ⟨taken, htaken, hfixed⟩ := matchesAt_fixed r p q hq
  rwa [List.append_cancel_right (hfound.trans htaken.symm)]

/-- A replacement that puts in nothing but fixed characters, as far as those that count are
concerned, neither adds nor moves any that count. -/
theorem filter_replaceAll_sublist {r : Regex α} {replacement : List α} {counts : α → Bool}
    (h : (replacement.filter counts).Sublist r.fixed) (text : List α) :
    ((r.replaceAll replacement text).filter counts).Sublist (text.filter counts) := by
  have hpieces : ∀ ps : List (Piece α), (∀ found, .hit found ∈ ps → r.fixed.Sublist found) →
      ((ps.flatMap (Piece.replaced replacement)).filter counts).Sublist
        ((ps.flatMap Piece.source).filter counts) := by
    intro ps hps
    induction ps with
    | nil => exact List.Sublist.refl _
    | cons p ps ih =>
      have hrest := ih fun found hmem => hps found (List.mem_cons_of_mem p hmem)
      rw [List.flatMap_cons, List.flatMap_cons, List.filter_append, List.filter_append]
      refine List.Sublist.append ?_ hrest
      cases p with
      | keep c => exact List.Sublist.refl _
      | hit found =>
        have hfound := (h.trans (hps found List.mem_cons_self)).filter counts
        rw [List.filter_filter] at hfound
        simpa [Piece.replaced, Piece.source] using hfound
  have hall := hpieces (r.pieces text) fun found hmem => fixed_sublist_of_hit hmem
  rwa [source_pieces] at hall

end Order

/-! ## Runs of a class of characters -/

section Runs

variable [DecidableEq α]

end Runs

/-! ## Expressions one after the other

What an expression matches at a text whose parts are known, part by part. -/

section Parts

variable [DecidableEq α]

/-- The place after a text. -/
def Place.after (prev : Option α) (taken rest : List α) : Place α := ⟨taken.getLast?.or prev, rest⟩

variable {f : α → Bool} {r s : Regex α} {prev : Option α} {c : α} {rest : List α}

theorem matchesAt_seq (p : Place α) :
    (seq r s).matchesAt p = (r.matchesAt p).flatMap s.matchesAt := rfl

variable (s) in
/-- The expression matches nothing that starts with `c`. -/
def Refuses (c : α) : Prop := ∀ prev rest, s.matchesAt ⟨prev, c :: rest⟩ = []

theorem Refuses.seq (h : r.Refuses c) : (seq r s).Refuses c := by
  intro prev rest
  rw [matchesAt_seq, h, List.flatMap_nil]

/-- Pieces of which each is what the expression makes of the text from there on. -/
inductive Marks (r : Regex α) : Option α → List (Piece α) → Prop
  | nil (prev : Option α) : Marks r prev []
  | keep {prev : Option α} {c : α} {ps : List (Piece α)}
      (hnone : r.matchesAt ⟨prev, c :: ps.flatMap Piece.source⟩ = []) (h : Marks r (some c) ps) :
      Marks r prev (.keep c :: ps)
  | hit {prev : Option α} {found : List α} {ps : List (Piece α)} (hne : found ≠ [])
      (hfound : r.matchesAt ⟨prev, found ++ ps.flatMap Piece.source⟩ =
        [Place.after prev found (ps.flatMap Piece.source)])
      (h : Marks r (found.getLast?.or prev) ps) : Marks r prev (.hit found :: ps)

theorem Marks.scan {ps : List (Piece α)} (h : Marks r prev ps) :
    ∀ n, (ps.flatMap Piece.source).length ≤ n → r.scan n ⟨prev, ps.flatMap Piece.source⟩ = ps := by
  induction h with
  | nil prev =>
    intro n _
    cases n <;> rfl
  | @keep prev c ps hnone h ih =>
    intro n hn
    cases n with
    | zero => simp [Piece.source] at hn
    | succ n =>
      have hrest := ih n (by simpa [Piece.source] using hn)
      rw [List.flatMap_cons]
      simp [Regex.scan, Piece.source, hnone, hrest]
  | @hit prev found ps hne hfound h ih =>
    intro n hn
    obtain ⟨c, taken, rfl⟩ := List.exists_cons_of_ne_nil hne
    cases n with
    | zero => simp [Piece.source] at hn
    | succ n =>
      rw [List.flatMap_cons, List.length_append] at hn
      have hshort : (ps.flatMap Piece.source).length <
          ((c :: taken) ++ ps.flatMap Piece.source).length := by
        simp only [List.length_append, List.length_cons]
        omega
      have htake : ((c :: taken) ++ ps.flatMap Piece.source).take
          (((c :: taken) ++ ps.flatMap Piece.source).length - (ps.flatMap Piece.source).length) =
          c :: taken := by
        rw [List.length_append, Nat.add_sub_cancel, List.take_left]
      have hrest := ih n (by simp only [Piece.source, List.length_cons] at hn; omega)
      rw [List.flatMap_cons, Regex.scan]
      show (match (r.matchesAt ⟨prev, (c :: taken) ++ ps.flatMap Piece.source⟩).find? _ with
        | some q => _
        | none => _) = _
      rw [hfound, List.find?_cons_of_pos (by exact decide_eq_true hshort)]
      exact congrArg₂ (fun found ps => Piece.hit found :: ps) htake hrest

/-- The pieces of a text are those that are marked. -/
theorem Marks.pieces {ps : List (Piece α)} (h : Marks r none ps) :
    r.pieces (ps.flatMap Piece.source) = ps := h.scan _ (Nat.le_refl _)

end Parts

end Regex

end Lib
