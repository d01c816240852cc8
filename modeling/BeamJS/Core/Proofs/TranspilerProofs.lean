import BeamJS.Core.Transpiler
import BeamJS.Lib.Settle
import BeamJS.Nif.Proofs.EvalModeProofs

/-!
# Proofs: what type stripping leaves of a source

A comment may stand wherever the comment it is made from stood, so a pass that changes comments
alone leaves a source with the same tokens. Every pass takes more visible characters than it puts in
their place; where the tokens are all that is visible, it has to find nothing.
-/

namespace BeamJS

open InputElement Lib Regex Transpiler

/-! ## Changing comments alone -/

/-- An element, or what is left of it where it is a comment. -/
def Revises (e e' : InputElement) : Prop :=
  e' = e ∨ ∃ replacement ps, EditsComment replacement e ps e'

section EditsComment

variable {replacement : Bytes} {e e' : InputElement} {ps : List (Piece UInt8)}

theorem replaced_map_keep (text : Bytes) :
    (text.map Piece.keep).flatMap (Piece.replaced replacement) = text := by
  induction text with
  | nil => rfl
  | cons c text ih => rw [List.map_cons, List.flatMap_cons, ih]; rfl

theorem EditsComment.text (h : EditsComment replacement e ps e') :
    ps.flatMap (Piece.replaced replacement) = e'.text := by
  cases h with
  | line => rw [List.flatMap_append, replaced_map_keep]; rfl
  | block =>
    rw [List.flatMap_append, List.flatMap_append, replaced_map_keep, replaced_map_keep]; rfl

theorem EditsComment.valid (h : EditsComment replacement e ps e') : e'.Valid := by
  cases h with
  | line h => exact h
  | block h => exact h

theorem EditsComment.isTrivia (h : EditsComment replacement e ps e') :
    e.isTrivia = true ∧ e'.isTrivia = true := by
  cases h <;> exact ⟨rfl, rfl⟩

/-- The mark stays in front. -/
theorem EditsComment.head? (h : EditsComment replacement e ps e') :
    e'.text.head? = e.text.head? := by
  cases h with
  | line h =>
    have hmarks : ∀ m ∈ lineMarks, m ≠ [] := by decide
    have hmark := hmarks _ h.1
    simp only [InputElement.text, List.head?_append_of_ne_nil _ hmark]
  | block => rfl

theorem EditsComment.precedes_left (h : EditsComment replacement e ps e') {b : InputElement}
    (hb : e.Precedes b) : e'.Precedes b := by
  cases h with
  | line h =>
    obtain ⟨t, ht, rfl⟩ := hb.2.2 rfl
    have hbreaks : ∀ t ∈ lineTerminators, t.head?.any isNameByte = false := by decide
    refine ⟨fun hruns => ?_, fun hmerges => (by cases hmerges.1), fun _ => ⟨t, ht, rfl⟩⟩
    have hname := hruns.2
    rw [InputElement.text, hbreaks t ht] at hname
    cases hname
  | block h =>
    refine ⟨fun hruns => ?_, fun hmerges => (by cases hmerges.1), fun hline => by cases hline⟩
    have hname := hruns.1
    have hlast : (bytes "*/").getLast? = some 47 := by decide
    rw [InputElement.text, List.getLast?_append, hlast] at hname
    cases hname

theorem EditsComment.precedes_right (h : EditsComment replacement e ps e') {a : InputElement}
    (ha : a.Precedes e) : a.Precedes e' := by
  have hpunctuator : e'.isPunctuator = false := by cases h <;> rfl
  refine ⟨fun hruns => ha.1 ?_, fun hmerges => ha.2.1 ?_, fun hline => ?_⟩
  · rwa [RunsOn, h.head?] at hruns
  · rw [Merges, h.head?, hpunctuator] at hmerges
    exact ⟨hmerges.1, hmerges.2.imp_left fun hlonger => by cases hlonger.1⟩
  · obtain ⟨t, -, rfl⟩ := ha.2.2 hline
    cases h

end EditsComment

theorem Revises.precedes {a a' b b' : InputElement} (ha : Revises a a') (hb : Revises b b')
    (h : a.Precedes b) : a'.Precedes b' := by
  have hleft : a'.Precedes b := by
    rcases ha with rfl | ⟨_, _, ha⟩
    · exact h
    · exact ha.precedes_left h
  rcases hb with rfl | ⟨_, _, hb⟩
  · exact hleft
  · exact hb.precedes_right hleft

theorem Revises.valid {e e' : InputElement} (h : Revises e e') (he : e.Valid) : e'.Valid := by
  rcases h with rfl | ⟨_, _, h⟩
  · exact he
  · exact h.valid

section Edits

variable {replacement : Bytes} {es es' : List InputElement} {ps : List (Piece UInt8)}

theorem Edits.text (h : Edits replacement es ps es') :
    ps.flatMap (Piece.replaced replacement) = elementsText es' := by
  induction h with
  | nil => rfl
  | keep _ ih => rw [List.flatMap_append, replaced_map_keep, ih, elementsText_cons]
  | comment he _ ih => rw [List.flatMap_append, he.text, ih, elementsText_cons]

theorem Edits.revises (h : Edits replacement es ps es') : List.Forall₂ Revises es es' := by
  induction h with
  | nil => exact .nil
  | keep _ ih => exact .cons (.inl rfl) ih
  | comment he _ ih => exact .cons (.inr ⟨_, _, he⟩) ih

theorem Edits.tokens (h : Edits replacement es ps es') :
    es'.filter (fun e => !e.isTrivia) = es.filter fun e => !e.isTrivia := by
  induction h with
  | nil => rfl
  | keep _ ih => rw [List.filter_cons, List.filter_cons, ih]
  | comment he _ ih =>
    obtain ⟨hbefore, hafter⟩ := he.isTrivia
    rw [List.filter_cons, List.filter_cons, hbefore, hafter, ih]
    rfl

theorem Edits.valid (h : Edits replacement es ps es') (hvalid : ∀ e ∈ es, e.Valid) :
    ∀ e ∈ es', e.Valid := by
  intro e' he'
  obtain ⟨e, he, hrevises⟩ := exists_of_forall₂ h.revises.flip he'
  exact Revises.valid hrevises (hvalid e he)

theorem Edits.precedes (h : Edits replacement es ps es') (hchain : es.IsChain Precedes) :
    es'.IsChain Precedes :=
  isChain_of_forall₂ (fun ha hb => ha.precedes hb) h.revises hchain

end Edits

/-- A visible character of ASCII weighs one, and nothing else weighs anything. -/
def ink (b : UInt8) : ℕ := if 33 ≤ b && b ≤ 126 then 1 else 0

/-- A pass that puts in less than it takes out. -/
def Pass.Lightens (p : Pass) : Prop := weigh ink p.replacement < p.regex.least ink

theorem passes_lighten (t : CharTables) : ∀ p ∈ passes t, p.Lightens := by
  have hspace : (space t).least ink = 0 := rfl
  have hspaces : (spaces t).least ink = 0 := rfl
  have hwords : (words t).least ink = 0 := rfl
  have hopt : ∀ r : Regex UInt8, (Regex.opt r).least ink = 0 := fun _ => rfl
  have hstar : ∀ r : Regex UInt8, (Regex.star r).least ink = 0 := fun _ => rfl
  simp only [passes, Pass.Lightens, removeTypeImports, removeInterfaces, removeTypeAliases,
    removeTypeAnnotations, removeReturnTypes, removeGenerics, removeAsAssertions,
    removeNonNullAssertions, typeArguments, exported, chars, least_seqs, least_lits, List.map_cons,
    List.map_nil, hspace, hspaces, hwords, hopt, hstar, List.forall_mem_cons]
  decide

theorem Pass.apply_of_keep {p : Pass} {text : Bytes} (h : p.regex.pieces text = text.map .keep) :
    p.apply text = text := by
  rw [Pass.apply, replaceAll, h, replaced_map_keep]

/-- Passes that leave all that is visible find nothing. -/
theorem finds_nothing {ps : List Pass} (hps : ∀ p ∈ ps, p.Lightens) (text : Bytes) :
    weigh ink (ps.foldl (fun source p => p.apply source) text) ≤ weigh ink text ∧
      (weigh ink text ≤ weigh ink (ps.foldl (fun source p => p.apply source) text) →
        ∀ p ∈ ps, p.regex.pieces text = text.map .keep) := by
  induction ps generalizing text with
  | nil => exact ⟨Nat.le_refl _, fun _ p hp => by cases hp⟩
  | cons p ps ih =>
    obtain ⟨hp, hps⟩ := List.forall_mem_cons.mp hps
    obtain ⟨hle, hnone⟩ := weigh_replaceAll hp text
    obtain ⟨hle', hnone'⟩ := ih hps (p.apply text)
    rw [List.foldl_cons]
    refine ⟨hle'.trans hle, fun hge => ?_⟩
    have hkeep := hnone (hge.trans hle')
    rw [Pass.apply_of_keep hkeep] at hge hnone'
    exact List.forall_mem_cons.mpr ⟨hkeep, hnone' hge⟩

/-- A pass that finds nothing changes no element. -/
theorem Edits.eq_of_keep {replacement : Bytes} {es es' : List InputElement}
    {ps : List (Piece UInt8)} (h : Edits replacement es ps es')
    (hps : ∀ found, Piece.hit found ∉ ps) :
    es' = es := by
  have hsame : ∀ qs : List (Piece UInt8), (∀ found, Piece.hit found ∉ qs) →
      qs.flatMap (Piece.replaced replacement) = qs.flatMap Piece.source := by
    intro qs hqs
    have hkeep := congrArg (fun qs => qs.flatMap (Piece.replaced replacement)) (eq_map_keep hqs)
    rwa [replaced_map_keep] at hkeep
  induction h with
  | nil => rfl
  | keep _ ih => rw [ih fun found hmem => hps found (List.mem_append_right _ hmem)]
  | comment he _ ih =>
    rw [ih fun found hmem => hps found (List.mem_append_right _ hmem)]
    cases he with
    | line => rw [hsame _ fun found hmem => hps found (by simp [hmem])]
    | block => rw [hsame _ fun found hmem => hps found (by simp [hmem])]

/-- Nothing is found at the start of a token. -/
theorem not_edits_of_hit {replacement found : Bytes} {e : InputElement} {es es' : List InputElement}
    {ps : List (Piece UInt8)} (he : e.isTrivia = false) (hvalid : e.Valid) :
    ¬ Edits replacement (e :: es) (.hit found :: ps) es' := by
  intro h
  generalize hpieces : Piece.hit found :: ps = pieces at h
  cases h with
  | keep _ =>
    cases htext : e.text with
    | nil => exact text_ne_nil hvalid htext
    | cons c rest => simp [htext] at hpieces
  | comment hcomment _ => simp [hcomment.isTrivia.1] at he

/-- `interface`, a line feed, `foo`, a line feed and a block that holds a comment -/
def blockAfterNames : Source where
  elements := [.word (bytes "interface"), .blank [10], .word (bytes "foo"), .blank [10],
    .punctuator (bytes "\x7b"), .blank [32],
    .blockComment (bytes " \x7dinterface\nfoo\n\x7b\x7d // "), .blank [32],
    .punctuator (bytes "\x7d")]
  valid := by decide +kernel
  precedes := by decide +kernel

set_option maxRecDepth 2000 in
/-- With comments the tokens may be lost and found again: here a match ends in the comment, which
goes on with the same tokens. -/
theorem kept_by_chance : ∃ t s, KeepsTokens t s ∧ ¬ StaysInComments (passes t) s.elements := by
  refine ⟨.ascii, blockAfterNames, ?_, ?_⟩
  · refine ⟨⟨[.word (bytes "interface"), .blank [10], .word (bytes "foo"), .blank [10],
      .punctuator (bytes "\x7b"), .punctuator (bytes "\x7d"), .blank [32],
      .lineComment (bytes "//") (bytes " */ \x7d")], ?_, ?_⟩, ?_, ?_⟩ <;> decide
  · intro h
    have hquiet : (removeTypeImports .ascii).regex.pieces (elementsText blockAfterNames.elements) =
        (elementsText blockAfterNames.elements).map .keep := by
      decide
    have hcross : (removeInterfaces .ascii).regex.pieces (elementsText blockAfterNames.elements) =
        .hit (bytes "interface\nfoo\n\x7b /* \x7d") ::
          (bytes "interface\nfoo\n\x7b\x7d // */ \x7d").map .keep := by
      decide
    cases h with
    | pass hfirst h =>
      rw [hquiet] at hfirst
      obtain rfl := hfirst.eq_of_keep (by simp)
      cases h with
      | pass hsecond _ =>
        rw [hcross] at hsecond
        exact not_edits_of_hit rfl (by decide) hsecond

/-! ## Only taking away -/

/-- A byte other than the space, which is all that a pass may add. -/
def noSpace (b : UInt8) : Bool := b ≠ 32

theorem weigh_ink_le (text : Bytes) : weigh ink text ≤ (text.filter noSpace).length := by
  induction text with
  | nil => exact Nat.le_refl _
  | cons b text ih =>
    rw [weigh_cons, List.filter_cons, ink]
    by_cases hb : (33 ≤ b && b ≤ 126) = true
    · have hspace : noSpace b = true := by
        rw [noSpace, decide_eq_true_eq]
        rintro rfl
        exact absurd hb (by decide)
      rw [if_pos hb, if_pos hspace, List.length_cons]
      omega
    · rw [if_neg hb]
      split
      · rw [List.length_cons]
        omega
      · omega

/-- All of a replacement but its spaces stands in everything that the pass finds. -/
def Pass.Restores (p : Pass) : Prop := (p.replacement.filter noSpace).Sublist p.regex.fixed

theorem passes_restore (t : CharTables) : ∀ p ∈ passes t, p.Restores := by
  have hreturn : (removeReturnTypes t).Restores := by
    have hfixed : (removeReturnTypes t).regex.fixed = bytes "):\x7b" := by
      simp only [removeReturnTypes, fixed_seqs, chars, List.flatMap_cons, fixed_lits, spaces, words,
        plus, typeArguments, fixed]
      rfl
    rw [Pass.Restores, hfixed]
    show ((bytes ") \x7b").filter noSpace).Sublist (bytes "):\x7b")
    decide
  have hassertion : removeNonNullAssertions.Restores := by
    rw [Pass.Restores, removeNonNullAssertions, chars, fixed_lits]
    decide
  simp only [passes, List.forall_mem_cons]
  exact ⟨List.nil_sublist _, List.nil_sublist _, List.nil_sublist _, List.nil_sublist _, hreturn,
    List.nil_sublist _, List.nil_sublist _, hassertion, fun _ h => by cases h⟩

/-- Passes that restore what they put in leave a part of the source and new spaces. -/
theorem filter_passes_sublist {ps : List Pass} (hps : ∀ p ∈ ps, p.Restores) (source : Bytes) :
    ((ps.foldl (fun source p => p.apply source) source).filter noSpace).Sublist
      (source.filter noSpace) := by
  induction ps generalizing source with
  | nil => exact List.Sublist.refl _
  | cons p ps ih =>
    obtain ⟨hp, hps⟩ := List.forall_mem_cons.mp hps
    exact (ih hps (p.apply source)).trans (filter_replaceAll_sublist hp source)

/-- No pass of `strip_types` finds anything. -/
def FindsNothing (t : CharTables) (source : Bytes) : Prop :=
  ∀ p ∈ passes t, p.regex.pieces source = source.map .keep

theorem stripTypes_of_findsNothing {t : CharTables} {source : Bytes} (h : FindsNothing t source) :
    stripTypes t source = source := by
  have hall : ∀ ps : List Pass, (∀ p ∈ ps, p.regex.pieces source = source.map .keep) →
      ps.foldl (fun source p => p.apply source) source = source := by
    intro ps hps
    induction ps with
    | nil => rfl
    | cons p ps ih =>
      obtain ⟨hp, hps⟩ := List.forall_mem_cons.mp hps
      rw [List.foldl_cons, Pass.apply_of_keep hp, ih hps]
  exact hall (passes t) h

/-- Once the passes find nothing, they find nothing again; before that, each round takes away
something visible. -/
theorem stripTypes_progress (t : CharTables) (source : Bytes) :
    FindsNothing t source ∨ weigh ink (stripTypes t source) < weigh ink source := by
  by_cases hge : weigh ink source ≤ weigh ink (stripTypes t source)
  · exact .inl ((finds_nothing (passes_lighten t) source).2 hge)
  · exact .inr (Nat.lt_of_not_le hge)

/-- `strip_types` adds nothing but spaces and moves nothing, and applied again and again it comes to
rest, after no more rounds than the source has other bytes. -/
theorem strip_types_takes_away (t : CharTables) (source : Bytes) :
    ((stripTypes t source).filter noSpace).Sublist (source.filter noSpace) ∧
      ∀ n, (source.filter noSpace).length ≤ n → FindsNothing t ((stripTypes t)^[n] source) := by
  refine ⟨filter_passes_sublist (passes_restore t) source, fun n hn => ?_⟩
  refine settles_iterate (fun s hs => ?_) (stripTypes_progress t) ((weigh_ink_le source).trans hn)
  rwa [stripTypes_of_findsNothing hs]

end BeamJS
