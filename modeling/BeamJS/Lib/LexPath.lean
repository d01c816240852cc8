import Mathlib.Data.List.Basic

/-!
# Lexical paths

A text is cut into segments at a separator, and segments move through directories by name alone. A
path that is not rooted counts the times it leaves its start.
-/

namespace Lib

section Segments

variable {α : Type} [DecidableEq α] (sep : α)

/-- The segments of a text after the characters `cur` of an open segment. -/
def segmentsFrom (cur : List α) : List α → List (List α)
  | [] => if cur = [] then [] else [cur]
  | c :: p =>
    if c = sep then if cur = [] then segmentsFrom [] p else cur :: segmentsFrom [] p
    else segmentsFrom (cur ++ [c]) p

/-- The segments between separators that are not empty. -/
def segments (p : List α) : List (List α) := segmentsFrom sep [] p

theorem segmentsFrom_append (cur p q : List α) :
    segmentsFrom sep cur (p ++ sep :: q) = segmentsFrom sep cur p ++ segments sep q := by
  induction p generalizing cur with
  | nil =>
    simp only [List.nil_append, segmentsFrom, if_true]
    split <;> rfl
  | cons c p ih =>
    rw [List.cons_append, segmentsFrom, segmentsFrom]
    split
    · split
      · exact ih []
      · rw [ih [], List.cons_append]
    · exact ih (cur ++ [c])

theorem segments_append (p q : List α) :
    segments sep (p ++ sep :: q) = segments sep p ++ segments sep q :=
  segmentsFrom_append sep [] p q

theorem segmentsFrom_of_notMem {cur p : List α} (h : sep ∉ p) (hne : cur ++ p ≠ []) :
    segmentsFrom sep cur p = [cur ++ p] := by
  induction p generalizing cur with
  | nil =>
    rw [List.append_nil] at hne ⊢
    rw [segmentsFrom, if_neg hne]
  | cons c p ih =>
    obtain ⟨hc, hp⟩ : c ≠ sep ∧ sep ∉ p := by simpa [eq_comm] using h
    rw [segmentsFrom, if_neg hc, ih hp (by simp), List.append_assoc, List.singleton_append]

theorem segments_of_notMem {p : List α} (h : sep ∉ p) (hne : p ≠ []) : segments sep p = [p] :=
  segmentsFrom_of_notMem sep h hne

theorem segmentsFrom_ne_nil {cur : List α} (h : cur ≠ []) (p : List α) :
    segmentsFrom sep cur p ≠ [] := by
  induction p generalizing cur with
  | nil => simp [segmentsFrom, h]
  | cons c p ih =>
    rw [segmentsFrom]
    split
    · simp
    · exact ih (by simp)

/-- A text that does not start with a separator has a segment. -/
theorem segments_ne_nil {c : α} (h : c ≠ sep) (p : List α) : segments sep (c :: p) ≠ [] := by
  rw [segments, segmentsFrom, if_neg h]
  exact segmentsFrom_ne_nil sep (by simp) p

end Segments

/-- What a segment does to a path. -/
inductive Move (σ : Type) where
  | stay
  | up
  | into (name : σ)
  deriving DecidableEq

/-- A path without detours: from the root or not, the levels above the start, and the names from
there on. -/
@[ext] structure LexPath (σ : Type) where
  rooted : Bool
  ups : ℕ
  names : List σ
  deriving DecidableEq

namespace LexPath

variable {σ : Type}

/-- `/`. -/
def root : LexPath σ := ⟨true, 0, []⟩

/-- The directory the path starts in. -/
def here : LexPath σ := ⟨false, 0, []⟩

/-- One move. There is no way up from the root. -/
def go (p : LexPath σ) : Move σ → LexPath σ
  | .stay => p
  | .into name => { p with names := p.names ++ [name] }
  | .up =>
    if p.names = [] then if p.rooted then p else { p with ups := p.ups + 1 }
    else { p with names := p.names.dropLast }

/-- The moves one after the other. -/
def walk (p : LexPath σ) (moves : List (Move σ)) : LexPath σ := moves.foldl go p

theorem walk_append (p : LexPath σ) (ms ns : List (Move σ)) :
    p.walk (ms ++ ns) = (p.walk ms).walk ns := List.foldl_append

theorem walk_into_injective {p q : LexPath σ} {name : σ}
    (h : p.walk [.into name] = q.walk [.into name]) : p = q := by
  obtain ⟨hrooted, hups, hnames⟩ := LexPath.ext_iff.mp h
  exact LexPath.ext hrooted hups (List.append_cancel_right hnames)

end LexPath

end Lib
