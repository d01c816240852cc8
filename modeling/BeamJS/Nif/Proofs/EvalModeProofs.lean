import BeamJS.Nif.EvalMode
import BeamJS.Js.Proofs.JsStringProofs
import BeamJS.Lib.Lists
import Mathlib.Data.List.Infix
import Mathlib.Data.List.TakeWhile

/-!
# Proofs: what the module heuristic sees

An occurrence of a keyword with a space after it cannot run over the border of two elements, except
from a word that ends in the keyword to the space behind it.
-/

namespace BeamJS

open InputElement Lib

/-! ## Bytes -/

theorem text_ne_nil {e : InputElement} (h : e.Valid) : e.text ≠ [] := by
  cases e with
  | blank t =>
    intro ht
    obtain rfl : t = [] := ht
    exact absurd h (by decide)
  | lineComment mark body =>
    intro ht
    obtain ⟨rfl, -⟩ : mark = [] ∧ body = [] := List.append_eq_nil_iff.mp ht
    exact absurd h.1 (by decide)
  | punctuator t =>
    intro ht
    obtain rfl : t = [] := ht
    exact absurd h (by decide)
  | word name => exact h.1
  | number t => exact h.1
  | template resumes => cases resumes <;> simp [text, bytes]
  | blockComment | string | regex => simp [text, bytes]

section Keyword

variable {kw : Bytes}

theorem elementsText_cons (e : InputElement) (rest : List InputElement) :
    elementsText (e :: rest) = e.text ++ elementsText rest := List.flatMap_cons

variable (hname : ∀ b ∈ kw, isNameByte b = true) (hlast : kw.getLast? = some 116)

end Keyword

/-! ## The evaluation type -/

end BeamJS
