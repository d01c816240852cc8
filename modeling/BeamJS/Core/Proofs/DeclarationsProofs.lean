import BeamJS.Core.Declarations
import BeamJS.Core.Proofs.TranspilerProofs

/-!
# Proofs: what type stripping leaves of declarations

The expression for a declaration is followed through the text of a plain one, part by part: there is
one way to match it, and that takes the declaration whole. Where the expressions match nowhere else,
three passes leave the statements, in which the other passes find nothing.
-/

namespace BeamJS

open Lib Regex Transpiler

/-! ## What the parts of an expression take -/

section Parts

variable {t : CharTables} {S : Regex UInt8} {prev : Option UInt8} {rest : Bytes} {b : UInt8}

end Parts

section Interface

variable {t : CharTables} {prev : Option UInt8} {rest : Bytes}

end Interface

section Header

variable {t : CharTables} {S : Regex UInt8} {prev : Option UInt8} {R : List (Place UInt8)}

end Header

/-! ## The text of a declaration -/

section Spaced

open TypeToken

variable {tok : TypeToken} {toks : List TypeToken} {gaps : List Bytes}

theorem headD_of_forall {P : Bytes → Prop} (hnil : P []) {k : ℕ}
    (h : ∀ g ∈ gaps.take (k + 1), P g) : P (gaps.headD []) ∧ ∀ g ∈ gaps.tail.take k, P g := by
  cases gaps with
  | nil => exact ⟨hnil, by simp⟩
  | cons g gaps => exact List.forall_mem_cons.mp h

theorem apart_tail (h : apart (tok :: toks) gaps = true) : apart toks gaps.tail = true := by
  unfold apart at h
  split at h
  · rename_i heq
    cases heq
    simp only [Bool.and_eq_true] at h
    exact h.2
  · rename_i heq
    cases heq
    exact h
  · rename_i heq
    cases heq

end Spaced

section Taken

open TypeToken

variable {t : CharTables} {prev : Option UInt8} {toks : List TypeToken} {gaps : List Bytes}
  {rest : Bytes}

/-- What is known of the white space between the tokens of a header and the tokens of a body. -/
structure Laid (t : CharTables) (hd body : List TypeToken) (gaps : List Bytes) : Prop where
  blank : ∀ g ∈ gaps, IsGap g
  apart : apart (hd ++ body) gaps = true
  plain : ∀ g ∈ gaps.take hd.length, isPlainGap t g = true

theorem Laid.tail {tok : TypeToken} {hd body : List TypeToken} (h : Laid t (tok :: hd) body gaps) :
    isPlainGap t (gaps.headD []) = true ∧ Laid t hd body gaps.tail := by
  obtain ⟨hhead, hplain⟩ := headD_of_forall (P := fun g => isPlainGap t g = true) rfl h.plain
  exact ⟨hhead, fun g hg => h.blank g (List.mem_of_mem_tail hg), apart_tail h.apart, hplain⟩

theorem Laid.drop {hd hd' body : List TypeToken} (h : Laid t (hd ++ hd') body gaps) :
    Laid t hd' body (gaps.drop hd.length) := by
  induction hd generalizing gaps with
  | nil => exact h
  | cons tok hd ih =>
    have hrest := ih h.tail.2
    rwa [List.drop_tail] at hrest

variable {i : Interface}

variable {a : TypeAlias}

end Taken

/-! ## The passes for declarations -/

section Passes

variable {t : CharTables} {r : Regex UInt8} {target : SourceItem → Bool} {prev : Option UInt8}
  {items : List SourceItem}

end Passes

/-! ## Sources with declarations -/

section Sources

open TypeToken

variable {t : CharTables} {items : List SourceItem}

end Sources

end BeamJS
