import BeamJS.Nif.ModuleLoader

/-!
# Proofs: module names

A relative specifier is put behind the directory text of its base name without a change, so two
imports of one path share a module exactly if the texts agree.
-/

namespace BeamJS

open Lib

theorem not_beamjs_of_relative {name : Bytes} (h : isRelative name = true) :
    (bytes "beamjs:").isPrefixOf name = false := by
  have hb : bytes "beamjs:" = [98, 101, 97, 109, 106, 115, 58] := by decide
  rw [hb]
  unfold isRelative at h
  split at h
  · rfl
  · rfl
  · cases h

theorem moduleNormalize_relative {name : Bytes} (h : isRelative name = true) (base : Bytes) :
    moduleNormalize base name = dirPrefix base ++ name := by
  rw [moduleNormalize, not_beamjs_of_relative h, if_neg Bool.false_ne_true, if_pos h]

end BeamJS
