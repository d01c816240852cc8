import BeamJS.Nif.Eval
import BeamJS.Js.Source
import Mathlib.Data.List.Infix

/-!
# The evaluation type

How `nif_eval` tells a module from a script, against the declarations that the source has.
-/

namespace BeamJS

open InputElement

/-- `JS_EVAL_TYPE_GLOBAL` or `JS_EVAL_TYPE_MODULE`. -/
inductive EvalType where
  | global | module
  deriving DecidableEq

/-- The evaluation type that `nif_eval` selects. -/
def evalType (source : Bytes) : EvalType :=
  if isModuleSource source then .module else .global

end BeamJS
