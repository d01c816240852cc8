import BeamJS.Core.HostFailure
import BeamJS.Erl.TermEq
import BeamJS.Core.Proofs.MailboxProofs

/-!
# Proofs: when a host call fails as a value

The weakest precondition of each clause of `dispatch_host_call`: most clauses go on with whatever
OTP answers, so that only the arguments that they take apart themselves and the functions that may
fail in their caller are left.
-/

namespace BeamJS

open Lib

section Clauses

variable {W : Type} {sys : Otp W} {peers : Peers sys} {h : HostSide W} {s : ProcState}

/-- The program returns, and no exit signal is on its way. -/
abbrev Ends (peers : Peers sys) {α : Type} (m : Callback W α) (h : HostSide W) : Prop :=
  m.wp hostOp (fun _ h' => ¬ peers.doomed h'.world) h

end Clauses

/-- The object that JavaScript passes for a handle, with a NUL after its `__beamjs_type`. -/
def forgedHandle : JsValue :=
  .object none [(js "__beamjs_type" ++ [0], .string (js "pid")),
    (js "__beamjs_data", .string (js "g1h3DW5vbm9kZUBub2hvc3QAAABuAAAAAAAAAAA="))]

end BeamJS
