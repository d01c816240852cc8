import BeamJS.Core.Replies
import BeamJS.Core.Proofs.GenServerProofs
import BeamJS.Core.Proofs.HandlerProofs
import BeamJS.Core.Proofs.InfoDispatchProofs

/-!
# Proofs: deferred replies

The callbacks of the server send nothing themselves, so a reply is either the outcome of a `js_call`
or that of a host call `reply`, whose token is still the Base64 text of the `from` that it was made
for.
-/

namespace BeamJS

open Lib

/-! ## The callbacks send nothing -/

section World

variable {W : Type} {ord : MapOrder} {methods : Methods}

end World

/-! ## The history -/

variable {base : Otp Unit} {methods : Methods}

theorem Sends.mono {calls calls' : ℕ → Option Term} {entry : DeskEntry} {sent : Outbox}
    (h : Sends calls entry sent) (hle : ∀ i caller, calls i = some caller → calls' i = some caller) :
    Sends calls' entry sent := by
  cases h with
  | direct h => exact .direct h
  | silent => exact .silent
  | cast => exact .cast
  | deferred h => exact .deferred (hle _ _ h)

/-- The `from` of each call, by its number. -/
abbrev Desk.callerOf (desk : Desk) (i : ℕ) : Option Term := (desk.calls[i]?).map Prod.fst

theorem calls_snoc {desk desk' : Desk} {entry : DeskEntry}
    (h : desk'.history = desk.history ++ [entry]) :
    desk'.calls = desk.calls ++ entry.call?.toList := by
  rw [Desk.calls, h, List.filterMap_append]
  cases hcall : entry.call? with
  | none => simp [hcall, Desk.calls]
  | some call => simp [hcall, Desk.calls]

/-- One more entry, with the replies that it stands for. -/
theorem Desk.RepliesReach.snoc {desk desk' : Desk} {entry : DeskEntry} {sent : Outbox}
    (h : desk.RepliesReach) (hhistory : desk'.history = desk.history ++ [entry])
    (hsends : Sends desk'.callerOf entry sent) (houtbox : desk'.outbox = desk.outbox ++ sent) :
    desk'.RepliesReach := by
  obtain ⟨parts, hparts, hflat⟩ := h
  have hle : ∀ i caller, desk.callerOf i = some caller → desk'.callerOf i = some caller := by
    intro i caller hi
    obtain ⟨call, hcall, rfl⟩ := Option.map_eq_some_iff.mp hi
    rw [Desk.callerOf, calls_snoc hhistory,
      List.getElem?_append_left (List.getElem?_eq_some_iff.mp hcall).1, hcall]
    rfl
  refine ⟨parts ++ [sent], ?_, ?_⟩
  · rw [hhistory]
    exact List.rel_append (hparts.imp fun _ _ hs => hs.mono hle) (.cons hsends .nil)
  · rw [houtbox, hflat, List.flatten_append]
    simp

end BeamJS
