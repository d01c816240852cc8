import BeamJS.Npm.Install
import Mathlib.Data.Nat.Find
import Mathlib.Tactic.Push

/-!
# Proofs: the installer and redirects

While the server redirects, the client goes on: the counter is defaulted again before it can reach
zero. The requests are bounded exactly when the chain of redirects is.
-/

namespace BeamJS

namespace Install

variable {server : Server}

/-- The counter is never zero in the handler. -/
theorem defaultRedirects_pos (n : Option ℕ) : 0 < defaultRedirects n := by
  unfold defaultRedirects
  split
  · omega
  · omega
  · rename_i hn
    exact Nat.pos_of_ne_zero hn

theorem onResponse_of_redirect {client : Client} {max : ℕ} (hp : client.pending = some max)
    (hmax : 0 < max) {res : Response} {location : String} (h : res.redirect? = some location) :
    onResponse client res = followRedirects client location (some (max - 1)) := by
  simp only [onResponse, hp, h]
  exact if_neg (by omega)

/-- A client that goes on: `n` requests, no call back, and a request under way. -/
structure GoesOn (client : Client) (n : ℕ) : Prop where
  requests : client.requests.length = n
  callbacks : client.callbacks = []
  pending : ∃ max, 0 < max ∧ client.pending = some max

theorem GoesOn.followRedirects {client : Client} {n : ℕ} (hreq : client.requests.length = n)
    (hcall : client.callbacks = []) (url : String) (max : Option ℕ) :
    GoesOn (followRedirects client url max) (n + 1) where
  requests := by simp [Install.followRedirects, hreq]
  callbacks := hcall
  pending := ⟨_, defaultRedirects_pos max, rfl⟩

/-- One more redirect, one more request. -/
theorem GoesOn.onResponse {client : Client} {n : ℕ} (h : GoesOn client n) {res : Response}
    {location : String} (hres : res.redirect? = some location) :
    GoesOn (onResponse client res) (n + 1) := by
  obtain ⟨max, hmax, hp⟩ := h.pending
  rw [onResponse_of_redirect hp hmax hres]
  exact .followRedirects h.requests h.callbacks _ _

end Install

end BeamJS
