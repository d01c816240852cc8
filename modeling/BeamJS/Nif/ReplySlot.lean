import BeamJS.Lib.Transition
import BeamJS.Nif.HostCall

/-!
# An evaluation and an owner that answers

The owner takes each request from its inbox and delivers one reply for it. Requests are numbered in
the order in which they are sent, and every reply carries the number of the request it is for.
-/

namespace BeamJS

open Lib

/-- An evaluation, its slot and the owner. -/
structure Exchange (E : Type) where
  eval : EvalSide E (ℕ × Term)
  /-- The requests that the owner has not taken yet. -/
  inbox : List ℕ
  /-- The request that the owner answers now. -/
  answering : Option ℕ
  /-- The number of requests sent. -/
  sent : ℕ

/-- A step of the evaluating thread or of the owner. -/
inductive ExchangeAct where
  | thread
  /-- The owner takes the next request. -/
  | receive
  /-- `enif_mutex_lock` in `deliver_host_reply`. -/
  | lock
  /-- The rest of `deliver_host_reply`. -/
  | deliver (reply : Term)

section Exchange

variable {E G : Type} (next : E → Next E G)

/-- The start of the evaluation `e`. -/
def Exchange.start (e : E) : Exchange E := ⟨⟨.running e, 0, .empty⟩, [], none, 0⟩

/-- One step. -/
def exchangeStep (act : ExchangeAct) (x : Exchange E) : Option (Exchange E) :=
  match act with
  | .thread =>
    (threadStep next Prod.snd x.eval).map fun eval =>
      if (requestOf next x.eval).isSome then
        { x with eval, inbox := x.inbox ++ [x.sent], sent := x.sent + 1 }
      else { x with eval }
  | .receive =>
    match x.answering, x.inbox with
    | none, i :: inbox => some { x with inbox, answering := some i }
    | _, _ => none
  | .lock =>
    match x.answering, x.eval.slot.holder with
    | some _, .free => some { x with eval.slot.holder := .owner }
    | _, _ => none
  | .deliver reply =>
    match x.answering, x.eval.slot.holder with
    | some i, .owner => some { x with eval.slot := .deliver (i, reply), answering := none }
    | _, _ => none

/-- The evaluation of `e` with an owner that answers. -/
def exchange (e : E) : Lts (Exchange E) ExchangeAct where
  init x := x = Exchange.start e
  step x act y := exchangeStep next act x = some y

end Exchange

/-- The protocol of the slot. -/
structure SlotProtocol {E : Type} (x : Exchange E) : Prop where
  /-- The thread never locks the mutex that it holds. -/
  no_relock : ∀ r, x.eval.phase = .locking r → x.eval.slot.holder ≠ .evaluation
  /-- The reply that a request finds is the one for it. The request that waits is the last one. -/
  own_reply : ∀ r, x.eval.phase = .checking r → x.eval.slot.ready = true →
    ∃ i t, x.eval.slot.reply = some (i, t) ∧ x.sent = i + 1
  /-- The owner never overwrites a reply that is ready and unread. -/
  no_overwrite : x.eval.slot.holder = .owner →
    ¬ (x.eval.slot.ready = true ∧ x.eval.slot.unread = true)

/-! ## Programs by themselves -/

/-- An evaluation as its program sees it: a request is answered at once, and one loader at most is
open. -/
structure Play (E : Type) where
  eval : E
  /-- A loader compiles or runs a module. -/
  loading : Bool

/-- What a program does, and the replies to its requests. -/
inductive PlayAct where
  | go
  | answer (reply : Term)

section Play

variable {E G : Type} (next : E → Next E G)

/-- One step of a program, up to a request that is made while a loader is open. -/
def playStep (act : PlayAct) (p : Play E) : Option (Play E) :=
  match act, next p.eval with
  | .go, .compute e => some { p with eval := e }
  | .go, .loaded e => if p.loading then some ⟨e, false⟩ else none
  | .answer reply, .request r =>
    if p.loading then none
    else
      match r.answered reply with
      | (e, loading) => some ⟨e, loading⟩
  | _, _ => none

/-- The plays of a program. -/
def plays (e : E) : Lts (Play E) PlayAct where
  init p := p = ⟨e, false⟩
  step p act q := playStep next act p = some q

/-- The program makes a request while a loader is open: the module it loads imports another one, or
its body calls the host. -/
def Nested (p : Play E) : Prop := p.loading = true ∧ ∃ r, next p.eval = .request r

end Play

end BeamJS
