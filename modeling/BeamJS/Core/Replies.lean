import BeamJS.Core.Handler
import BeamJS.Core.GenServer
import BeamJS.Lib.Transition

/-!
# Deferred replies

One GenServer with many callers. It answers a `js_call` with the result of its handler, or later,
when some process makes the host call `reply` with the token that the handler was given. The world
keeps the replies that were sent.
-/

namespace BeamJS

open Lib

/-- The replies sent so far: the `from` that each went to, and its value. -/
abbrev Outbox := List (Term × Term)

/-- `{pid, tag}`, the form of a `from`. -/
def isFrom : Term → Bool
  | .tuple [_, _] => true
  | _ => false

/-- An OTP whose `GenServer.reply` sends a reply to the given `from`, and raises for anything else.
-/
def replyOtp (base : Otp Unit) : Otp Outbox :=
  { (base.still : Otp Outbox) with
    reply := fun dest response outbox =>
      if isFrom dest then (.ok true, outbox ++ [(dest, response)]) else (.ok false, outbox) }

/-- The `from` of a caller, which Base64 and the external term format give back as it was. -/
structure Caller (base : Otp Unit) where
  pid : Term
  tag : Term
  decode : base.pids.decode (base.encode64 (.tuple [pid, tag])) = some (.tuple [pid, tag])
  ascii : ∀ b ∈ base.encode64 (.tuple [pid, tag]), b.toNat < 0x80

/-- The `from` as a term. -/
def Caller.from' {base : Otp Unit} (caller : Caller base) : Term := .tuple [caller.pid, caller.tag]

/-- What the server and the processes with its tokens have done. -/
inductive DeskEntry where
  /-- A `js_call`, with the token that the handler was given and the run of the handler. -/
  | called (caller : Term) (token : JsValue) (run : MethodRun)
  | cast
  /-- A host call `reply` with the token of the `i`-th call. -/
  | replied (i : ℕ) (response : Term)

/-- The `from` and the token of a call. -/
def DeskEntry.call? : DeskEntry → Option (Term × JsValue)
  | .called caller token _ => some (caller, token)
  | _ => none

/-- The server, `none` once it is down, with its context and the history. -/
structure Desk where
  proc : Option ProcState
  context : RequestContext Outbox
  history : List DeskEntry

/-- An event of a run. A `reply` is made by a process with the state `s`. -/
inductive DeskEvent (base : Otp Unit) where
  | call (caller : Caller base) (request : Term)
  | cast (request : Term)
  | reply (i : ℕ) (response : Term) (s : ProcState)

/-- The operations of a clause of `dispatch_host_call`, which evaluates nothing. -/
def worldOp {W : Type} : ∀ {α : Type}, Op W α → W → Except Term α × W
  | _, .otp f, w => f w
  | _, .setGlobal _ _, w => (.ok (), w)
  | _, .eval _ _, w => (.error (.atom "undef"), w)
  | _, .deliver _, w => (.ok (), w)

/-- The token that the handler of a `js_call` is given. -/
def callToken {W : Type} (sys : Otp W) (caller : Term) (known : Atoms) : JsValue :=
  (erlTermToJs known (.binary (sys.encode64 caller))).1

namespace Desk

/-- The calls that the server has taken, in order. -/
def calls (desk : Desk) : List (Term × JsValue) := desk.history.filterMap DeskEntry.call?

/-- The replies sent so far. -/
def outbox (desk : Desk) : Outbox := desk.context.world

/-- The server after an outcome, which sends `direct` to the caller. -/
def after (desk : Desk) (proc : Option ProcState) (context : RequestContext Outbox)
    (direct : Outbox) (entry : DeskEntry) : Desk where
  proc := proc
  context := { context with world := context.world ++ direct }
  history := desk.history ++ [entry]

variable (base : Otp Unit) (methods : Methods)

/-- One event. -/
def step (desk : Desk) : DeskEvent base → Option Desk
  | .call caller request =>
    match desk.proc with
    | none => none
    | some p =>
      let entry := DeskEntry.called caller.from' (callToken base caller.from' desk.context.known)
        (methodRun (replyOtp base) methods (some caller.from') request desk.context)
      match serveRequest (replyOtp base) methods (some caller.from') request p desk.context with
      | (.ok (.reply t p), c) => some (desk.after (some p) c [(caller.from', t)] entry)
      | (.ok (.noreply p), c) => some (desk.after (some p) c [] entry)
      | (.ok (.stop _ (some t) _), c) => some (desk.after none c [(caller.from', t)] entry)
      | (.ok (.stop _ none _), c) => some (desk.after none c [] entry)
      | (.error _, c) => some (desk.after none c [] entry)
  | .cast request =>
    match desk.proc with
    | none => none
    | some p =>
      match serveRequest (replyOtp base) methods none request p desk.context with
      | (.ok (.reply _ p), c) | (.ok (.noreply p), c) => some (desk.after (some p) c [] .cast)
      | (.ok (.stop _ _ _), c) | (.error _, c) => some (desk.after none c [] .cast)
  | .reply i response s =>
    match desk.calls[i]? with
    | none => none
    | some (_, token) =>
      match jsValueToErl base.maps token with
      | none => none
      | some t =>
        let (_, world) := (dispatchHostCall (replyOtp base) .reply [t, response] s).run worldOp
          desk.context.world
        some { desk with
          context := { desk.context with world }
          history := desk.history ++ [.replied i response] }

end Desk

/-- The handler defers its reply: it returns `{noreply: true, state}`. -/
def Deferred (run : MethodRun) : Prop :=
  ∃ state, run.ended = .ok (.tree (HandlerResult.noreply state).toJs)

/-- The replies that an entry of the history stands for, where `calls` has the `from` of each call.
-/
inductive Sends (calls : ℕ → Option Term) : DeskEntry → Outbox → Prop
  | direct {caller : Term} {token : JsValue} {run : MethodRun} {answer : Term}
      (h : ¬ Deferred run) : Sends calls (.called caller token run) [(caller, answer)]
  | silent {caller : Term} {token : JsValue} {run : MethodRun} :
      Sends calls (.called caller token run) []
  | cast : Sends calls .cast []
  | deferred {i : ℕ} {response caller : Term} (h : calls i = some caller) :
      Sends calls (.replied i response) [(caller, response)]

/-- Every reply that was sent is one of an entry of the history, in order. A response given with a
token went to the caller that the token was made for, and the result of a handler to its own caller,
unless the handler deferred its reply. -/
def Desk.RepliesReach (desk : Desk) : Prop :=
  ∃ sent, List.Forall₂ (Sends fun i => (desk.calls[i]?).map Prod.fst) desk.history sent ∧
    desk.outbox = sent.flatten

end BeamJS
