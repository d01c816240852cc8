import BeamJS.Core.Mailbox
import BeamJS.Lib.Transition

/-!
# `sleep` and `receive`

`sleep(ms)` of `timer.js` and `receive(timeout)` of `process.js` are both the host call `receive`,
whose argument no clause of `handle_info` reads. The process is that of the mailbox, with a record
of the functions that its program called.
-/

namespace BeamJS

open Lib

/-- A function of the library that the program of a process calls. -/
inductive ProgramCall where
  /-- `receive(timeout)`, with `timeout || 0` as it is passed on. -/
  | receive (timeout : Term)
  | sleep (ms : Term)
  | other (fn : HostFn) (h : fn ≠ .receive) (args : List Term)

namespace ProgramCall

/-- The host function that it calls. -/
def fn : ProgramCall → HostFn
  | receive _ | sleep _ => .receive
  | other fn _ _ => fn

/-- The arguments that it passes on. -/
def args : ProgramCall → List Term
  | receive timeout => [timeout]
  | sleep ms => [ms]
  | other _ _ args => args

/-- It is a `receive`. -/
def isReceive : ProgramCall → Bool
  | receive _ => true
  | _ => false

/-- It is a `sleep`. -/
def isSleep : ProgramCall → Bool
  | sleep _ => true
  | _ => false

end ProgramCall

/-- A process, and the calls of its program up to now. -/
structure Sleeper (W : Type) where
  mail : Mail W
  calls : List ProgramCall

/-- A message arrives, or the program makes a call. -/
inductive SleepEvent where
  | arrives (message : Term)
  | calls (call : ProgramCall)

section Sleeper

variable {W : Type} (sys : Otp W)

/-- One event, as `handle_info` takes it. -/
def Sleeper.step (st : Sleeper W) : SleepEvent → Option (Sleeper W)
  | .arrives message =>
    (handleEvent sys st.mail (.jsMessage message)).map fun mail => { st with mail }
  | .calls call =>
    (handleEvent sys st.mail (.hostCall call.fn call.args)).map fun mail =>
      ⟨mail, st.calls ++ [call]⟩

/-- The process from `init` on. -/
def sleeperLts : Lts (Sleeper W) SleepEvent where
  init st := ∃ opts world, st = ⟨Mail.start sys opts world, []⟩
  step st event st' := st.step sys event = some st'

variable {sys}

/-- The calls that returned, with what they returned. -/
def Sleeper.returned (st : Sleeper W) : List (ProgramCall × Term) :=
  st.calls.zip (st.mail.host.deliveries.map Delivery.reply)

/-- Sleeping does not eat messages: `receive` returns all that have left the mailbox, in order, and
no `sleep` was given one. -/
structure Sleeper.KeepsMessages (st : Sleeper W) : Prop where
  received : (st.returned.filter fun r => r.1.isReceive).map Prod.snd ++ st.mail.proc.mailbox =
    st.mail.arrived
  sleeps : ∀ r ∈ st.returned, r.1.isSleep = false

/-- The last call is a `sleep` that waits. -/
def Sleeper.asleep (st : Sleeper W) : Bool :=
  st.mail.proc.awaitingReceive && st.calls.getLast?.any ProgramCall.isSleep

/-- `sleep` is called on an empty mailbox, and no message arrives while it waits. -/
def Undisturbed (st : Sleeper W) : SleepEvent → Prop
  | .arrives _ => st.asleep = false
  | .calls (.sleep _) => st.mail.proc.mailbox = []
  | .calls _ => True

end Sleeper

end BeamJS
