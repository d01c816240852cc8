import BeamJS.Core.Mailbox

/-!
# Failures of host calls

When a host call raises or exits, or brings an exit signal back on the process, the GenServer dies
with its context in use. `Peers` collects what OTP documents about the functions that a host call
reaches: in which states of the other processes they return and send no such signal.
-/

namespace BeamJS

open Lib

variable {W : Type}

/-- In the world `w` the function returns and leaves no exit signal on its way to the caller. -/
def Returns (doomed : W → Prop) {α : Type} (f : OtpFn W α) (w : W) : Prop :=
  (∃ a, (f w).1 = .ok a) ∧ ¬ doomed (f w).2

/-- A map of Elixir. -/
def isMap : Term → Bool
  | .map _ => true
  | _ => false

/-- The other processes as a host call finds them. -/
structure Peers (sys : Otp W) where
  /-- An exit signal that ends the caller, which traps no exits, is on its way. -/
  doomed : W → Prop
  /-- `Kernel.send` takes the destination: a pid or the name of a process. -/
  sendable : W → Term → Prop
  /-- `Process.monitor` takes the term: a pid or a name. -/
  monitorable : Term → Prop
  /-- `GenServer.call` and `GenServer.cast` take the term as a server: a pid or a name. -/
  isServer : Term → Prop
  /-- The term is the pid of a process that is alive. -/
  alive : W → Term → Prop
  /-- The supervisor of the specification starts with all its children, or its name is taken. -/
  supervisorStarts : W → Term → Bytes → Prop
  /-- `Logger` takes the message. -/
  loggable : Term → Prop
  /-- The task that evaluates the source ends normally. -/
  taskEnds : W → Term → Prop
  /-- The pid is an agent that is alive and answers in time. -/
  agentAnswers : W → Term → Prop
  /-- The pid is an agent that is alive and answers the update with this function in time. -/
  agentUpdates : W → Term → Term → Prop
  /-- The pid is a process that is alive and stops normally. -/
  agentStops : W → Term → Prop
  send_returns : ∀ w dest message, ¬ doomed w →
    (Returns doomed (sys.send dest message) w ↔ sendable w dest)
  monitor_returns : ∀ w dest, ¬ doomed w → (Returns doomed (sys.monitor dest) w ↔ monitorable dest)
  /-- A process that is not there sends the exit signal `noproc`. -/
  link_returns : ∀ w pid, ¬ doomed w → (Returns doomed (sys.link pid) w ↔ alive w pid)
  /-- An exit signal cannot be called back. -/
  link_doomed : ∀ w pid, doomed w → doomed (sys.link pid w).2
  register_returns : ∀ w name, ¬ doomed w → Returns doomed (sys.register name) w
  lookup_returns : ∀ w name, ¬ doomed w → Returns doomed (sys.lookup name) w
  /-- The child is linked to the supervisor and not to the caller. -/
  startSupervised_returns : ∀ w opts, ¬ doomed w → Returns doomed (sys.startSupervised opts) w
  /-- A negative timeout raises, other failures exit and are caught. -/
  call_returns : ∀ w dest request timeout, ¬ doomed w →
    (Returns doomed (sys.call dest request timeout) w ↔ isServer dest ∧ 0 ≤ timeout)
  cast_returns : ∀ w dest request, ¬ doomed w →
    (Returns doomed (sys.cast dest request) w ↔ isServer dest)
  reply_returns : ∀ w dest response, ¬ doomed w → Returns doomed (sys.reply dest response) w
  /-- A `start_link` whose `init` fails sends its caller an exit signal. -/
  startSupervisor_returns : ∀ w spec baseDir, ¬ doomed w →
    (Returns doomed (sys.startSupervisor spec baseDir) w ↔ supervisorStarts w spec baseDir)
  log_returns : ∀ w level message, ¬ doomed w →
    (Returns doomed (sys.log level message) w ↔ loggable message)
  loggable_binary : ∀ b, loggable (.binary b)
  /-- The task is linked to the caller. -/
  taskAsync_returns : ∀ w source, ¬ doomed w →
    (Returns doomed (sys.taskAsync source) w ↔ taskEnds w source)
  agentStart_returns : ∀ w value name, ¬ doomed w → Returns doomed (sys.agentStart value name) w
  /-- `Agent.get`, `Agent.update` and `Agent.stop` exit where the process is not there. -/
  agentGet_returns : ∀ w pid, ¬ doomed w →
    (Returns doomed (sys.agentGet pid) w ↔ agentAnswers w pid)
  agentUpdate_returns : ∀ w pid fnSource, ¬ doomed w →
    (Returns doomed (sys.agentUpdate pid fnSource) w ↔ agentUpdates w pid fnSource)
  agentStop_returns : ∀ w pid, ¬ doomed w → (Returns doomed (sys.agentStop pid) w ↔ agentStops w pid)

/-! ## The outcome of a host call -/

section Conditions

variable {sys : Otp W} (peers : Peers sys) (w : W)

end Conditions

end BeamJS
