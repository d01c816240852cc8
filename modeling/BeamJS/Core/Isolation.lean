import BeamJS.Erl.Term
import BeamJS.Lib.Spread
import BeamJS.Lib.Transition

/-!
# JS processes under their supervisor

The processes that run after `BeamjsCore.Application.start`: JS processes under the
`DynamicSupervisor`, others that were started outside of it, and the agents, tasks and supervisors
that JS processes start for themselves. A supervisor is started by a JS process and ends with it;
the processes below it are not spawned and are left out.
-/

namespace BeamJS

open Lib

/-- The reason of an exit. -/
inductive ExitReason where
  | normal
  | abnormal (reason : Term)

/-- An agent, a task or a supervisor, of which the last traps exits. -/
structure Helper where
  pid : Pid
  parent : Pid
  traps : Bool
  deriving DecidableEq

/-- `max_restarts` of a `DynamicSupervisor` without options. -/
def maxRestarts : ℕ := 3

/-- `max_seconds` of a `DynamicSupervisor` without options. -/
def maxSeconds : ℕ := 5

/-- The processes and what connects them. -/
structure Vm where
  /-- The next pid. -/
  next : Pid
  /-- The JS processes that are not under the supervisor. -/
  roots : List Pid
  /-- The children of `BeamjsCore.ProcessSupervisor`. -/
  children : List Pid
  helpers : List Helper
  links : List (Pid × Pid)
  /-- The links that JS code has asked for so far. -/
  asked : List (Pid × Pid)
  /-- The children that have terminated and whose exits the supervisor has not handled. -/
  exits : List Pid
  /-- The times of the last restarts, in seconds. -/
  restarts : List ℕ
  clock : ℕ
  deriving DecidableEq

/-- What happens in a run. -/
inductive VmAct where
  /-- `spawn`, or `start_gen_server` without the option `link`. -/
  | spawn
  /-- `spawn_link`, or `start_gen_server` with the option `link`. -/
  | spawnLink (caller : Pid)
  /-- `link` with a process that is alive. -/
  | link (caller target : Pid)
  /-- `agent_start` and `task_async`. -/
  | startLinked (caller : Pid)
  /-- `start_supervisor`, with or without the option `link`. -/
  | startSupervisor (caller : Pid) (link : Bool)
  /-- A process terminates of its own. -/
  | terminate (p : Pid) (reason : ExitReason)
  /-- The supervisor handles the next exit at the time `now`, and the child that it restarts comes
  up or fails again. -/
  | handleExit (now : ℕ) (up : Bool)

namespace Vm

/-- The start, with some JS processes outside the supervisor. -/
def start (roots : ℕ) : Vm where
  next := roots
  roots := List.range roots
  children := []
  helpers := []
  links := []
  asked := []
  exits := []
  restarts := []
  clock := 0

variable (w : Vm)

/-- The JS processes. -/
def jsProcesses : List Pid := w.roots ++ w.children

/-- The processes that are alive. -/
def alive : List Pid := w.jsProcesses ++ w.helpers.map Helper.pid

/-- `use GenServer` makes a child permanent: every exit of it is followed by a restart. The restarts
that count at the time `now`, this one included. -/
def countRestarts (now : ℕ) : List ℕ := (now :: w.restarts).filter fun t => now ≤ t + maxSeconds

/-- The exit signal of `p` ends the process `q` that is linked to it. A supervisor ends with its
parent only, and other processes unless the reason is `:normal`. -/
def signalEnds (reason : ExitReason) (p q : Pid) : Bool :=
  match w.helpers.find? fun h => h.pid = q && h.traps with
  | some h => h.parent = p
  | none =>
    match reason with
    | .normal => false
    | .abnormal _ => true

/-- The processes that the exit of `p` takes with it at once. -/
def takes (reason : ExitReason) (p : Pid) : List Pid :=
  w.alive.filter fun q => ((p, q) ∈ w.links || (q, p) ∈ w.links) && w.signalEnds reason p q

/-- The processes that end with those of `ps`. -/
def ending (reason : ExitReason) (ps : List Pid) : List Pid :=
  spread (w.takes reason) w.alive.length ps

/-- The processes without those that end. -/
def without (dead : List Pid) : Vm :=
  { w with
    roots := w.roots.filter (· ∉ dead)
    children := w.children.filter (· ∉ dead)
    helpers := w.helpers.filter (·.pid ∉ dead)
    links := w.links.filter fun l => l.1 ∉ dead && l.2 ∉ dead }

/-- The supervisor gives up and takes its children with it, and is started anew. -/
def giveUp : Vm :=
  { w.without (w.ending (.abnormal (.atom "shutdown")) w.children) with exits := [], restarts := [] }

/-- The supervisor handles the exit of the first of its children that waits for it. -/
def handleExit (now : ℕ) (up : Bool) (c : Pid) (exits : List Pid) : Vm :=
  if (w.countRestarts now).length ≤ maxRestarts then
    if up then
      { w with
        next := w.next + 1, children := w.children ++ [w.next], exits
        restarts := w.countRestarts now, clock := now }
    else { w with exits := exits ++ [c], restarts := w.countRestarts now, clock := now }
  else { w.giveUp with clock := now }

/-- One step. -/
def step (act : VmAct) : Option Vm :=
  match act with
  | .spawn => some { w with next := w.next + 1, children := w.children ++ [w.next] }
  | .spawnLink caller =>
    if caller ∈ w.jsProcesses then
      some { w with
        next := w.next + 1, children := w.children ++ [w.next]
        links := (caller, w.next) :: w.links, asked := (caller, w.next) :: w.asked }
    else none
  | .link caller target =>
    if caller ∈ w.jsProcesses ∧ target ∈ w.alive then
      some { w with links := (caller, target) :: w.links, asked := (caller, target) :: w.asked }
    else none
  | .startLinked caller =>
    if caller ∈ w.jsProcesses then
      some { w with
        next := w.next + 1, helpers := ⟨w.next, caller, false⟩ :: w.helpers
        links := (caller, w.next) :: w.links }
    else none
  | .startSupervisor caller link =>
    if caller ∈ w.jsProcesses then
      some { w with
        next := w.next + 1, helpers := ⟨w.next, caller, true⟩ :: w.helpers
        links := (caller, w.next) :: w.links
        asked := if link then (caller, w.next) :: w.asked else w.asked }
    else none
  | .terminate p reason =>
    if p ∈ w.alive then
      let dead := w.ending reason [p]
      some { w.without dead with exits := w.exits ++ w.children.filter (· ∈ dead) }
    else none
  | .handleExit now up =>
    match w.exits with
    | c :: exits => if w.clock ≤ now then some (w.handleExit now up c exits) else none
    | [] => none

/-- A chain of links that JS code has asked for. -/
def Connected (p q : Pid) : Prop :=
  Relation.ReflTransGen (fun a b => (a, b) ∈ w.asked ∨ (b, a) ∈ w.asked) p q

/-- The JS process whose termination the step is, or is the answer to. -/
def terminating (act : VmAct) : Option Pid :=
  match act with
  | .terminate p _ => if p ∈ w.jsProcesses then some p else none
  | .handleExit _ _ => w.exits.head?
  | _ => none

end Vm

/-- The runs of the system. -/
def vmSystem : Lts Vm VmAct where
  init w := ∃ roots, w = Vm.start roots
  step w act w' := w.step act = some w'

/-! ## What a process may expect -/

/-- The termination of a JS process ends no JS process that is not connected to it. -/
def Isolated (w : Vm) (act : VmAct) : Prop :=
  ∀ w', w.step act = some w' → ∀ p, w.terminating act = some p →
    ∀ q ∈ w.jsProcesses, q ∉ w'.jsProcesses → w.Connected p q

/-- The supervisor is not asked for more restarts than it makes, and nobody links to an agent, task
or supervisor of another process, unless that one has asked for its own link to it. -/
def KeepsApart (w : Vm) : VmAct → Prop
  | .handleExit now _ => (w.countRestarts now).length ≤ maxRestarts
  | .link caller target =>
    ∀ h ∈ w.helpers, h.pid = target → h.parent = caller ∨ (h.parent, h.pid) ∈ w.asked
  | _ => True

end BeamJS
