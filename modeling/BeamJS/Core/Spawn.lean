import BeamJS.Core.Isolation
import BeamJS.Core.Replies

/-!
# What the supervisor evaluates

`spawn` and `spawn_link` start a child of the `DynamicSupervisor` with the source as an argument of
`start_link`. The child is permanent, and the supervisor starts it anew with the same arguments
after every exit. The processes are those of the machine of `Isolation`, beside which the successful
calls and the evaluations of their sources are counted.
-/

namespace BeamJS

open Lib

/-- What the world decides about a start: whether the name belongs to a process that is alive, and
what `BeamjsNif.eval` gives for the source. -/
structure StartEnv where
  nameTaken : Bool
  evaluated : Except Term Term

/-- `start_link` registers the name, if there is one. Neither `:undefined` nor a term other than a
binary or an atom is a name. -/
def registers (name : Term) (taken : Bool) : Bool :=
  match name with
  | .atom "nil" => true
  | .atom "undefined" => false
  | .atom _ | .binary _ => !taken
  | _ => false

/-- The operations of `init`, with the sources that it evaluates. -/
def initOp (evaluated : Except Term Term) :
    ∀ {α : Type}, Op Unit α → List Bytes → Except Term α × List Bytes
  | _, .otp f, log => ((f ()).1, log)
  | _, .setGlobal _ _, log => (.ok (), log)
  | _, .eval source _, log => (evaluated, log ++ [source])
  | _, .deliver _, log => (.ok (), log)

/-- `init` with the source, if there is one: whether it succeeds, and the sources that it evaluates.
-/
def initRun (sys : Otp Unit) (source : Option Bytes) (baseDir : Bytes) (env : StartEnv) :
    Bool × List Bytes :=
  match (init sys ⟨source, none, some baseDir⟩).run (initOp env.evaluated) [] with
  | (.ok (.ok _), log) => (true, log)
  | (_, log) => (false, log)

/-- `start_link`. The source is tested for `nil` and `false`, and anything but a binary makes
`BeamjsNif.eval` raise. -/
def startLink (sys : Otp Unit) (opts : SpawnOpts) (env : StartEnv) : Bool × List Bytes :=
  if registers opts.name env.nameTaken then
    match opts.source with
    | .binary source => initRun sys (some source) opts.baseDir env
    | source => if source.truthy then (false, []) else initRun sys none opts.baseDir env
  else (false, [])

/-- The machine with the record of the spawned processes. -/
structure SpawnVm where
  vm : Vm
  /-- The arguments of the calls that succeeded. -/
  calls : List SpawnOpts
  /-- The call that a process stems from. -/
  origin : List (Pid × ℕ)
  /-- The calls whose source was evaluated, once for each evaluation. -/
  evaluated : List ℕ

/-- What happens in a run. -/
inductive SpawnAct where
  /-- The host call `spawn` or `spawn_link`, by the process `caller` with the state `s`. -/
  | host (caller : Pid) (link : Bool) (args : List Term) (s : ProcState) (env : StartEnv)
  /-- The supervisor handles the next exit. -/
  | handleExit (now : ℕ) (env : StartEnv)
  /-- Anything else. A child that is started here is that of a `start_gen_server`. -/
  | other (act : VmAct)

namespace SpawnVm

/-- The host function. -/
def spawnFn (link : Bool) : HostFn := if link then .spawnLink else .spawn

/-- `DynamicSupervisor.start_child`. -/
def startChild (sys : Otp Unit) (opts : SpawnOpts) (env : StartEnv) (x : SpawnVm) :
    Except Term (Except Term Pid) × SpawnVm :=
  match startLink sys opts env, x.vm.step .spawn with
  | (true, log), some vm =>
    (.ok (.ok x.vm.next),
      { vm
        calls := x.calls ++ [opts]
        origin := (x.vm.next, x.calls.length) :: x.origin
        evaluated := x.evaluated ++ log.map fun _ => x.calls.length })
  | _, _ => (.ok (.error (.atom "error")), x)

/-- `Process.link`. -/
def linkTo (caller : Pid) (pid : Term) (x : SpawnVm) : Except Term Unit × SpawnVm :=
  match pid with
  | .pid p =>
    match x.vm.step (.link caller p) with
    | some vm => (.ok (), { x with vm })
    | none => (.error (.atom "noproc"), x)
  | _ => (.error (.atom "badarg"), x)

/-- OTP for the process `caller`. -/
def otp (sys : Otp Unit) (caller : Pid) (env : StartEnv) : Otp SpawnVm :=
  { (sys.still : Otp SpawnVm) with
    self := caller
    startSupervised := fun opts => startChild sys opts env
    link := linkTo caller }

/-- The supervisor handles the exit of `c`, a child that stems from the call `id`. -/
def restart (sys : Otp Unit) (now : ℕ) (env : StartEnv) (id : ℕ) (opts : SpawnOpts) (x : SpawnVm) :
    Option SpawnVm :=
  if (x.vm.countRestarts now).length ≤ maxRestarts then
    let (up, log) := startLink sys opts env
    (x.vm.step (.handleExit now up)).map fun vm =>
      { x with
        vm
        origin := if up then (x.vm.next, id) :: x.origin else x.origin
        evaluated := x.evaluated ++ log.map fun _ => id }
  else (x.vm.step (.handleExit now false)).map fun vm => { x with vm }

/-- One step. -/
def step (sys : Otp Unit) (x : SpawnVm) : SpawnAct → Option SpawnVm
  | .host caller link args s env =>
    if caller ∈ x.vm.jsProcesses then
      some ((dispatchHostCall (otp sys caller env) (spawnFn link) args s).run worldOp x).2
    else none
  | .handleExit now env =>
    match x.vm.exits.head? with
    | none => none
    | some c =>
      match (x.origin.lookup c).bind fun id => (x.calls[id]?).map fun opts => (id, opts) with
      | some (id, opts) => x.restart sys now env id opts
      | none => (x.vm.step (.handleExit now (!env.nameTaken))).map fun vm => { x with vm }
  | .other act =>
    match act with
    | .handleExit _ _ => none
    | act => (x.vm.step act).map fun vm => { x with vm }

end SpawnVm

/-- The runs of the machine. -/
def spawnLts (sys : Otp Unit) : Lts SpawnVm SpawnAct where
  init x := ∃ roots, x = ⟨Vm.start roots, [], [], []⟩
  step x act y := x.step sys act = some y

/-- The source of every call that succeeded was evaluated exactly once. -/
def SpawnVm.RunsOnce (x : SpawnVm) : Prop := ∀ id < x.calls.length, x.evaluated.count id = 1

/-- The condition on a step. A call that could start a process has a source, and the supervisor
handles no exit of a spawned process, unless it gives up or the name of the process is taken. -/
def SpawnAct.Kept (sys : Otp Unit) (x : SpawnVm) : SpawnAct → Prop
  | .host caller _ args _ env =>
    caller ∈ x.vm.jsProcesses → ∀ source rest name, args = source :: rest →
      mapGet (optsMap sys.maps rest) "name" = .ok name → registers name env.nameTaken = true →
        source.truthy = true
  | .handleExit now env =>
    ∀ c id opts, x.vm.exits.head? = some c → x.origin.lookup c = some id →
      x.calls[id]? = some opts → opts.source.truthy = true →
        registers opts.name env.nameTaken = true → maxRestarts < (x.vm.countRestarts now).length
  | .other _ => True

end BeamJS
