import BeamJS.Core.Mailbox
import BeamJS.Erl.TermEq
import BeamJS.Lib.Transition

/-!
# Registered names

The process registry, a `Registry` with unique keys, under the host calls of any number of
JavaScript processes that claim and look up names, and under the terminations of processes.
-/

namespace BeamJS

open Lib

/-- The processes of a node and the registry. -/
structure NameTable where
  /-- The entries of `BeamjsCore.ProcessRegistry`. -/
  registry : List (Term × Pid)
  alive : List Pid
  /-- The pid of the next process. -/
  next : Pid
  /-- The processes in an `init` that is going to fail, each after the one that waits for its
  start. -/
  failing : List (Pid × Pid)
  deriving DecidableEq

namespace NameTable

/-- `Registry.lookup`, whose keys are unique. -/
def owner (w : NameTable) (name : Term) : Option Pid := w.registry.lookup name

/-- `Registry.register` by `p`: it leaves a name that is taken to its owner. -/
def register (w : NameTable) (p : Pid) (name : Term) : NameTable :=
  match w.owner name with
  | none => { w with registry := (name, p) :: w.registry }
  | some _ => w

/-- The entries of a process vanish with it. -/
def terminate (w : NameTable) (p : Pid) : NameTable :=
  { w with
    registry := w.registry.filter fun e => e.2 ≠ p
    alive := w.alive.filter (· ≠ p)
    failing := w.failing.filter fun e => e.2 ≠ p }

/-- A new process that registers the name, if any, before its `init` runs. -/
def boot (w : NameTable) (name : Option Term) : NameTable :=
  { w with
    registry := (name.toList.map fun n => (n, w.next)) ++ w.registry
    alive := w.next :: w.alive
    next := w.next + 1 }

end NameTable

/-- The name that `start_link` registers with the registry. Other names than binaries are no names
of the registry. -/
def viaName : Term → Option Term
  | .binary n => some (.binary n)
  | _ => none

/-- What else the processes of a node depend on. -/
structure NameEnv where
  /-- The parts of OTP that have no part in names. -/
  lib : Otp NameTable
  /-- `init` of the process with the given pid and options. -/
  childInit : Pid → SpawnOpts → Except Term Unit

/-- `start_supervised` for `p`. The child has its name while its `init` runs. -/
def startChild (env : NameEnv) (p : Pid) (opts : SpawnOpts) : OtpFn NameTable (Except Term Pid) :=
  fun w =>
    match (viaName opts.name).bind w.owner with
    | some q => (.ok (.error (.tuple [.atom "already_started", .pid q])), w)
    | none =>
      match env.childInit w.next opts with
      | .ok _ => (.ok (.ok w.next), w.boot (viaName opts.name))
      | .error reason =>
        (.ok (.error reason),
          { w.boot (viaName opts.name) with failing := (p, w.next) :: w.failing })

/-- OTP for the process `p`. -/
def nameOtp (env : NameEnv) (p : Pid) : Otp NameTable :=
  { env.lib with
    self := p
    register := fun name w => (.ok (), w.register p name)
    lookup := fun name w => (.ok (w.owner name), w)
    startSupervised := startChild env p
    link := fun _ w => (.ok (), w)
    log := fun _ _ w => (.ok (), w) }

/-- The host calls that claim or look up names. -/
def usesNames : HostFn → Bool
  | .register | .whereis | .spawn | .spawnLink | .startGenServer => true
  | _ => false

/-- A host call of a process from its GenServer state `s`, with the reply or the exception that it
ends in, or the termination of a process for another reason. -/
inductive NameAction where
  | answered (p : Pid) (fn : HostFn) (args : List Term) (s : ProcState) (reply : Term)
  | raised (p : Pid) (fn : HostFn) (args : List Term) (s : ProcState)
  | terminates (p : Pid)

/-- The action ends the process `p`. -/
def NameAction.ends (p : Pid) : NameAction → Bool
  | .answered .. => false
  | .raised q .. => q = p
  | .terminates q => q = p

/-- The owner with a host call that has come in. -/
def asked (w : NameTable) (fn : HostFn) : HostSide NameTable :=
  { world := w, issued := [fn], waiting := some fn, deliveries := [] }

/-- The process can make a host call: it is alive and waits for no child. -/
def NameTable.canCall (w : NameTable) (p : Pid) : Prop :=
  p ∈ w.alive ∧ ∀ e ∈ w.failing, e.1 ≠ p

/-- One step of the node. -/
def nameStep (env : NameEnv) (w : NameTable) : NameAction → NameTable → Prop
  | .answered p fn args s reply, w' => usesNames fn = true ∧ w.canCall p ∧
    ∃ s' h, (handleInfo (nameOtp env p) (.hostCall fn args) s).run hostOp (asked w fn) = (.ok s', h) ∧
      h.deliveries = [⟨some fn, reply⟩] ∧ h.world = w'
  | .raised p fn args s, w' => usesNames fn = true ∧ w.canCall p ∧
    ∃ e h, (handleInfo (nameOtp env p) (.hostCall fn args) s).run hostOp (asked w fn) =
      (.error e, h) ∧ w' = h.world.terminate p
  | .terminates p, w' => p ∈ w.alive ∧ w' = w.terminate p

/-- The runs of a node, in any order of steps, from a registry without entries. -/
def names (env : NameEnv) : Lts NameTable NameAction where
  init w := w.registry = [] ∧ w.failing = [] ∧ ∀ p ∈ w.alive, p < w.next
  step w a w' := nameStep env w a w'

/-- The pid as JavaScript gets it. -/
def nameHandle (env : NameEnv) (p : Pid) : Term := serializePid env.lib.maps env.lib.pids p

/-- Who is answered `:ok` owns the name, and who does not obtain it is answered with an error. -/
structure NamesHonoured (env : NameEnv) (tr : List (NameTable × NameAction)) : Prop where
  /-- Every `whereis` after the `:ok` and before the end of the process finds it. -/
  owns : ∀ (before between after : List (NameTable × NameAction)) (w w' : NameTable) (p q : Pid)
    (s s' : ProcState) (name reply : Term),
    tr = before ++ (w, .answered p .register [name] s .ok) :: between ++
      (w', .answered q .whereis [name] s' reply) :: after →
    (∀ e ∈ between, e.2.ends p = false) → reply = nameHandle env p
  answers : ∀ (w : NameTable) (p : Pid) (s : ProcState) (name reply : Term),
    (w, .answered p .register [name] s reply) ∈ tr →
    (w.register p name).owner name = some p ∨ ∃ reason, reply = .errorTuple reason

/-- A `register` is only called for a name that is free or the caller's own. -/
def registersFree (w : NameTable) : NameAction → Prop
  | .answered p .register [name] _ _ => w.owner name = none ∨ w.owner name = some p
  | _ => True

end BeamJS
