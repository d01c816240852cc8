import BeamJS.Core.SupervisorTree
import BeamJS.Core.Replies

/-!
# Options that are left out

The host calls that take an options object or a spec: `spawn`, `spawn_link`, `start_gen_server`,
`agent_start` and `start_supervisor`. What a call starts is recorded together with the links of the
caller, and two runs are compared in which the same object has some keys with the value undefined or
has them not.
-/

namespace BeamJS

open Lib JsValue Transpiler

/-! ## The processes that a call starts -/

mutual

/-- `init` of no supervisor in the tree raised. -/
def SupervisorTree.AllStarted : SupervisorTree → Prop
  | .failed _ _ => False
  | .started _ _ children => ChildTree.AllStarted children

/-- The supervisors under a child. -/
def ChildTree.Started : ChildTree → Prop
  | .worker _ _ _ _ => True
  | .supervisor _ _ tree => tree.AllStarted

/-- The supervisors under all children. -/
def ChildTree.AllStarted : List ChildTree → Prop
  | [] => True
  | child :: children => child.Started ∧ ChildTree.AllStarted children

end

/-- A process, agent or supervisor that was started. -/
inductive Start where
  | process (opts : SpawnOpts)
  | agent (initialValue : Term) (name : Option Term)
  | supervisor (tree : SupervisorTree)

/-- What a call has done: the processes that it started, and those that it linked the caller with.
-/
structure StartLog where
  started : List Start
  links : List Pid

/-- The call has started a process, to which the caller is linked if `linked` says so. -/
def StartLog.add (log : StartLog) (start : Start) (linked : Bool) (pid : Pid) : StartLog where
  started := log.started ++ [start]
  links := if linked then log.links.insert pid else log.links

/-- What the rest of the system decides: whether a process starts and with which pid. A supervisor
does not start if its `init` raises or a nested supervisor does not start. -/
structure Starter where
  base : Otp Unit
  tables : CharTables
  /-- The unique integers for the children of a supervisor. -/
  fresh : List ℕ → ℤ
  process : SpawnOpts → Except Term (Except Term Pid)
  agent : Term → Option Term → Except Term (Except Term Pid)
  supervisor : SupervisorTree → Except Term (Except Term Pid)
  allStarted : ∀ tree pid, supervisor tree = .ok (.ok pid) → tree.AllStarted

namespace Starter

variable (s : Starter)

/-- The record after an attempt to start a process. -/
def record (answer : Except Term (Except Term Pid)) (start : Start) (linked : Bool)
    (log : StartLog) : Except Term (Except Term Pid) × StartLog :=
  match answer with
  | .ok (.ok pid) => (answer, log.add start linked pid)
  | answer => (answer, log)

/-- The OTP with the record. `start_link` of a supervisor or an agent links the caller. -/
def otp : Otp StartLog :=
  { (s.base.still : Otp StartLog) with
    startSupervised := fun opts => record (s.process opts) (.process opts) false
    link := fun pid log =>
      match pid with
      | .pid pid => (.ok (), { log with links := log.links.insert pid })
      | _ => (.error (.atom "badarg"), log)
    startSupervisor := fun spec baseDir =>
      let tree := SupervisorBridge.startLink s.base s.tables s.fresh baseDir spec
      record (s.supervisor tree) (.supervisor tree) true
    agentStart := fun value name => record (s.agent value name) (.agent value name) true }

end Starter

/-! ## The calls -/

/-- A host call that takes an options object, with its other arguments. -/
inductive OptionCall where
  | spawn (link : Bool) (source : Term)
  | startGenServer (className source args : Term)
  | agentStart (initialValue : Term)
  | startSupervisor

namespace OptionCall

/-- The name of the host function. -/
def fn : OptionCall → HostFn
  | .spawn false _ => .spawn
  | .spawn true _ => .spawnLink
  | .startGenServer _ _ _ => .startGenServer
  | .agentStart _ => .agentStart
  | .startSupervisor => .startSupervisor

/-- The arguments, with the options last. -/
def args (opts : Term) : OptionCall → List Term
  | .spawn _ source => [source, opts]
  | .startGenServer className source args => [className, source, args, opts]
  | .agentStart initialValue => [initialValue, opts]
  | .startSupervisor => [opts]

/-- The reply to the call with the options `opts`, and what the call has done. -/
def run (s : Starter) (p : ProcState) (call : OptionCall) (opts : Term) :
    Except Term Term × StartLog :=
  let (result, log) := (dispatchHostCall s.otp call.fn (call.args opts) p).run worldOp ⟨[], []⟩
  (result.map Prod.fst, log)

/-- The run for an options object of JavaScript, if it can be converted. -/
def runFrom (s : Starter) (p : ProcState) (call : OptionCall) (opts : JsValue) :
    Option (Except Term Term × StartLog) :=
  (jsValueToErl s.base.maps opts).map (call.run s p)

end OptionCall

/-! ## Two objects -/

/-- An object literal that is no pid handle and whose names stay apart. -/
def IsOptions (props : List (JsString × JsValue)) : Prop :=
  (props.map fun e => mapKey e.1).Nodup ∧ isPidHandle props = false

/-- The second list of properties lacks some of those of the first one that are undefined. The
elements of `children` are related by `R`. -/
inductive Drops (R : JsValue → JsValue → Prop) :
    List (JsString × JsValue) → List (JsString × JsValue) → Prop where
  | nil : Drops R [] []
  | left (k : JsString) {props props' : List (JsString × JsValue)} (h : Drops R props props') :
      Drops R ((k, .undefined) :: props) props'
  | kept (k : JsString) (v : JsValue) {props props' : List (JsString × JsValue)}
      (h : Drops R props props') : Drops R ((k, v) :: props) ((k, v) :: props')
  | children {specs specs' : List JsValue} (hspecs : List.Forall₂ R specs specs')
      {props props' : List (JsString × JsValue)} (h : Drops R props props') :
      Drops R ((js "children", .array specs) :: props) ((js "children", .array specs') :: props')

/-- The second value is the first one, or both are object literals of which the second one leaves
out keys that the first one has with the value undefined, also in the specs of children down to a
depth. -/
def LeavesOut : ℕ → JsValue → JsValue → Prop
  | 0, o, o' => o = o'
  | n + 1, o, o' => o = o' ∨ ∃ props props', o = .object none props ∧ o' = .object none props' ∧
      IsOptions props ∧ Drops (LeavesOut n) props props'

/-! ## Where the key makes no difference -/

/-- None of the keys is left out in the second map. -/
def AgreeOn (keys : List String) (m m' : Term) : Prop := ∀ k ∈ keys, m.get? k = m'.get? k

/-- The spec of a worker has a source, or no source is built from it, or it has the same module and
arguments. -/
def SameSource (spec spec' : Term) : Prop :=
  (∃ source, spec.get? "source" = some source ∧ source.truthy = true) ∨
  spec.get? "module" = none ∨ spec.get? "args" = none ∨ AgreeOn ["module", "args"] spec spec'

/-- The spec of a supervisor lacks in both forms the same of the keys that are not safe to leave
out: `maxRestarts`, `maxSeconds` and `children`, the `id` of every child, and for a worker its
`filename`, `name`, `shutdown` and `source`, and its `module` and `args` where its source is built
from them. -/
inductive SameSettings : Term → Term → Prop where
  | same (spec : Term) : SameSettings spec spec
  | node {spec spec' : Term} (flags : AgreeOn ["maxRestarts", "maxSeconds"] spec spec')
      (given : spec.get? "children" = none ↔ spec'.get? "children" = none)
      (ids : ∀ (i : ℕ) (child child' : Term), (childrenOf spec)[i]? = some child →
        (childrenOf spec')[i]? = some child' → AgreeOn ["id"] child child')
      (workers : ∀ (i : ℕ) (child child' : Term), (childrenOf spec)[i]? = some child →
        (childrenOf spec')[i]? = some child' → isSupervisor child = false →
        AgreeOn ["filename", "name", "shutdown", "source"] child child' ∧ SameSource child child')
      (nested : ∀ (i : ℕ) (child child' : Term), (childrenOf spec)[i]? = some child →
        (childrenOf spec')[i]? = some child' → isSupervisor child = true →
        SameSettings child child') :
      SameSettings spec spec'

/-- The maps agree on the keys whose absence matters to the call. -/
def OptionCall.Agree (call : OptionCall) (m m' : Term) : Prop :=
  match call with
  | .spawn _ _ | .agentStart _ => AgreeOn ["name"] m m'
  | .startGenServer _ _ _ => AgreeOn ["name", "link"] m m'
  | .startSupervisor => SameSettings m m'

/-- No key is left out whose absence matters to the call. -/
def OptionCall.Harmless (ord : MapOrder) (call : OptionCall) (o o' : JsValue) : Prop :=
  ∀ m m', jsValueToErl ord o = some m → jsValueToErl ord o' = some m' → call.Agree m m'

/-- The call starts a process. -/
def OptionCall.Starts (s : Starter) (p : ProcState) (call : OptionCall) (o : JsValue) : Prop :=
  ∃ reply log, call.runFrom s p o = some (reply, log) ∧ log.started ≠ []

end BeamJS
