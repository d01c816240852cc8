import BeamJS.Core.PidHandle
import BeamJS.Lib.Program

/-!
# The operations of the Elixir code

What `BeamjsCore.Process` calls: the NIFs on its own context and the functions of OTP. The functions
of OTP are parameters that act on a world `W` of their own.
-/

namespace BeamJS

open Lib

/-- The options that `start_supervised` gets from a host call. -/
structure SpawnOpts where
  source : Term
  baseDir : Bytes
  name : Term

/-- A function of OTP: it acts on the world, and returns or raises. -/
abbrev OtpFn (W α : Type) := W → Except Term α × W

/-- The functions of OTP and of the Elixir libraries that a process uses. -/
structure Otp (W : Type) where
  /-- The iteration order of maps. -/
  maps : MapOrder
  /-- The serialization of pids. -/
  pids : PidCodec
  /-- `self()`. -/
  self : Pid
  /-- `:erlang.term_to_binary(term) |> Base.encode64()`. -/
  encode64 : Term → Bytes
  /-- `inspect`. -/
  inspect : Term → Bytes
  /-- String interpolation. -/
  interpolate : Term → Except Term Bytes
  /-- `Jason.encode!`. -/
  jsonEncode : Term → Except Term Bytes
  /-- `Path.dirname(Path.expand(filename))`. -/
  dirnameExpand : Bytes → Bytes
  /-- `File.cwd!()`. -/
  cwd : Bytes
  /-- `Kernel.send`. -/
  send : Term → Term → OtpFn W Unit
  /-- `start_supervised`: `{:ok, pid}` or `{:error, reason}`. -/
  startSupervised : SpawnOpts → OtpFn W (Except Term Pid)
  /-- `Process.link`. -/
  link : Term → OtpFn W Unit
  /-- `Process.monitor`. -/
  monitor : Term → OtpFn W Term
  /-- `Process.exit`. -/
  exit : Pid → Term → OtpFn W Unit
  /-- `Registry.register` in the process registry. -/
  register : Term → OtpFn W Unit
  /-- `Registry.lookup` in the process registry, whose keys are unique. -/
  lookup : Term → OtpFn W (Option Pid)
  /-- `GenServer.call`: the reply, or the reason of the exit that is caught. -/
  call : Term → Term → ℤ → OtpFn W (Except Term Term)
  /-- `GenServer.cast`. -/
  cast : Term → Term → OtpFn W Unit
  /-- `GenServer.reply`: whether it succeeded or raised an exception that is rescued. -/
  reply : Term → Term → OtpFn W Bool
  /-- `BeamjsCore.SupervisorBridge.start_link`. -/
  startSupervisor : Term → Bytes → OtpFn W (Except Term Pid)
  /-- `Logger`, with the level and the message. -/
  log : String → Term → OtpFn W Unit
  /-- `Task.async` with a function that evaluates the source: its pid and reference. -/
  taskAsync : Term → OtpFn W (Pid × Term)
  /-- `Agent.start_link` with the initial value and the name to register, if any. -/
  agentStart : Term → Option Term → OtpFn W (Except Term Pid)
  /-- `Agent.get(pid, & &1)`. -/
  agentGet : Term → OtpFn W Term
  /-- `Agent.update` with the source of the function. -/
  agentUpdate : Term → Term → OtpFn W Unit
  /-- `Agent.stop`. -/
  agentStop : Term → OtpFn W Unit
  /-- `BeamjsCore.ModuleResolver.resolve_and_load`. -/
  resolveAndLoad : Term → Bytes → OtpFn W Term

/-- An operation of a callback. -/
inductive Op (W : Type) : Type → Type 1 where
  /-- A function of OTP. -/
  | otp {α : Type} (f : OtpFn W α) : Op W α
  /-- `BeamjsNif.set_global`. -/
  | setGlobal (name : String) (value : Term) : Op W Unit
  /-- `BeamjsNif.eval`. -/
  | eval (source : Bytes) (filename : Bytes) : Op W Term
  /-- `BeamjsNif.deliver_host_reply`. -/
  | deliver (reply : Term) : Op W Unit

/-- The body of a callback. -/
abbrev Callback (W α : Type) := Program (Op W) Term α

namespace Callback

variable {W α : Type}

/-- Call a function of OTP. -/
def otp (f : OtpFn W α) : Callback W α := Program.lift (.otp f)

/-- Call `BeamjsNif.set_global`. -/
def setGlobal (name : String) (value : Term) : Callback W Unit := Program.lift (.setGlobal name value)

/-- Call `BeamjsNif.eval`. -/
def eval (source filename : Bytes) : Callback W Term := Program.lift (.eval source filename)

/-- Call `BeamjsNif.deliver_host_reply`. -/
def deliver (reply : Term) : Callback W Unit := Program.lift (.deliver reply)

/-- A pure function that may raise. -/
def ofExcept : Except Term α → Callback W α
  | .ok a => .ret a
  | .error e => .raise e

end Callback

/-- An OTP in which no other process takes part. -/
def loneOtp : Otp Unit where
  maps := .insertion
  pids := sampleCodec
  self := 110
  encode64 _ := bytes "g2h0"
  inspect _ := bytes "#Inspect<>"
  interpolate
    | .binary b => .ok b
    | t => .error t
  jsonEncode _ := .ok (bytes "null")
  dirnameExpand _ := bytes "/"
  cwd := bytes "/"
  send _ _ w := (.ok (), w)
  startSupervised _ w := (.ok (.error (.atom "max_children")), w)
  link _ w := (.error (.atom "noproc"), w)
  monitor _ w := (.ok (.ref 0), w)
  exit _ _ w := (.ok (), w)
  register _ w := (.ok (), w)
  lookup _ w := (.ok none, w)
  call _ _ _ w := (.ok (.error (.atom "noproc")), w)
  cast _ _ w := (.ok (), w)
  reply _ _ w := (.ok false, w)
  startSupervisor _ _ w := (.ok (.error (.atom "badarg")), w)
  log _ _ w := (.ok (), w)
  taskAsync _ w := (.error (.atom "noproc"), w)
  agentStart _ _ w := (.ok (.error (.atom "noproc")), w)
  agentGet _ w := (.error (.atom "noproc"), w)
  agentUpdate _ _ w := (.error (.atom "noproc"), w)
  agentStop _ w := (.error (.atom "noproc"), w)
  resolveAndLoad _ _ w := (.ok (.errorTuple (.atom "not_found")), w)

/-- A function without an effect on the world. -/
def OtpFn.still {W α : Type} (f : OtpFn Unit α) : OtpFn W α := fun w => ((f ()).1, w)

/-- An OTP whose functions return the same in every world and leave it alone. -/
def Otp.still {W : Type} (sys : Otp Unit) : Otp W where
  maps := sys.maps
  pids := sys.pids
  self := sys.self
  encode64 := sys.encode64
  inspect := sys.inspect
  interpolate := sys.interpolate
  jsonEncode := sys.jsonEncode
  dirnameExpand := sys.dirnameExpand
  cwd := sys.cwd
  send dest message := (sys.send dest message).still
  startSupervised opts := (sys.startSupervised opts).still
  link pid := (sys.link pid).still
  monitor pid := (sys.monitor pid).still
  exit p reason := (sys.exit p reason).still
  register name := (sys.register name).still
  lookup name := (sys.lookup name).still
  call dest request timeout := (sys.call dest request timeout).still
  cast dest request := (sys.cast dest request).still
  reply dest response := (sys.reply dest response).still
  startSupervisor spec baseDir := (sys.startSupervisor spec baseDir).still
  log level message := (sys.log level message).still
  taskAsync source := (sys.taskAsync source).still
  agentStart value name := (sys.agentStart value name).still
  agentGet pid := (sys.agentGet pid).still
  agentUpdate pid fnSource := (sys.agentUpdate pid fnSource).still
  agentStop pid := (sys.agentStop pid).still
  resolveAndLoad name baseDir := (sys.resolveAndLoad name baseDir).still

end BeamJS
