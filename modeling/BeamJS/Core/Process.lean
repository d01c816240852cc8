import BeamJS.Core.Otp
import BeamJS.Nif.HostCall

/-!
# `BeamjsCore.Process`

The callbacks of the GenServer that owns a context: `init`, `handle_call`, `handle_cast`,
`handle_info` and the dispatch of the host calls. The `:queue` of the mailbox is a list with its
front first. A process has one context, which its state does not mention.
-/

namespace BeamJS

open Lib

/-- The state of the GenServer. -/
structure ProcState where
  source : Option Bytes
  filename : Bytes
  baseDir : Bytes
  mailbox : List Term
  awaitingReceive : Bool
  jsState : Term

/-- A message in the inbox of the process. -/
inductive Info where
  | jsMessage (message : Term)
  | hostCall (fn : HostFn) (args : List Term)
  | loadModule (name : Term)
  | other (message : Term)

/-! ## Helpers of the clauses -/

/-- `%{}` unless the remaining arguments are a single map. -/
def optsMap (ord : MapOrder) : List Term → Term
  | [.map entries] => .map entries
  | _ => ord.toMap []

/-- `Map.get(map, key)`, which raises on anything but a map. -/
def mapGet (m : Term) (key : String) : Except Term Term :=
  match m with
  | .map _ => .ok ((m.get? key).getD .null)
  | m => .error (.tuple [.atom "badmap", m])

/-- `if is_integer(timeout), do: timeout, else: 5000`. -/
def callTimeout : Term → ℤ
  | .int n => n
  | _ => 5000

/-- The source that `start_gen_server` builds around a class. -/
def genServerSource (className source args : Bytes) : Bytes :=
  source ++ bytes "\nvar __gs_instance = new " ++ className ++
  bytes "();\nvar __genserver_state = __gs_instance.init(" ++ args ++
  bytes (");\nfunction __genserver_handle_call(request, from, state) \x7b\n" ++
    "  __genserver_state = state;\n" ++
    "  return __gs_instance.handleCall(request, from, __genserver_state);\n\x7d\n" ++
    "function __genserver_handle_cast(request, state) \x7b\n" ++
    "  __genserver_state = state;\n" ++
    "  return __gs_instance.handleCast(request, __genserver_state);\n\x7d\n" ++
    "function __genserver_handle_info(message, state) \x7b\n" ++
    "  __genserver_state = state;\n" ++
    "  return __gs_instance.handleInfo(message, __genserver_state);\n\x7d\n")

variable {W : Type} (sys : Otp W)

/-- `%{"error" => inspect(reason)}`. -/
def inspectError (reason : Term) : Term := sys.maps.single "error" (.binary (sys.inspect reason))

/-- Run `body` with the pid of a handle, or reply what `failure` makes of the reason. -/
def withPid (pidData : Term) (s : ProcState) (failure : Term → Term)
    (body : Term → Callback W (Term × ProcState)) : Callback W (Term × ProcState) :=
  match deserializePid sys.pids pidData with
  | some pid => body pid
  | none => .ret (failure (.atom "invalid_pid"), s)

/-- The body of `spawn` and `spawn_link`. -/
def dispatchSpawn (link : Bool) (source : Term) (rest : List Term) (s : ProcState) :
    Callback W (Term × ProcState) := do
  let name ← Callback.ofExcept (mapGet (optsMap sys.maps rest) "name")
  match ← Callback.otp (sys.startSupervised ⟨source, s.baseDir, name⟩) with
  | .ok pid =>
    if link then Callback.otp (sys.link (.pid pid))
    .ret (serializePid sys.maps sys.pids pid, s)
  | .error reason => .ret (inspectError sys reason, s)

/-- The reply to a process that was started: `%{"ok" => pid}` after a link where `link` asks for
one. -/
def startedReply (link : Term) (pid : Pid) (s : ProcState) : Callback W (Term × ProcState) := do
  if link.truthy then Callback.otp (sys.link (.pid pid))
  .ret (sys.maps.single "ok" (serializePid sys.maps sys.pids pid), s)

/-- The level that a `log` call is logged at. -/
def logLevel (level : Term) : String :=
  match level with
  | .binary b =>
    if b = bytes "debug" then "debug" else if b = bytes "warn" then "warn"
    else if b = bytes "error" then "error" else "info"
  | _ => "info"

/-! ## `dispatch_host_call` -/

/-- `dispatch_host_call`: the reply and the new state. -/
def dispatchHostCall (fn : HostFn) (args : List Term) (s : ProcState) :
    Callback W (Term × ProcState) :=
  match fn, args with
  | .send, [pidData, message] =>
    withPid sys pidData s .errorTuple fun pid => do
      Callback.otp (sys.send pid (.tuple [.atom "js_message", message]))
      return (.ok, s)
  | .self, _ => return (serializePid sys.maps sys.pids sys.self, s)
  | .spawn, source :: rest => dispatchSpawn sys false source rest s
  | .spawnLink, source :: rest => dispatchSpawn sys true source rest s
  | .receive, _ =>
    match s.mailbox with
    | message :: mailbox => do
      Callback.deliver message
      return (.atom "noreply_already_replied", { s with mailbox })
    | [] => return (.atom "noreply_await", { s with awaitingReceive := true })
  | .register, [name] => do
    Callback.otp (sys.register name)
    return (.ok, s)
  | .whereis, [name] => do
    match ← Callback.otp (sys.lookup name) with
    | some pid => return (serializePid sys.maps sys.pids pid, s)
    | none => return (.null, s)
  | .monitor, [pidData] =>
    withPid sys pidData s .errorTuple fun pid => do
      let ref ← Callback.otp (sys.monitor pid)
      return (.binary (sys.inspect ref), s)
  | .link, [pidData] =>
    withPid sys pidData s .errorTuple fun pid => do
      Callback.otp (sys.link pid)
      return (.ok, s)
  | .exit, [reason] => do
    Callback.otp (sys.exit sys.self (if reason.truthy then reason else .atom "normal"))
    return (.ok, s)
  | .call, [pidData, request, timeout] =>
    withPid sys pidData s (inspectError sys) fun pid => do
      match ← Callback.otp (sys.call pid request (callTimeout timeout)) with
      | .ok result => return (result, s)
      | .error reason => return (inspectError sys reason, s)
  | .cast, [pidData, request] =>
    withPid sys pidData s .errorTuple fun pid => do
      Callback.otp (sys.cast pid request)
      return (.ok, s)
  | .reply, [fromEncoded, response] =>
    match fromEncoded with
    | .binary data =>
      match sys.pids.decode data with
      | some dest => do
        if ← Callback.otp (sys.reply dest response) then return (.ok, s)
        else return (.errorTuple (.binary (bytes "invalid_from")), s)
      | none => return (.errorTuple (.binary (bytes "invalid_from")), s)
    | _ => return (.errorTuple (.binary (bytes "invalid_from")), s)
  | .startGenServer, className :: source :: args :: rest => do
    let opts := optsMap sys.maps rest
    let source ← Callback.ofExcept (sys.interpolate source)
    let className ← Callback.ofExcept (sys.interpolate className)
    let args ← Callback.ofExcept (sys.jsonEncode args)
    let fullSource := genServerSource className source args
    let name ← Callback.ofExcept (mapGet opts "name")
    match ← Callback.otp (sys.startSupervised ⟨.binary fullSource, s.baseDir, name⟩) with
    | .ok pid => do
      let link ← Callback.ofExcept (mapGet opts "link")
      startedReply sys link pid s
    | .error reason => return (inspectError sys reason, s)
  | .startSupervisor, [spec] => do
    match ← Callback.otp (sys.startSupervisor spec s.baseDir) with
    | .ok pid => do
      let link ← Callback.ofExcept (mapGet spec "link")
      startedReply sys link pid s
    | .error reason => return (inspectError sys reason, s)
  | .log, [level, message] => do
    Callback.otp (sys.log (logLevel level) message)
    return (.ok, s)
  | .taskAsync, [source] => do
    let (pid, ref) ← Callback.otp (sys.taskAsync source)
    return (sys.maps.toMap [(bytes "pid", serializePid sys.maps sys.pids pid),
      (bytes "ref", .binary (sys.inspect ref))], s)
  | .taskAwait, [_, _] => return (.ok, s)
  | .agentStart, [initialValue, opts] => do
    let name ← Callback.ofExcept
      (mapGet (if opts.truthy then opts else sys.maps.toMap []) "name")
    let registered := match name with
      | .atom "nil" => none
      | name => some name
    match ← Callback.otp (sys.agentStart initialValue registered) with
    | .ok pid => return (sys.maps.single "ok" (serializePid sys.maps sys.pids pid), s)
    | .error reason => return (inspectError sys reason, s)
  | .agentGet, [pidData, _] =>
    withPid sys pidData s (inspectError sys) fun pid => do
      let value ← Callback.otp (sys.agentGet pid)
      return (value, s)
  | .agentUpdate, [pidData, fnSource] =>
    withPid sys pidData s (fun reason => .errorTuple (.binary (sys.inspect reason))) fun pid => do
      Callback.otp (sys.agentUpdate pid fnSource)
      return (.ok, s)
  | .agentStop, [pidData] =>
    withPid sys pidData s (fun reason => .errorTuple (.binary (sys.inspect reason))) fun pid => do
      Callback.otp (sys.agentStop pid)
      return (.ok, s)
  | fn, _ => do
    Callback.otp (sys.log "warn" (.binary (bytes ("Unknown host function: " ++ fn.name))))
    return (sys.maps.single "error" (.binary (bytes ("unknown_function: " ++ fn.name))), s)

/-! ## `handle_info` -/

/-- `handle_info`. Every clause ends in `{:noreply, state}`. -/
def handleInfo (msg : Info) (s : ProcState) : Callback W ProcState :=
  match msg with
  | .jsMessage message =>
    if s.awaitingReceive then do
      Callback.deliver message
      return { s with awaitingReceive := false }
    else return { s with mailbox := s.mailbox ++ [message] }
  | .hostCall .receive _ =>
    match s.mailbox with
    | message :: mailbox => do
      Callback.deliver message
      return { s with mailbox }
    | [] => return { s with awaitingReceive := true }
  | .hostCall fn args => do
    let (reply, s) ← dispatchHostCall sys fn args s
    Callback.deliver reply
    return s
  | .loadModule name => do
    let result ← Callback.otp (sys.resolveAndLoad name s.baseDir)
    Callback.deliver result
    return s
  | .other _ => return s

/-! ## `init`, `handle_call` and `handle_cast` -/

/-- The options of `start_link` that `init` reads. -/
structure InitOpts where
  source : Option Bytes
  filename : Option Bytes
  baseDir : Option Bytes

/-- The state that `init` builds before it evaluates the source. -/
def initialState (opts : InitOpts) : ProcState :=
  let filename := opts.filename.getD (bytes "<spawn>")
  { source := opts.source
    filename := filename
    baseDir := match opts.baseDir with
      | some dir => dir
      | none =>
        if filename ≠ bytes "<spawn>" ∧ filename ≠ bytes "<eval>" then sys.dirnameExpand filename
        else sys.cwd
    mailbox := []
    awaitingReceive := false
    jsState := .null }

/-- `init`: the state in `{:ok, state}`, or the reason in `{:stop, reason}`. -/
def init (opts : InitOpts) : Callback W (Except Term ProcState) :=
  let s := initialState sys opts
  match s.source with
  | some source => do
    match ← Callback.eval source s.filename with
    | .tuple [.atom "ok", _] => return .ok s
    | .tuple [.atom "error", reason] => do
      Callback.otp (sys.log "error"
        (.binary (bytes "JS process init failed: " ++ sys.inspect reason)))
      return .error (.tuple [.atom "js_error", reason])
    | result => .raise (.tuple [.atom "case_clause", result])
  | none => return .ok s

/-- A request of `GenServer.call`. -/
inductive Request where
  | eval (source : Bytes)
  | jsCall (request : Term)

/-- What `handle_call` and `handle_cast` return. -/
inductive Outcome where
  | reply (reply : Term) (s : ProcState)
  | noreply (s : ProcState)
  | stop (reason : Term) (reply : Option Term) (s : ProcState)

/-- The program that `handle_call({:js_call, _})` evaluates. -/
def callSource : Bytes :=
  bytes ("  if (typeof __genserver_handle_call === 'function') \x7b\n" ++
    "    __genserver_handle_call(__pending_call_request, __pending_call_from, __genserver_state);\n" ++
    "  \x7d else \x7b\n    (\x7berror: 'no_handler'\x7d);\n  \x7d\n")

/-- The program that `handle_cast` evaluates. -/
def castSource : Bytes :=
  bytes ("  if (typeof __genserver_handle_cast === 'function') \x7b\n" ++
    "    __genserver_handle_cast(__pending_cast_request, __genserver_state);\n" ++
    "  \x7d else \x7b\n    (\x7bnoreply: true, state: __genserver_state\x7d);\n  \x7d\n")

/-- The two programs differ in their first line. -/
theorem castSource_ne_callSource : castSource ≠ callSource := by
  intro h
  rw [castSource, callSource, bytes_append, bytes_append, bytes_append, bytes_append,
    List.append_assoc, List.append_assoc] at h
  have hline := List.append_inj_left h (by simp [bytes])
  simp [bytes] at hline

/-- Keep the new state of the GenServer, in the context and in the process. -/
def keepState (newState : Term) (s : ProcState) : Callback W ProcState := do
  Callback.setGlobal "__genserver_state" newState
  return { s with jsState := newState }

/-- The `case` of `handle_call({:js_call, _})` on the result of its program. -/
def callOutcome (result : Term) (s : ProcState) : Callback W Outcome :=
  match result with
  | .tuple [.atom "ok", m] =>
    match m.get? "reply", m.get? "state", m.get? "noreply", m.get? "stop", m.get? "error" with
    | some reply, some newState, _, _, _ => do
      let s ← keepState newState s
      return .reply reply s
    | _, some newState, some (.atom "true"), _, _ => do
      let s ← keepState newState s
      return .noreply s
    | some reply, _, _, some reason, _ => return .stop reason (some reply) s
    | _, _, _, _, some (.binary b) =>
      if b = bytes "no_handler" then return .reply (.errorTuple (.atom "no_handler")) s
      else .raise (.tuple [.atom "case_clause", result])
    | _, _, _, _, _ => .raise (.tuple [.atom "case_clause", result])
  | .tuple [.atom "error", reason] => return .reply (.errorTuple reason) s
  | result => .raise (.tuple [.atom "case_clause", result])

/-- `handle_call`. -/
def handleCall (request : Request) (caller : Term) (s : ProcState) : Callback W Outcome :=
  match request with
  | .eval source => do
    let result ← Callback.eval source (bytes "<eval>")
    return .reply result s
  | .jsCall request => do
    Callback.setGlobal "__pending_call_from" (.binary (sys.encode64 caller))
    Callback.setGlobal "__pending_call_request" request
    let result ← Callback.eval callSource (bytes "<internal:call>")
    callOutcome result s

/-- The `case` of `handle_cast` on the result of its program. -/
def castOutcome (result : Term) (s : ProcState) : Callback W Outcome :=
  match result with
  | .tuple [.atom "ok", m] =>
    match m.get? "noreply", m.get? "state", m.get? "stop" with
    | some (.atom "true"), some newState, _ => do
      let s ← keepState newState s
      return .noreply s
    | _, _, some reason => return .stop reason none s
    | _, _, _ => return .noreply s
  | _ => return .noreply s

/-- `handle_cast({:js_cast, request})`. -/
def handleCast (request : Term) (s : ProcState) : Callback W Outcome := do
  Callback.setGlobal "__pending_cast_request" request
  let result ← Callback.eval castSource (bytes "<internal:cast>")
  castOutcome result s

/-! ## Evaluations in a temporary context of the calling process -/

/-- `eval_sync`. -/
def evalSync (source filename : Bytes) : Callback W Term := Callback.eval source filename

/-- The function of a `task_async`. -/
def taskBody (source : Bytes) : Callback W Term := do
  match ← Callback.eval source (bytes "<task>") with
  | .tuple [.atom "ok", value] => return value
  | .tuple [.atom "error", reason] => return .errorTuple reason
  | result => .raise (.tuple [.atom "case_clause", result])

/-- The function of an `agent_update`: the new state of the agent. -/
def agentUpdateBody (fnSource : Bytes) (current : Term) : Callback W Term := do
  Callback.setGlobal "__agent_state" current
  match ← Callback.eval (bytes "var __fn = " ++ fnSource ++ bytes "; __fn(__agent_state);")
      (bytes "<agent>") with
  | .tuple [.atom "ok", newState] => return newState
  | .tuple [.atom "error", _] => return current
  | result => .raise (.tuple [.atom "case_clause", result])

end BeamJS
