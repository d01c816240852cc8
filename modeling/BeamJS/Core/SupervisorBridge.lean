import BeamJS.Core.Process
import BeamJS.Core.Transpiler

/-!
# `BeamjsCore.SupervisorBridge`

The child specs that a supervisor makes of the specs of its children, and the source that it builds
for a GenServer. The name of the class is looked for in its source with a regular expression, over
bytes as in the transpiler.
-/

namespace BeamJS

open Lib Transpiler

section ClassName

variable (t : CharTables)

/-- `class\s+(\w+)` without its group. -/
def classKeyword : Regex UInt8 := Regex.seqs [chars "class", space t]

/-- `extract_class_name`. -/
def extractClassName (source : Bytes) : Bytes :=
  ((classKeyword t).firstGroup (words t) source).getD (bytes "GenServer")

end ClassName

/-- The three functions that both templates end with. -/
def callbacksSource : Bytes :=
  bytes "function __genserver_handle_call(request, from, state) \x7b\n" ++
  bytes "  __genserver_state = state;\n" ++
  bytes "  return __gs_instance.handleCall(request, from, __genserver_state);\n\x7d\n" ++
  bytes "function __genserver_handle_cast(request, state) \x7b\n" ++
  bytes "  __genserver_state = state;\n" ++
  bytes "  return __gs_instance.handleCast(request, __genserver_state);\n\x7d\n" ++
  bytes "function __genserver_handle_info(message, state) \x7b\n" ++
  bytes "  __genserver_state = state;\n" ++
  bytes "  return __gs_instance.handleInfo(message, __genserver_state);\n\x7d\n"

/-- The source that `build_source` builds around the source of a module. -/
def supervisedSource (className source args : Bytes) : Bytes :=
  source ++ bytes "\nvar __gs_class = " ++ className ++
  bytes ";\nvar __gs_instance = new __gs_class();\n" ++
  bytes "var __genserver_state = __gs_instance.init(" ++ args ++
  bytes ");\n" ++ callbacksSource

/-- `a || b`. -/
def Term.orElse (a : Option Term) (b : Term) : Term :=
  match a with
  | some a => if a.truthy then a else b
  | none => b

/-- The options of `start_link` in a child spec. -/
structure ChildStart where
  source : Term
  filename : Term
  baseDir : Bytes
  name : Term

/-- A child spec. -/
inductive ChildSpec where
  | supervisor (id spec : Term) (baseDir : Bytes) (restart : String)
  | worker (id : Term) (start : ChildStart) (restart : String) (shutdown : Term)

/-- `map_restart`. -/
def mapRestart : Option Term → String
  | some (.binary b) =>
    if b = bytes "temporary" then "temporary" else if b = bytes "transient" then "transient"
    else "permanent"
  | _ => "permanent"

section Spec

variable {W : Type} (sys : Otp W) (t : CharTables)

/-- `build_source`. Only a binary can be searched for the name of the class. -/
def buildSource (spec : Term) : Except Term Term :=
  match spec.get? "module", spec.get? "args", spec.get? "source" with
  | some (.binary m), some args, _ => do
    let json ← sys.jsonEncode (Term.orElse (some args) (sys.maps.toMap []))
    return .binary (supervisedSource (extractClassName t m) m json)
  | some _, some _, _ => .error (.atom "function_clause")
  | _, _, some source => .ok source
  | _, _, none => .ok (.binary [])

/-- `spec["key"]` can be asked for: the spec is a map or `nil`. -/
def isAccessible : Term → Bool
  | .map _ => true
  | .atom name => name == "nil"
  | _ => false

/-- `to_child_spec`, where `fresh` is the unique integer for a child without an id. -/
def toChildSpec (fresh : ℤ) (baseDir : Bytes) (spec : Term) : Except Term ChildSpec :=
  let id := Term.orElse (spec.get? "id") (.int fresh)
  let restart := mapRestart (spec.get? "restart")
  if !isAccessible spec then .error (.atom "undef")
  else if isSupervisor then .ok (.supervisor id spec baseDir restart)
  else worker id restart
where
  /-- The `type` of the spec is `"supervisor"`. -/
  isSupervisor : Bool :=
    match spec.get? "type" with
    | some (.binary kind) => kind = bytes "supervisor"
    | _ => false
  /-- The child spec of a process. -/
  worker (id : Term) (restart : String) : Except Term ChildSpec := do
    let source ← match spec.get? "source" with
      | some source => if source.truthy then .ok source else buildSource sys t spec
      | none => buildSource sys t spec
    let filename ← match spec.get? "filename" with
      | some filename => if filename.truthy then .ok filename else childName id
      | none => childName id
    return .worker id ⟨source, filename, baseDir, (spec.get? "name").getD .null⟩ restart
      (Term.orElse (spec.get? "shutdown") (.int 5000))
  /-- `<child:#{id}>`. -/
  childName (id : Term) : Except Term Term := do
    let text ← sys.interpolate id
    return .binary (bytes "<child:" ++ text ++ bytes ">")

end Spec

end BeamJS
