import BeamJS.Lib.Ownership
import BeamJS.Nif.Handle
import BeamJS.Nif.HostCall

/-!
# What the C code acquires and frees

The functions of `term_convert.c`, `host_functions.c`, `module_loader.c` and `beamjs_nif.c` with
the values, strings, environments and blocks of memory that they acquire, use and free. A function
that is passed a value is passed its resource as well; what the value is, and what it converts to,
is the affair of `erlTermToJs` and `jsValueToErl`.
-/

namespace BeamJS

open Lib Owning

/-- What the C code acquires. -/
inductive MemKind where
  /-- Of `enif_alloc_resource`. -/
  | handle
  | runtime | context | mutex | cond
  /-- Of `enif_alloc`. -/
  | block
  /-- Of `enif_alloc_env`. -/
  | env
  /-- A reference to a `JSValue`. -/
  | value
  /-- Of `JS_ToCString` or `JS_AtomToCString`. -/
  | cString
  | atom
  /-- Of `JS_GetOwnPropertyNames`. -/
  | propertyEnum
  | mapIterator
  deriving DecidableEq

abbrev MemCell := Resource MemKind

abbrev Mem := Owning MemKind

/-! ## The calls into the engine -/

/-- A call that returns something to be freed. -/
def jsNew (ctx : MemCell) (kind : MemKind) : Mem MemCell := do
  use ctx
  acquire kind

/-- `JS_FreeValue`, `JS_FreeCString`, `JS_FreeAtom` or `js_free`. -/
def jsFree (ctx c : MemCell) : Mem Unit := do
  use ctx
  release c

/-- `JS_GetProperty`, `JS_GetPropertyStr` or `JS_GetPropertyUint32`. -/
def jsGetProperty (ctx obj : MemCell) : Mem MemCell := do
  use obj
  jsNew ctx .value

/-- `JS_SetProperty`, `JS_SetPropertyStr` or `JS_SetPropertyUint32`, which free the value. -/
def jsSetProperty (ctx obj val : MemCell) : Mem Unit := do
  use obj
  jsFree ctx val

/-- `JS_ToCString`, `JS_ToCStringLen` or `JS_AtomToCString`. -/
def jsToCString (ctx c : MemCell) : Mem MemCell := do
  use c
  jsNew ctx .cString

/-! ## `js_value_to_erl` -/

/-- The conversion of a value that is held by the caller. -/
abbrev Conversion := MemCell → Mem (Option Term)

/-- One round of the loop over an array. -/
def elemToErl (ctx val items : MemCell) (convert : Conversion) : Mem (Option Term) := do
  let elem ← jsGetProperty ctx val
  let t ← convert elem
  use items
  jsFree ctx elem
  return t

/-- The array branch. -/
def arrayToErl (ctx val : MemCell) (converts : List Conversion) : Mem (Option Term) := do
  let lengthVal ← jsGetProperty ctx val
  jsFree ctx lengthVal
  let items ← acquire .block
  let ts ← each (elemToErl ctx val items) converts
  use items
  release items
  return (ts.mapM id).map .list

/-- One round of the loop over the properties of an object. -/
def propToErl (ctx val props : MemCell) (prop : (JsString × Conversion) × MemCell) :
    Mem (JsString × Option Term) := do
  use props
  let keyStr ← jsToCString ctx prop.2
  let propVal ← jsGetProperty ctx val
  use keyStr
  let t ← prop.1.2 propVal
  jsFree ctx propVal
  jsFree ctx keyStr
  jsFree ctx prop.2
  return (prop.1.1, t)

/-- The map branch, from `JS_GetOwnPropertyNames` on. -/
def ownPropsToErl (ord : MapOrder) (ctx val : MemCell) (converts : List (JsString × Conversion)) :
    Mem (Option Term) := do
  use val
  let props ← jsNew ctx .propertyEnum
  let entries ← acquireEach .atom converts
  let ts ← each (propToErl ctx val props) entries
  jsFree ctx props
  return jsPropsToMap ord ts

/-- The branch of a tagged object: `data` converts its `__beamjs_data`. -/
def pidDataToErl (ctx val typeVal typeStr : MemCell) (data : Conversion) : Mem (Option Term) := do
  let pidData ← jsGetProperty ctx val
  let result ← data pidData
  jsFree ctx pidData
  jsFree ctx typeStr
  jsFree ctx typeVal
  return result

/-- The branch of an object with the `__beamjs_type` `type`. -/
def objectToErl (ord : MapOrder) (ctx val : MemCell) (type : JsValue)
    (converts : List (JsString × Conversion)) (data : Conversion) : Mem (Option Term) := do
  let typeVal ← jsGetProperty ctx val
  match type with
  | .string s =>
    let typeStr ← jsToCString ctx typeVal
    use typeStr
    if isPidTag (.string s) then pidDataToErl ctx val typeVal typeStr data
    else
      jsFree ctx typeStr
      jsFree ctx typeVal
      ownPropsToErl ord ctx val converts
  | _ =>
    jsFree ctx typeVal
    ownPropsToErl ord ctx val converts

section ValueToErl

variable (ord : MapOrder) (ctx : MemCell)

mutual

/-- `js_value_to_erl`. -/
def valueToErl : JsValue → Conversion
  | .undefined | .bigint _ | .symbol _ => fun _ => return some (.atom "undefined")
  | .null => fun _ => return some .null
  | .bool b => fun _ => do
    use ctx
    return some (.ofBool b)
  | .number n => fun _ => do
    use ctx
    return jsNumberToErl n
  | .string s => fun val => do
    let str ← jsToCString ctx val
    use str
    jsFree ctx str
    return some (.binary (toCStringLen s))
  | .array elems => fun val => arrayToErl ctx val (valuesToErl elems)
  | .object proto props => fun val =>
    objectToErl ord ctx val
      ((JsValue.object proto props).getProp JsValue.noBuiltins (js "__beamjs_type"))
      (propsToErl props)
      (((propsToErl props).lookup (js "__beamjs_data")).getD (protoDataToErl proto))
  | .func _ | .error _ _ | .promise => fun val =>
    objectToErl ord ctx val .undefined [] fun _ => return none

/-- The elements of an array. -/
def valuesToErl : List JsValue → List Conversion
  | [] => []
  | v :: vs => valueToErl v :: valuesToErl vs

/-- The properties of an object. -/
def propsToErl : List (JsString × JsValue) → List (JsString × Conversion)
  | [] => []
  | (k, v) :: props => (k, valueToErl v) :: propsToErl props

/-- The `__beamjs_data` that an object inherits from its prototype. -/
def protoDataToErl : Option JsValue → Conversion
  | none => fun _ => return some (.atom "undefined")
  | some p => dataToErl p

/-- The `__beamjs_data` found from a prototype on. -/
def dataToErl : JsValue → Conversion
  | .object proto props =>
    ((propsToErl props).lookup (js "__beamjs_data")).getD (protoDataToErl proto)
  | _ => fun _ => return some (.atom "undefined")

end

end ValueToErl

/-- `JS_ToCString` on a `message` or `stack`, which returns `NULL` where `ToString` throws. -/
def textToCString (ctx val : MemCell) (text : Option JsString) : Mem (Option MemCell) :=
  match text with
  | some _ => do
    let str ← jsToCString ctx val
    return some str
  | none => do
    use val
    use ctx
    return none

/-- The binary of a string that may be `NULL`. -/
def copyText (ctx : MemCell) (text : Option JsString) (str : Option MemCell) : Mem Term :=
  match str with
  | some str => do
    use str
    jsFree ctx str
    return errorText text
  | none => return errorText none

/-- The branch of an `Error`. -/
def errorToErl (ctx excVal : MemCell) (message stack : Option JsString) : Mem (Option Term) := do
  let msgVal ← jsGetProperty ctx excVal
  let stackVal ← jsGetProperty ctx excVal
  let msgStr ← textToCString ctx msgVal message
  let stackStr ← textToCString ctx stackVal stack
  let msgBin ← copyText ctx message msgStr
  let stackBin ← copyText ctx stack stackStr
  jsFree ctx msgVal
  jsFree ctx stackVal
  return some (.tuple [.atom "js_exception", msgBin, stackBin])

/-- `js_exception_to_erl` for the pending exception. -/
def exceptionToErl (ord : MapOrder) (ctx : MemCell) (exc : JsValue) : Mem (Option Term) := do
  let excVal ← jsNew ctx .value
  let reason ← match exc with
    | .error message stack => errorToErl ctx excVal message stack
    | v => valueToErl ord ctx v excVal
  jsFree ctx excVal
  return reason.map fun reason => .tuple [.atom "error", reason]

/-! ## `erl_term_to_js` -/

section TermToJs

variable (ctx : MemCell)

mutual

/-- `erl_term_to_js`: the value, the atoms known afterwards, and the reference. -/
def termToJs (known : Atoms) : Term → Mem ((JsValue × Atoms) × MemCell)
  | .tuple elems => do
    let arr ← jsNew ctx .value
    let (vs, known) ← termsToJs known arr elems
    return ((.array vs, known), arr)
  | .list elems =>
    match Term.iolistBytes elems with
    | some b => do
      let str ← jsNew ctx .value
      return ((.string (newStringLen b), known), str)
    | none => do
      let arr ← jsNew ctx .value
      let (vs, known) ← termsToJs known arr elems
      return ((.array vs, known), arr)
  | .map entries => do
    let obj ← jsNew ctx .value
    let iter ← acquire .mapIterator
    let result ← entriesToJs known obj iter .emptyObject entries
    release iter
    return (result, obj)
  | t => do
    let val ← jsNew ctx .value
    return (erlTermToJs known t, val)

/-- The loop over a tuple or a list. -/
def termsToJs (known : Atoms) (arr : MemCell) : List Term → Mem (List JsValue × Atoms)
  | [] => return ([], known)
  | t :: ts => do
    let ((v, known), elem) ← termToJs known t
    jsSetProperty ctx arr elem
    let (vs, known) ← termsToJs known arr ts
    return (v :: vs, known)

/-- The loop over a map. -/
def entriesToJs (known : Atoms) (obj iter : MemCell) (o : JsValue) :
    List (Term × Term) → Mem (JsValue × Atoms)
  | [] => return (o, known)
  | (k, t) :: es => do
    use iter
    match erlKeyToBuf k with
    | some buf => do
      let ((v, known), jsVal) ← termToJs known t
      let atom ← jsNew ctx .atom
      use atom
      jsSetProperty ctx obj jsVal
      jsFree ctx atom
      entriesToJs (newAtomLen known buf).2 obj iter (o.setProp (newAtomLen known buf).1 v) es
    | none => entriesToJs known obj iter o es

end

end TermToJs

/-! ## Host calls and module loads -/

/-- The parts of a live context. -/
structure ContextCells where
  rt : MemCell
  ctx : MemCell
  mutex : MemCell
  hostReplyCond : MemCell

/-- `nif_deliver_host_reply`, which the owner calls while the evaluation waits: the environment that
it leaves in `host_reply_env`. -/
def deliverHostReply (c : ContextCells) : Mem MemCell := do
  use c.mutex
  let replyEnv ← acquire .env
  use c.hostReplyCond
  use c.mutex
  return replyEnv

/-- The wait for a reply. -/
def awaitHostReply (c : ContextCells) : Mem MemCell := do
  use c.mutex
  use c.hostReplyCond
  deliverHostReply c

/-- `host_call_generic` with the arguments `argv`: the reply as a value, or `none` with the exception
where `enif_send` fails. -/
def hostCallGeneric (ord : MapOrder) (known : Atoms) (c : ContextCells)
    (argv : List (JsValue × MemCell)) (sent : Bool) (reply : Term) :
    Mem (Option (JsValue × Atoms) × MemCell) := do
  let msgEnv ← acquire .env
  let erlArgs ← acquire .block
  let _ ← each (fun arg => do
    let t ← valueToErl ord c.ctx arg.1 arg.2
    use msgEnv
    use erlArgs
    return t) argv
  use erlArgs
  release erlArgs
  use msgEnv
  release msgEnv
  if sent then
    let replyEnv ← awaitHostReply c
    use replyEnv
    let (result, val) ← termToJs c.ctx known reply
    use c.mutex
    release replyEnv
    return (some result, val)
  else
    let exc ← jsNew c.ctx .value
    return (none, exc)

/-- The end of the module that a loader compiles and runs. -/
inductive ModuleEnd where
  | compileFails | throws | completes
  deriving DecidableEq

/-- The part of `beamjs_module_loader` that compiles and runs the source in the reply. -/
def compileReply (c : ContextCells) (replyEnv : MemCell) (reply : Term) (ends : ModuleEnd) :
    Mem Bool :=
  match moduleSource reply, ends with
  | some _, .compileFails => do
    use replyEnv
    let funcVal ← jsNew c.ctx .value
    jsFree c.ctx funcVal
    return false
  | some _, ends => do
    use replyEnv
    let funcVal ← jsNew c.ctx .value
    -- `JS_EvalFunction` frees the function
    jsFree c.ctx funcVal
    let evalResult ← jsNew c.ctx .value
    jsFree c.ctx evalResult
    return ends = .completes
  | none, _ => return false

/-- `beamjs_module_loader`: whether it returns a module. -/
def beamjsModuleLoader (c : ContextCells) (sent : Bool) (reply : Term) (ends : ModuleEnd) :
    Mem Bool := do
  let msgEnv ← acquire .env
  use msgEnv
  release msgEnv
  if sent then
    let replyEnv ← awaitHostReply c
    use replyEnv
    let found ← compileReply c replyEnv reply ends
    use c.mutex
    release replyEnv
    return found
  else return false

/-- One round of the loop of `js_console_log` and `js_console_error`. An argument has no string
where `ToString` throws. -/
def printArg (ctx : MemCell) (arg : Option JsString × MemCell) : Mem Unit := do
  match ← textToCString ctx arg.2 arg.1 with
  | some str =>
    use str
    jsFree ctx str
  | none => return ()

/-- What the engine calls while it runs JavaScript. -/
inductive EngineCall where
  | host (fn : HostFn) (args : List JsValue) (sent : Bool) (reply : Term)
  | load (sent : Bool) (reply : Term) (ends : ModuleEnd)
  | console (args : List (Option JsString))

/-- One such call. The engine holds the arguments meanwhile, and frees them and the result. -/
def EngineCall.run (ord : MapOrder) (known : Atoms) (c : ContextCells) : EngineCall → Mem Unit
  | .host _ args sent reply => do
    let argv ← acquireEach .value args
    let (_, result) ← hostCallGeneric ord known c argv sent reply
    jsFree c.ctx result
    releaseAll (argv.map Prod.snd)
  | .load sent reply ends => do
    let _ ← beamjsModuleLoader c sent reply ends
  | .console args => do
    let argv ← acquireEach .value args
    let _ ← each (printArg c.ctx) argv
    releaseAll (argv.map Prod.snd)

/-! ## The NIFs -/

/-- What running JavaScript does: the calls out of the engine, those of the pending jobs, and the
result or exception that is found in the end. -/
structure Activity where
  calls : List EngineCall
  jobs : List EngineCall
  completion : Except JsValue JsValue

/-- `JS_Eval` or `JS_Call`, and the loop of `JS_ExecutePendingJob`: the reference to the result. -/
def Activity.run (ord : MapOrder) (known : Atoms) (c : ContextCells) (a : Activity) : Mem MemCell := do
  use c.ctx
  let _ ← each (EngineCall.run ord known c) a.calls
  let result ← acquire .value
  use c.rt
  let _ ← each (EngineCall.run ord known c) a.jobs
  return result

/-- What `nif_eval` and `nif_call_function` make of the result. -/
def resultToErl (ord : MapOrder) (c : ContextCells) (a : Activity) (result : MemCell) :
    Mem (Option Term) :=
  match a.completion with
  | .error exc => exceptionToErl ord c.ctx exc
  | .ok v => do
    let t ← valueToErl ord c.ctx v result
    return t.map fun t => .tuple [.atom "ok", t]

/-- The part of `nif_eval` after its arguments. -/
def evalBody (ord : MapOrder) (known : Atoms) (c : ContextCells) (a : Activity) :
    Mem (Option Term) := do
  let source ← acquire .block
  let filename ← acquire .block
  use c.rt
  use source
  use filename
  let result ← a.run ord known c
  let t ← resultToErl ord c a result
  jsFree c.ctx result
  release source
  release filename
  return t

/-- Convert the arguments of `nif_call_function`. -/
def argsToJs (ctx jsArgs : MemCell) (known : Atoms) : List Term → Mem (List MemCell)
  | [] => return []
  | t :: ts => do
    let ((_, known), val) ← termToJs ctx known t
    use jsArgs
    let vals ← argsToJs ctx jsArgs known ts
    return val :: vals

/-- The part of `nif_call_function` that calls: `func` of the global object with the arguments. -/
def callBody (ord : MapOrder) (known : Atoms) (c : ContextCells) (elems : List Term)
    (a : Activity) (func global : MemCell) : Mem (Option Term) := do
  let jsArgs ← acquire .block
  let vals ← argsToJs c.ctx jsArgs known elems
  use func
  use global
  use jsArgs
  let result ← a.run ord known c
  let t ← resultToErl ord c a result
  jsFree c.ctx result
  let _ ← each (fun val => do
    use jsArgs
    jsFree c.ctx val) vals
  use jsArgs
  release jsArgs
  return t

/-- The part of `nif_call_function` after the name: `isFunction` says what the global is, and `args`
is `none` where the third argument is no list. -/
def callFunctionBody (ord : MapOrder) (known : Atoms) (c : ContextCells) (isFunction : Bool)
    (args : Option (List Term)) (a : Activity) : Mem (Option Term) := do
  let fnName ← acquire .block
  use c.rt
  let global ← jsNew c.ctx .value
  use fnName
  let func ← jsGetProperty c.ctx global
  match isFunction, args with
  | false, _ =>
    jsFree c.ctx func
    jsFree c.ctx global
    release fnName
    return some (.errorTuple (.atom "not_a_function"))
  | true, none =>
    jsFree c.ctx func
    jsFree c.ctx global
    release fnName
    return none
  | true, some elems =>
    let t ← callBody ord known c elems a func global
    jsFree c.ctx func
    jsFree c.ctx global
    release fnName
    return t

/-- The part of `nif_set_global` that has the context. -/
def setGlobalBody (known : Atoms) (ctx name : MemCell) (value : Term) : Mem (Option Term) := do
  let global ← jsNew ctx .value
  let (_, jsVal) ← termToJs ctx known value
  use name
  jsSetProperty ctx global jsVal
  jsFree ctx global
  release name
  return some .ok

/-- The part of `nif_get_global` that has the context. -/
def getGlobalBody (ord : MapOrder) (ctx name : MemCell) (value : JsValue) : Mem (Option Term) := do
  let global ← jsNew ctx .value
  use name
  let val ← jsGetProperty ctx global
  let t ← valueToErl ord ctx value val
  jsFree ctx val
  jsFree ctx global
  release name
  return t.map fun t => .tuple [.atom "ok", t]

/-! ## The life of a handle -/

/-- The pointers in the struct of a handle, `none` where they are `NULL`. -/
structure ContextMemory where
  handle : MemCell
  rt : Option MemCell
  ctx : Option MemCell
  mutex : Option MemCell
  hostReplyCond : Option MemCell

/-- Free what a pointer points to. -/
def freePtr (p : Option MemCell) : Mem Unit :=
  match p with
  | some c => release c
  | none => return ()

/-- `JS_FreeContext` and `JS_FreeRuntime` on the pointers that are not `NULL`. The latter asserts
that no object of the runtime is left. -/
def freeEngine (b : ContextMemory) : Mem ContextMemory := do
  use b.handle
  freePtr b.ctx
  match b.rt with
  | some rt =>
    expectNone [.context, .value]
    release rt
  | none => pure ()
  return { b with ctx := none, rt := none }

/-- A call of a NIF on a handle. An argument is `none` where it is neither a binary nor an iolist.
-/
inductive NifUse where
  | destroyContext
  | eval (source filename : Option Bytes) (a : Activity)
  | callFunction (name : Option Bytes) (isFunction : Bool) (args : Option (List Term))
      (a : Activity)
  | setGlobal (name : Option Bytes) (value : Term)
  /-- The global has the value `value`. -/
  | getGlobal (name : Option Bytes) (value : JsValue)
  /-- The jobs make these calls, and `count` of them end without an exception. -/
  | executePendingJobs (calls : List EngineCall) (count : ℕ)

/-- `{:error, :context_destroyed}`. -/
def contextDestroyed : Option Term := some (.errorTuple (.atom "context_destroyed"))

/-- Use the parts of a context. Without them there is nothing but a `NULL` pointer. -/
def withContext {α : Type} (b : ContextMemory) (body : ContextCells → Mem α) : Mem α :=
  match b.rt, b.ctx, b.mutex, b.hostReplyCond with
  | some rt, some ctx, some mutex, some cond => body ⟨rt, ctx, mutex, cond⟩
  | _, _, _, _ => fault

/-- One call: the result, `none` for `badarg`, and the struct afterwards. -/
def NifUse.run (ord : MapOrder) (known : Atoms) (b : ContextMemory) :
    NifUse → Mem (Option Term × ContextMemory)
  | .destroyContext => do
    let b ← freeEngine b
    return (some .ok, b)
  | .eval source filename a => do
    use b.handle
    if b.ctx.isNone then return (contextDestroyed, b)
    else
      match source, filename with
      | some _, some _ => do
        let t ← withContext b fun c => evalBody ord known c a
        return (t, b)
      | _, _ => return (none, b)
  | .callFunction name isFunction args a => do
    use b.handle
    if b.ctx.isNone then return (contextDestroyed, b)
    else
      match name with
      | some _ => do
        let t ← withContext b fun c => callFunctionBody ord known c isFunction args a
        return (t, b)
      | none => return (none, b)
  | .setGlobal name value => do
    use b.handle
    match name with
    | some _ => do
      let nameBuf ← acquire .block
      let t ← withContext b fun c => setGlobalBody known c.ctx nameBuf value
      return (t, b)
    | none => return (none, b)
  | .getGlobal name value => do
    use b.handle
    match name with
    | some _ => do
      let nameBuf ← acquire .block
      let t ← withContext b fun c => getGlobalBody ord c.ctx nameBuf value
      return (t, b)
    | none => return (none, b)
  | .executePendingJobs calls count => do
    use b.handle
    withContext b fun c => do
      use c.rt
      let _ ← each (EngineCall.run ord known c) calls
      return (some (.tuple [.ok, .int count]), b)

/-- What the result of running JavaScript becomes. -/
def Activity.result (ord : MapOrder) (a : Activity) : Option Term :=
  match a.completion with
  | .error exc => jsExceptionToErl ord exc
  | .ok v => (jsValueToErl ord v).map fun t => .tuple [.atom "ok", t]

/-- The result of `nif_call_function` on a live context. -/
def callResult (ord : MapOrder) (isFunction : Bool) (args : Option (List Term)) (a : Activity) :
    Option Term :=
  match isFunction, args with
  | false, _ => some (.errorTuple (.atom "not_a_function"))
  | true, none => none
  | true, some _ => a.result ord

/-- The result of a call on a handle whose engine is `destroyed` or not. -/
def NifUse.result (ord : MapOrder) (destroyed : Bool) : NifUse → Option Term
  | .destroyContext => some .ok
  | .eval source filename a =>
    if destroyed then contextDestroyed
    else if source.isSome && filename.isSome then a.result ord else none
  | .callFunction name isFunction args a =>
    if destroyed then contextDestroyed
    else if name.isSome then callResult ord isFunction args a else none
  | .setGlobal name _ => if name.isSome then some .ok else none
  | .getGlobal name value =>
    if name.isSome then (jsValueToErl ord value).map fun t => .tuple [.atom "ok", t] else none
  | .executePendingJobs _ count => some (.tuple [.ok, .int count])

end BeamJS
