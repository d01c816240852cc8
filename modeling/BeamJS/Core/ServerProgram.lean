import BeamJS.Core.SupervisorBridge
import BeamJS.Lib.Alike
import BeamJS.Nif.EvalMode
import BeamJS.Nif.TermConvert
import BeamJS.Stdlib.Match
import Mathlib.Logic.Function.Basic

/-!
# The programs of GenServers

The program that `start_gen_server` builds around a class and the one that a supervisor builds,
statement by statement, and the servers that they make. What the code of the class does is up to the
engine: it can read and write every variable of the program.
-/

namespace BeamJS

open Lib

/-! ## Programs -/

/-- A function of the programs. -/
inductive GsCallback where
  | handleCall | handleCast | handleInfo
  deriving DecidableEq

namespace GsCallback

/-- The name of the function. -/
def name : GsCallback → Bytes
  | handleCall => bytes "__genserver_handle_call"
  | handleCast => bytes "__genserver_handle_cast"
  | handleInfo => bytes "__genserver_handle_info"

/-- The method of the instance that the function calls. -/
def method : GsCallback → String
  | handleCall => "handleCall"
  | handleCast => "handleCast"
  | handleInfo => "handleInfo"

/-- The number of parameters before `state`. -/
def arity : GsCallback → ℕ
  | handleCall => 2
  | handleCast | handleInfo => 1

end GsCallback

def gsClass : Bytes := bytes "__gs_class"
def gsInstance : Bytes := bytes "__gs_instance"
def gsState : Bytes := bytes "__genserver_state"

/-- A statement of the programs. -/
inductive Stmt where
  /-- The source of the class. -/
  | classDeclaration (text : Bytes)
  /-- `var x = y;` -/
  | varName (x y : Bytes)
  /-- `var x = new c();` -/
  | varNew (x c : Bytes)
  /-- `var __genserver_state = __gs_instance.init(args);` -/
  | varInit (args : Bytes)
  /-- The three functions. -/
  | callbacks

namespace Stmt

/-- The text of a statement. -/
def text : Stmt → Bytes
  | classDeclaration text => text ++ bytes "\n"
  | varName x y => bytes "var " ++ x ++ bytes " = " ++ y ++ bytes ";\n"
  | varNew x c => bytes "var " ++ x ++ bytes " = new " ++ c ++ bytes "();\n"
  | varInit args => bytes "var __genserver_state = __gs_instance.init(" ++ args ++ bytes ");\n"
  | callbacks => callbacksSource

/-- The variables that a statement declares with `var`. -/
def varNames : Stmt → List Bytes
  | varName x _ | varNew x _ => [x]
  | varInit _ => [gsState]
  | classDeclaration _ | callbacks => []

/-- The functions that a statement declares. -/
def functions : Stmt → List GsCallback
  | callbacks => [.handleCall, .handleCast, .handleInfo]
  | _ => []

end Stmt

/-- The text of a program. -/
def programText (p : List Stmt) : Bytes := p.flatMap Stmt.text

/-- The program of `start_gen_server`. -/
def gsProgram (className source args : Bytes) : List Stmt :=
  [.classDeclaration source, .varNew gsInstance className, .varInit args, .callbacks]

/-- A context: what is outside the programs, the global variables, and the variables of the module
that was evaluated. -/
structure JsContext (H V : Type) where
  world : H
  globals : Bytes → Option V
  locals : Bytes → Option V

/-- The value of a variable in a program of the given type. -/
def JsContext.lookup {H V : Type} (mode : EvalType) (c : JsContext H V) (x : Bytes) : Option V :=
  match mode with
  | .global => c.globals x
  | .module => (c.locals x).or (c.globals x)

/-- A computation of the engine, which may throw. -/
abbrev JsM (H V : Type) := Exec (JsContext H V) V

/-- The engine, and with it the meaning of the code of every class. -/
structure ClassEngine (H V : Type) where
  /-- The name that a source declares if it is a class declaration. -/
  declares : Bytes → Option Bytes
  isIdentifier : Bytes → Bool
  isIdentifier_gsClass : isIdentifier gsClass = true
  /-- An identifier has neither a space nor a NUL. -/
  identifier_chars : ∀ x, isIdentifier x = true → 32 ∉ x ∧ 0 ∉ x
  undefined : V
  /-- The functions of the program, and which of them a value is. -/
  callback : GsCallback → V
  asCallback : V → Option GsCallback
  asCallback_callback : ∀ b, asCallback (callback b) = some b
  isFunction : V → Bool
  syntaxError : V
  referenceError : Bytes → V
  /-- The class of a declaration in a file. -/
  classDeclaration : (file text : Bytes) → JsM H V V
  /-- `new c()`. -/
  construct : V → JsM H V V
  /-- `this.method(...args)`. -/
  invoke : (this : V) → (method : String) → (args : List V) → JsM H V V
  /-- `f(...args)`. -/
  apply : (f : V) → (args : List V) → JsM H V V
  /-- The value of a JSON text as an expression. -/
  literal : Bytes → JsM H V V
  /-- `({error: 'no_handler'})`. -/
  noHandler : JsM H V V
  /-- `({noreply: true, state})`. -/
  noreply : (state : V) → JsM H V V
  /-- `erl_term_to_js`. -/
  fromErl : Term → Exec (JsContext H V) Term V
  /-- `js_value_to_erl`. -/
  toErl : V → Exec (JsContext H V) Term Term
  /-- The reason that is reported for an exception. -/
  reason : V → Exec (JsContext H V) Term Term

section Run

variable {H V : Type}

/-- Set a variable of a program. -/
def defineVar (mode : EvalType) (x : Bytes) (v : V) (c : JsContext H V) : JsContext H V :=
  match mode with
  | .global => { c with globals := Function.update c.globals x (some v) }
  | .module => { c with locals := Function.update c.locals x (some v) }

/-- Change the context. -/
def modifyContext {ε : Type} (f : JsContext H V → JsContext H V) : Exec (JsContext H V) ε Unit :=
  Exec.of fun c => (.ok (), f c)

/-- What a program has instantiated, and the argument that `init` was called with. -/
structure Started (V : Type) where
  instantiated : Option V
  initArg : Option V

namespace ClassEngine

variable (E : ClassEngine H V)

/-- Read a variable. -/
def getVar (mode : EvalType) (x : Bytes) : JsM H V V :=
  Exec.of fun c =>
    match c.lookup mode x with
    | some v => (.ok v, c)
    | none => (.error (E.referenceError x), c)

/-- Execute a statement. -/
def runStmt (mode : EvalType) (file : Bytes) (st : Started V) : Stmt → JsM H V (Started V)
  | .classDeclaration text => do
    let k ← E.classDeclaration file text
    match E.declares text with
    | some name => modifyContext (defineVar mode name k)
    | none => throw E.syntaxError
    return st
  | .varName x y => do
    let v ← E.getVar mode y
    modifyContext (defineVar mode x v)
    return st
  | .varNew x c => do
    let k ← E.getVar mode c
    let v ← E.construct k
    modifyContext (defineVar mode x v)
    return { st with instantiated := some k }
  | .varInit args => do
    let this ← E.getVar mode gsInstance
    let arg ← E.literal args
    let state ← E.invoke this "init" [arg]
    modifyContext (defineVar mode gsState state)
    return { st with initArg := some arg }
  | .callbacks => return st

/-- Execute statements. -/
def runStmts (mode : EvalType) (file : Bytes) : List Stmt → Started V → JsM H V (Started V)
  | [], st => return st
  | s :: p, st => do
    let st ← E.runStmt mode file st s
    runStmts mode file p st

/-- The program compiles: its names are identifiers, and no class has the name of one of its
variables or functions. -/
def compiles (p : List Stmt) : Bool :=
  p.all fun
    | .classDeclaration text =>
      match E.declares text with
      | some name =>
        !(p.flatMap Stmt.varNames).contains name &&
          !((p.flatMap Stmt.functions).map GsCallback.name).contains name
      | none => false
    | .varName _ y => E.isIdentifier y
    | .varNew _ c => E.isIdentifier c
    | .varInit _ | .callbacks => true

/-- A variable is there before the program runs. -/
def hoistVar (mode : EvalType) (c : JsContext H V) (x : Bytes) : JsContext H V :=
  match mode with
  | .global => if (c.globals x).isSome then c else defineVar .global x E.undefined c
  | .module => if (c.locals x).isSome then c else defineVar .module x E.undefined c

/-- The context before a program runs. -/
def hoist (mode : EvalType) (p : List Stmt) (c : JsContext H V) : JsContext H V :=
  let c : JsContext H V := { c with locals := fun _ => none }
  let c := (p.flatMap Stmt.functions).foldl (fun c b => defineVar mode b.name (E.callback b) c) c
  (p.flatMap Stmt.varNames).foldl (E.hoistVar mode) c

/-- Evaluate a program. -/
def start (file : Bytes) (p : List Stmt) : JsM H V (Started V) :=
  let mode := evalType (programText p)
  if E.compiles p then do
    modifyContext (E.hoist mode p)
    E.runStmts mode file p ⟨none, none⟩
  else throw E.syntaxError

/-- The body of a function of a program of the given type. -/
def callbackBody (mode : EvalType) (b : GsCallback) (args : List V) : JsM H V V := do
  let arg (i : ℕ) : V := args.getD i E.undefined
  modifyContext (defineVar mode gsState (arg b.arity))
  let this ← E.getVar mode gsInstance
  let state ← E.getVar mode gsState
  E.invoke this b.method ((List.range b.arity).map arg ++ [state])

/-- Call a function. -/
def callFunction (mode : EvalType) (f : V) (args : List V) : JsM H V V :=
  match E.asCallback f with
  | some b => E.callbackBody mode b args
  | none => E.apply f args

/-- The function under a global name, if there is one. -/
def globalFunction (x : Bytes) : JsM H V (Option V) :=
  Exec.of fun c => (.ok ((c.globals x).filter E.isFunction), c)

/-- The program of `handle_call({:js_call, _})`, a script, in a process whose own program is of the
given type. -/
def callProgram (mode : EvalType) : JsM H V V := do
  match ← E.globalFunction GsCallback.handleCall.name with
  | some f =>
    let request ← E.getVar .global (bytes "__pending_call_request")
    let caller ← E.getVar .global (bytes "__pending_call_from")
    let state ← E.getVar .global gsState
    E.callFunction mode f [request, caller, state]
  | none => E.noHandler

/-- The program of `handle_cast`. -/
def castProgram (mode : EvalType) : JsM H V V := do
  match ← E.globalFunction GsCallback.handleCast.name with
  | some f =>
    let request ← E.getVar .global (bytes "__pending_cast_request")
    let state ← E.getVar .global gsState
    E.callFunction mode f [request, state]
  | none =>
    let state ← E.getVar .global gsState
    E.noreply state

/-- What `nif_eval` returns for a computation. -/
def evalResult (m : JsM H V V) : Exec (JsContext H V) Term Term :=
  m.fold (fun v => do return .tuple [.atom "ok", ← E.toErl v])
    (fun e => do return .tuple [.atom "error", ← E.reason e])

/-- The operations of the callbacks of the process, whose world is that of the engine. -/
def op (mode : EvalType) {α : Type} : Op H α → JsContext H V → Except Term α × JsContext H V
  | .otp f => fun c => ((f c.world).1, { c with world := (f c.world).2 })
  | .setGlobal name value =>
    (do
      let v ← E.fromErl value
      modifyContext (defineVar .global (bytes name) v) : Exec (JsContext H V) Term Unit).runFrom
  | .eval source _ =>
    if source = callSource then (E.evalResult (E.callProgram mode)).runFrom
    else if source = castSource then (E.evalResult (E.castProgram mode)).runFrom
    else (throw (.atom "undef") : Exec (JsContext H V) Term Term).runFrom
  | .deliver _ => fun c => (.ok (), c)

end ClassEngine

/-! ## Servers -/

variable (sys : Otp H) (E : ClassEngine H V)

variable (t : CharTables)

/-- The contexts differ in the variable `x` only. -/
structure SameBut (x : Bytes) (c c' : JsContext H V) : Prop where
  world : c.world = c'.world
  globals : ∀ y ≠ x, c.globals y = c'.globals y
  locals : ∀ y ≠ x, c.locals y = c'.locals y

end Run

end BeamJS
