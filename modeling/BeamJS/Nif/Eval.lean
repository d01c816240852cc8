import BeamJS.Nif.TermConvert

/-!
# `nif_eval`

How the end of a program becomes the result of `BeamjsNif.eval`. A script fails with an exception
value, a module with the promise that `JS_Eval` returns. The engine is a parameter that says how a
source compiles and how its code ends.
-/

namespace BeamJS

/-- A value that leaves an evaluation. One that contains itself is no tree, and `js_value_to_erl`
follows it until the C stack overflows. -/
inductive EvalValue where
  | tree (v : JsValue)
  | cyclic

/-- The end of a call of a NIF. -/
inductive NifResult where
  | returns (t : Term)
  /-- `enif_make_badarg`. -/
  | raises
  | crashes

/-- `js_value_to_erl`. -/
def EvalValue.toErl (ord : MapOrder) : EvalValue → NifResult
  | .tree v =>
    match jsValueToErl ord v with
    | some t => .returns t
    | none => .raises
  | .cyclic => .crashes

/-- `js_exception_to_erl`. -/
def EvalValue.exceptionToErl (ord : MapOrder) : EvalValue → NifResult
  | .tree exc =>
    match jsExceptionToErl ord exc with
    | some t => .returns t
    | none => .raises
  | .cyclic => .crashes

/-! ## Modules -/

/-- A linked module: the modules that it imports and that were not reached before, and the end of
its own body. -/
inductive Module where
  | mk (imports : List Module) (body : Except EvalValue Unit)

mutual

/-- `js_inner_module_evaluation`: the first exception of an import, or else the end of the body. -/
def Module.evaluate : Module → Except EvalValue Unit
  | .mk imports body =>
    match evaluateAll imports with
    | .ok () => body
    | .error exc => .error exc

/-- The loop over the imports. -/
def Module.evaluateAll : List Module → Except EvalValue Unit
  | [] => .ok ()
  | m :: ms =>
    match evaluate m with
    | .ok () => evaluateAll ms
    | .error exc => .error exc

end

/-- The promise of a module, by the end of its evaluation. -/
inductive ModulePromise where
  | fulfilled
  | rejected (exc : EvalValue)

/-- `js_evaluate_module`. -/
def evaluateModule (m : Module) : ModulePromise :=
  match m.evaluate with
  | .ok () => .fulfilled
  | .error exc => .rejected exc

/-- The promise as a value. Its state is no property. -/
def ModulePromise.toValue (_ : ModulePromise) : EvalValue := .tree .promise

/-! ## Programs -/

/-- A source in the mode in which `nif_eval` takes it. -/
inductive JsProgram where
  /-- It does not parse, or a module of it does not resolve or link. -/
  | invalid (exc : EvalValue)
  /-- A script that throws, or its completion value. -/
  | script (run : Except EvalValue EvalValue)
  | module (m : Module)

/-- What `JS_Eval` returns: the pending exception of `JS_EXCEPTION`, or a value. -/
def jsEval : JsProgram → Except EvalValue EvalValue
  | .invalid exc => .error exc
  | .script run => run
  | .module m => .ok (evaluateModule m).toValue

/-- `nif_eval` for a compiled program that leaves no job pending. -/
def nifEval (ord : MapOrder) (p : JsProgram) : NifResult :=
  match jsEval p with
  | .error exc => exc.exceptionToErl ord
  | .ok v =>
    match v.toErl ord with
    | .returns t => .returns (.tuple [.atom "ok", t])
    | result => result

/-- `strstr(haystack, needle) != NULL` for a needle that is not empty. -/
def strstr (haystack needle : Bytes) : Bool := haystack.tails.any needle.isPrefixOf

/-- The heuristic of `nif_eval`. -/
def isModuleSource (source : Bytes) : Bool :=
  strstr (cString source) (bytes "import ") || strstr (cString source) (bytes "export ")

/-- The engine, as far as a whole program is concerned. An exception is one of the compilation. -/
structure Compiler where
  script : Bytes → Except EvalValue (Except EvalValue EvalValue)
  module : Bytes → Except EvalValue Module

/-- The program of a source. -/
def Compiler.compile (c : Compiler) (source : Bytes) : JsProgram :=
  if isModuleSource source then
    match c.module source with
    | .ok m => .module m
    | .error exc => .invalid exc
  else
    match c.script source with
    | .ok run => .script run
    | .error exc => .invalid exc

/-! ## What a caller may expect -/

/-- A body of the module or of a module under it throws. -/
inductive Module.BodyThrows : Module → Prop
  | body {imports : List Module} (exc : EvalValue) : BodyThrows (.mk imports (.error exc))
  | imported {m : Module} {imports : List Module} {body : Except EvalValue Unit} (hm : m ∈ imports)
      (h : BodyThrows m) : BodyThrows (.mk imports body)

/-- Compiling or running the program throws. -/
inductive JsProgram.Throws : JsProgram → Prop
  | invalid (exc : EvalValue) : Throws (.invalid exc)
  | script (exc : EvalValue) : Throws (.script (.error exc))
  | module {m : Module} (h : m.BodyThrows) : Throws (.module m)

/-- The result is `{:error, reason}` for a program that throws and `{:ok, value}` for one that
completes. -/
def ReportsTruth (p : JsProgram) (result : NifResult) : Prop :=
  ((∃ reason, result = .returns (.errorTuple reason)) ↔ p.Throws) ∧
    ((∃ t, result = .returns (.tuple [.atom "ok", t])) ↔ ¬ p.Throws)

mutual

/-- Every number that `js_value_to_erl` visits is finite. -/
def visitsFinite : JsValue → Bool
  | .number n => n.toDouble.isFinite
  | .array elems => allVisitFinite elems
  | .object proto props =>
    if isPidTag ((JsValue.object proto props).getProp JsValue.noBuiltins (js "__beamjs_type")) then
      ((propsVisitFinite props).lookup (js "__beamjs_data")).getD (protoVisitsFinite proto)
    else (propsVisitFinite props).all Prod.snd
  | _ => true

/-- The elements of an array. -/
def allVisitFinite : List JsValue → Bool
  | [] => true
  | v :: vs => visitsFinite v && allVisitFinite vs

/-- Each property of an object. -/
def propsVisitFinite : List (JsString × JsValue) → List (JsString × Bool)
  | [] => []
  | (k, v) :: props => (k, visitsFinite v) :: propsVisitFinite props

/-- The `__beamjs_data` that a tagged object inherits from its prototype. -/
def protoVisitsFinite : Option JsValue → Bool
  | none => true
  | some p => dataVisitsFinite p

/-- The `__beamjs_data` found from a prototype on. -/
def dataVisitsFinite : JsValue → Bool
  | .object proto props =>
    ((propsVisitFinite props).lookup (js "__beamjs_data")).getD (protoVisitsFinite proto)
  | _ => true

end

/-- The value converts. -/
def EvalValue.converts : EvalValue → Bool
  | .tree v => visitsFinite v
  | .cyclic => false

/-- The exception converts: an `Error` by its texts, and any other value as itself. -/
def EvalValue.exceptionConverts : EvalValue → Bool
  | .tree (.error _ _) => true
  | exc => exc.converts

/-- What leaves the program converts, and it is no module that throws after it is linked. -/
def JsProgram.Reported : JsProgram → Prop
  | .invalid exc => exc.exceptionConverts = true
  | .script (.error exc) => exc.exceptionConverts = true
  | .script (.ok v) => v.converts = true
  | .module m => ¬ m.BodyThrows

end BeamJS
