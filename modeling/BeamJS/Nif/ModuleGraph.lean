import BeamJS.Lib.Stateful
import Mathlib.Data.List.Basic
import Mathlib.Logic.Function.Basic
import Mathlib.Logic.Relation

/-!
# The loading of a module graph

What `quickjs.c` does with the modules that an entry module imports, and `beamjs_module_loader`,
which it calls for each of them. Modules are known by their canonical names. Every step that matters
to a program is written to a log. The recursions of the C code take fuel: a run without enough of it
stops in the middle, so that the logs for all amounts of fuel show the loading at every point.
-/

namespace BeamJS

open Lib

/-- What the compiler reads off the text of a module. -/
structure ModuleText (α : Type) where
  /-- The modules that it requests, by their canonical names. -/
  requests : List α
  /-- `js_resolve_export` finds every import and indirect export. -/
  links : Bool
  /-- It has an `await` at the top level. -/
  hasTla : Bool
  /-- The body throws. -/
  throws : Bool

/-- `JSModuleStatus`. -/
inductive ModuleStatus where
  | unlinked | linking | linked | evaluating | evaluatingAsync | evaluated
  deriving DecidableEq

/-- `JSModuleDef`. -/
structure ModuleDef (α : Type) where
  text : ModuleText α
  /-- The first entries of `req_module_entries`, whose `module` is set. The others hold `NULL`. -/
  filled : List α
  resolved : Bool
  funcCreated : Bool
  status : ModuleStatus
  dfsIndex : ℕ
  dfsAncestorIndex : ℕ
  pendingAsyncDependencies : ℕ
  asyncEvaluation : Bool
  cycleRoot : Option α
  evalHasException : Bool
  /-- The promise of the evaluation has been made. -/
  promise : Bool

namespace ModuleDef

variable {α : Type}

/-- A module that has just been compiled. -/
def compiled (text : ModuleText α) : ModuleDef α where
  text := text
  filled := []
  resolved := false
  funcCreated := false
  status := .unlinked
  dfsIndex := 0
  dfsAncestorIndex := 0
  pendingAsyncDependencies := 0
  asyncEvaluation := false
  cycleRoot := none
  evalHasException := false
  promise := false

/-- The `module` of each entry of `req_module_entries`. -/
def entries (d : ModuleDef α) : List (Option α) :=
  d.filled.map some ++ List.replicate (d.text.requests.length - d.filled.length) none

end ModuleDef

/-- A step of the loading. -/
inductive LoadEvent (α : Type) where
  /-- The module is compiled. -/
  | loaded (m : α)
  /-- The module is linked. -/
  | linked (m : α)
  /-- The body of the module starts. -/
  | ran (m : α)
  deriving DecidableEq

/-- The modules of a context, and the evaluating thread. -/
structure LoadEngine (α : Type) where
  /-- `ctx->loaded_modules`, by name. -/
  modules : α → Option (ModuleDef α)
  /-- The modules under `stack_top` in the walk that links or evaluates. -/
  stack : List α
  /-- The `index` of that walk. -/
  index : ℕ
  /-- The thread holds `bctx->mutex`. -/
  locked : Bool
  log : List (LoadEvent α)

/-- Why a computation does not return. -/
inductive Halt where
  /-- A JavaScript exception is pending. -/
  | exception
  /-- The thread waits for a lock that it holds. -/
  | hangs
  /-- A `NULL` pointer is followed or an assertion fails. -/
  | crash
  | outOfFuel
  deriving DecidableEq

/-- An engine without modules. -/
def LoadEngine.empty {α : Type} : LoadEngine α := ⟨fun _ => none, [], 0, false, []⟩

/-- A computation of the engine. -/
abbrev Load (α β : Type) := Stateful (LoadEngine α) Halt β

namespace Load

variable {α : Type}

/-- Write to the log. -/
def record (event : LoadEvent α) : Load α Unit :=
  Stateful.modify fun E => { E with log := E.log ++ [event] }

/-- Go on only where the condition holds, and raise `h` otherwise. -/
def require (h : Halt) (condition : Bool) : Load α Unit :=
  if condition then pure () else Stateful.raise h

/-- Follow the pointer to a module. -/
def deref : Option α → Load α α
  | some m => pure m
  | none => Stateful.raise .crash

variable [DecidableEq α]

/-- The module of a name. -/
def moduleOf (m : α) : Load α (ModuleDef α) := do
  let E ← Stateful.get
  match E.modules m with
  | some d => pure d
  | none => Stateful.raise .crash

/-- Change a module. -/
def update (m : α) (f : ModuleDef α → ModuleDef α) : Load α Unit :=
  Stateful.modify fun E => { E with modules := Function.update E.modules m ((E.modules m).map f) }

/-- `js_create_module_function`. -/
def createFunction : ℕ → Option α → Load α Unit
  | 0, _ => Stateful.raise .outOfFuel
  | n + 1, m => do
    let m ← deref m
    let d ← moduleOf m
    if d.funcCreated then pure ()
    else
      update m fun d => { d with funcCreated := true }
      Stateful.forEach (createFunction n) d.entries

/-! ## Linking -/

/-- Push a module on the stack of the walk. -/
def push (m : α) (status : ModuleStatus) : Load α Unit := do
  let E ← Stateful.get
  update m fun d =>
    { d with status := status, dfsIndex := E.index, dfsAncestorIndex := E.index }
  Stateful.modify fun E => { E with stack := m :: E.stack, index := E.index + 1 }

/-- A module `r` that is still on the stack is in the same component as `m`. -/
def joinAncestor (m r : α) : Load α Unit := do
  let d₁ ← moduleOf r
  update m fun d => { d with dfsAncestorIndex := min d.dfsAncestorIndex d₁.dfsAncestorIndex }

/-- The part of the stack down to `m`. -/
def component (m : α) (stack : List α) : List α :=
  stack.takeWhile (fun a => a ≠ m) ++ [m]

/-- Pop the component of its root `m`, and run `f` on each module. -/
def popComponent (m : α) (f : α → Load α Unit) : Load α Unit := do
  let d ← moduleOf m
  if d.dfsIndex = d.dfsAncestorIndex then
    let E ← Stateful.get
    Stateful.forEach f (component m E.stack)
    Stateful.modify fun E => { E with stack := (E.stack.dropWhile fun a => a ≠ m).tail }
  else pure ()

/-- A module is linked. -/
def setLinked (a : α) : Load α Unit := do
  update a fun d => { d with status := .linked }
  record (.linked a)

/-- `js_inner_module_linking`. -/
def innerModuleLinking : ℕ → Option α → Load α Unit
  | 0, _ => Stateful.raise .outOfFuel
  | n + 1, m => do
    let m ← deref m
    let d ← moduleOf m
    match d.status with
    | .linking | .linked | .evaluatingAsync | .evaluated => pure ()
    | .evaluating => Stateful.raise .crash
    | .unlinked =>
      push m .linking
      Stateful.forEach (fun entry => do
        innerModuleLinking n entry
        let r ← deref entry
        let d₁ ← moduleOf r
        if d₁.status = .linking then joinAncestor m r else pure ()) d.entries
      require .exception d.text.links
      popComponent m setLinked

/-- `js_link_module`. A walk that fails leaves its modules unlinked. -/
def linkModule (n : ℕ) (m : α) : Load α Unit := do
  Stateful.modify fun E => { E with stack := [], index := 0 }
  Stateful.onError (innerModuleLinking n (some m)) fun h => do
    let E ← Stateful.get
    if h = .exception then
      Stateful.forEach (fun a => update a fun d => { d with status := .unlinked }) E.stack
    else pure ()
    Stateful.raise h

/-! ## Evaluation -/

/-- The body of a module starts. One that awaits goes on later. -/
def executeModule (m : α) (text : ModuleText α) : Load α Unit := do
  if text.hasTla then
    update m fun d => { d with asyncEvaluation := true }
    record (.ran m)
  else
    record (.ran m)
    require .exception (!text.throws)

/-- A module is evaluated, as a member of the component of `root`. -/
def setEvaluated (root a : α) : Load α Unit :=
  update a fun d =>
    { d with
      status := if d.asyncEvaluation then .evaluatingAsync else .evaluated
      cycleRoot := some root }

/-- `js_inner_module_evaluation`. -/
def innerModuleEvaluation : ℕ → Option α → Load α Unit
  | 0, _ => Stateful.raise .outOfFuel
  | n + 1, m => do
    let m ← deref m
    let d ← moduleOf m
    match d.status with
    | .evaluatingAsync | .evaluated => require .exception (!d.evalHasException)
    | .evaluating => pure ()
    | .unlinked | .linking => Stateful.raise .crash
    | .linked =>
      push m .evaluating
      update m fun d => { d with pendingAsyncDependencies := 0 }
      Stateful.forEach (fun entry => do
        innerModuleEvaluation n entry
        let r ← deref entry
        let d₁ ← moduleOf r
        let d₂ ← if d₁.status = .evaluating then do
            joinAncestor m r
            pure d₁
          else do
            let root ← deref d₁.cycleRoot
            let d₂ ← moduleOf root
            require .exception (!d₂.evalHasException)
            pure d₂
        if d₂.asyncEvaluation then
          update m fun d => { d with pendingAsyncDependencies := d.pendingAsyncDependencies + 1 }
        else pure ()) d.entries
      let d ← moduleOf m
      -- a body with a pending dependency runs after the loading, as a job
      if d.pendingAsyncDependencies > 0 then update m fun d => { d with asyncEvaluation := true }
      else executeModule m d.text
      popComponent m (setEvaluated m)

/-- The module whose promise `js_evaluate_module` returns. -/
def evaluationRoot (m : α) : Load α α := do
  let d ← moduleOf m
  match d.status with
  | .evaluatingAsync | .evaluated => deref d.cycleRoot
  | _ => pure m

/-- `js_evaluate_module`. An exception of a body rejects the promise, which is returned. -/
def evaluateModule (n : ℕ) (m : α) : Load α Unit := do
  let m ← evaluationRoot m
  let d ← moduleOf m
  if d.promise then pure ()
  else
    update m fun d => { d with promise := true }
    Stateful.modify fun E => { E with stack := [], index := 0 }
    Stateful.onError (innerModuleEvaluation n (some m)) fun h => do
      let E ← Stateful.get
      if h = .exception then
        Stateful.forEach (fun a => update a fun d =>
          { d with status := .evaluated, evalHasException := true, cycleRoot := some m }) E.stack
      else Stateful.raise h

/-- `JS_EvalFunction` on a module. -/
def evalFunction (n : ℕ) (m : α) : Load α Unit := do
  createFunction n (some m)
  linkModule n m
  evaluateModule n m

/-! ## Resolution -/

variable (source : α → Option (ModuleText α))

/-- The part of `JS_Eval` that compiles: a text that cannot be found or compiled raises, and a
module whose requests cannot be resolved is freed. -/
def compileModule (resolve : α → Load α Unit) (m : α) : Load α Unit :=
  match source m with
  | none => Stateful.raise .exception
  | some text => do
    Stateful.modify fun E =>
      { E with modules := Function.update E.modules m (some (.compiled text)) }
    record (.loaded m)
    Stateful.onError (resolve m) fun h => do
      if h = .exception then
        Stateful.modify fun E => { E with modules := Function.update E.modules m none }
      else pure ()
      Stateful.raise h

/-- `js_host_resolve_imported_module`. -/
def hostResolve (load : α → Load α Unit) (r : α) : Load α Unit := do
  let E ← Stateful.get
  if (E.modules r).isSome then pure () else load r

mutual

/-- `js_resolve_module`. -/
def resolveModule : ℕ → α → Load α Unit
  | 0, _ => Stateful.raise .outOfFuel
  | n + 1, m => do
    let d ← moduleOf m
    if d.resolved then pure ()
    else
      update m fun d => { d with resolved := true }
      Stateful.forEach (fun r => do
        hostResolve (loadModule n) r
        update m fun d => { d with filled := d.filled ++ [r] }
        resolveModule n r) d.text.requests

/-- `beamjs_module_loader`, whose request the owner answers. The reply is used under the lock. -/
def loadModule : ℕ → α → Load α Unit
  | 0, _ => Stateful.raise .outOfFuel
  | n + 1, m => do
    let E ← Stateful.get
    if E.locked then Stateful.raise .hangs
    else
      Stateful.modify fun E => { E with locked := true }
      Stateful.onError (do
        compileModule source (resolveModule n) m
        evalFunction n m) fun h => do
          if h = .exception then Stateful.modify fun E => { E with locked := false } else pure ()
          Stateful.raise h
      Stateful.modify fun E => { E with locked := false }

end

/-- `JS_Eval` on the entry module. -/
def loadEntry (n : ℕ) (entry : α) : Load α Unit := do
  compileModule source (resolveModule source n) entry
  evalFunction n entry

end Load

/-! ## The order of loads and runs -/

section Order

variable {α : Type} (source : α → Option (ModuleText α))

/-- The module can be found, compiled and linked. -/
def Loadable (m : α) : Prop := ∃ text, source m = some text ∧ text.links = true

/-- The module `b` is reachable from `a` along requests. -/
def Reaches (a b : α) : Prop :=
  Relation.ReflTransGen (fun a b => ∃ text, source a = some text ∧ b ∈ text.requests) a b

/-- Before a body starts, every module reachable from the entry has been loaded and linked; if one
of them cannot be loaded, no body starts; and no body starts twice. -/
structure GraphFirst (entry : α) [DecidableEq α] (log : List (LoadEvent α)) : Prop where
  complete : ∀ before m after, log = before ++ .ran m :: after → ∀ a, Reaches source entry a →
    .loaded a ∈ before ∧ .linked a ∈ before
  noEffect : (∃ a, Reaches source entry a ∧ ¬ Loadable source a) → ∀ m, .ran m ∉ log
  once : ∀ m, log.count (.ran m) ≤ 1

/-- The module can be found, compiled and linked, and requests no module but itself. -/
def RunsAlone (m : α) : Prop :=
  ∃ text, source m = some text ∧ text.links = true ∧ ∀ r ∈ text.requests, r = m

/-- The first module other than itself that the entry requests runs alone. -/
def RunsEarly (entry : α) [DecidableEq α] : Prop :=
  ∃ text first, source entry = some text ∧
    text.requests.find? (fun r => decide (r ≠ entry)) = some first ∧ RunsAlone source first

end Order

end BeamJS
