import BeamJS.Core.SupervisorBridge

/-!
# Supervisors and their children

`BeamjsCore.SupervisorBridge` as a whole: `start_link` with its `init`, and the supervisors that OTP
starts in turn for the child specs of nested supervisors. `System.unique_integer([:positive])` is a
supply with a number for every place in the tree of specs; a path lists the positions among the
siblings from the root on.
-/

namespace BeamJS

open Lib Transpiler

/-- The options of `Supervisor.init`. -/
structure SupervisorFlags where
  strategy : String
  maxRestarts : Term
  maxSeconds : Term

mutual

/-- What `start_link` comes to, with the key of the supervisor in the process registry. -/
inductive SupervisorTree where
  /-- `init` raised. -/
  | failed (name : Option Bytes) (reason : Term)
  | started (name : Option Bytes) (flags : SupervisorFlags) (children : List ChildTree)

/-- A child spec, with what its start function comes to for a supervisor. -/
inductive ChildTree where
  | worker (id : Term) (start : ChildStart) (restart : String) (shutdown : Term)
  | supervisor (id : Term) (restart : String) (tree : SupervisorTree)

end

/-- The id in the child spec. -/
def ChildTree.id : ChildTree → Term
  | .worker id _ _ _ => id
  | .supervisor id _ _ => id

/-- The spec of the child has the type of a supervisor. -/
def isSupervisor (spec : Term) : Bool := toChildSpec.isSupervisor spec

namespace SupervisorBridge

/-- `via_name`: the key of the supervisor in the process registry. -/
def viaName (spec : Term) : Option Bytes :=
  match spec.get? "name" with
  | some (.binary name) => some (bytes "sup:" ++ name)
  | _ => none

/-- `map_strategy`. -/
def mapStrategy : Option Term → String
  | some (.binary b) =>
    if b = bytes "one_for_all" then "one_for_all" else if b = bytes "rest_for_one" then "rest_for_one"
    else "one_for_one"
  | _ => "one_for_one"

/-- The elements that `Enum.map` goes over. -/
def elements : Term → Except Term (List Term)
  | .list elems => .ok elems
  | .map entries => .ok (entries.map fun e => .tuple [e.1, e.2])
  | t => .error (.tuple [.atom "protocol_undefined", t])

section Init

variable {W : Type} (sys : Otp W) (t : CharTables)

/-- `to_child_spec` for every child. The supply has the unique integer of each. -/
def childSpecs (fresh : ℕ → ℤ) (baseDir : Bytes) : List Term → Except Term (List ChildSpec)
  | [] => .ok []
  | spec :: specs => do
    let child ← toChildSpec sys t (fresh 0) baseDir spec
    let children ← childSpecs (fun i => fresh (i + 1)) baseDir specs
    return child :: children

/-- `init`: the options and the child specs that it gives to `Supervisor.init`. -/
def init (fresh : ℕ → ℤ) (baseDir : Bytes) (spec : Term) :
    Except Term (SupervisorFlags × List ChildSpec) := do
  if !isAccessible spec then .error (.atom "undef")
  else
    let children ← childSpecs sys t fresh baseDir
      (← elements (Term.orElse (spec.get? "children") (.list [])))
    return (⟨mapStrategy (spec.get? "strategy"), Term.orElse (spec.get? "maxRestarts") (.int 3),
      Term.orElse (spec.get? "maxSeconds") (.int 5)⟩, children)

/-- The source in the child spec of a process. -/
def workerSource (spec : Term) : Except Term Term :=
  match spec.get? "source" with
  | some source => if source.truthy then .ok source else buildSource sys t spec
  | none => buildSource sys t spec

/-- The filename in the child spec of a process. -/
def workerFilename (id spec : Term) : Except Term Term :=
  match spec.get? "filename" with
  | some filename => if filename.truthy then .ok filename else toChildSpec.childName sys id
  | none => toChildSpec.childName sys id

theorem worker_eq (baseDir : Bytes) (spec id : Term) (restart : String) :
    toChildSpec.worker sys t baseDir spec id restart = do
      let source ← workerSource sys t spec
      let filename ← workerFilename sys id spec
      return .worker id ⟨source, filename, baseDir, (spec.get? "name").getD .null⟩ restart
        (Term.orElse (spec.get? "shutdown") (.int 5000)) := by
  unfold toChildSpec.worker workerSource workerFilename
  cases spec.get? "source" with
  | none =>
    cases spec.get? "filename" with
    | none => rfl
    | some filename => by_cases hf : filename.truthy = true <;> simp [hf]
  | some source =>
    by_cases hs : source.truthy = true
    · cases spec.get? "filename" with
      | none => simp [hs]
      | some filename => by_cases hf : filename.truthy = true <;> simp [hs, hf]
    · cases spec.get? "filename" with
      | none => simp [hs]
      | some filename => by_cases hf : filename.truthy = true <;> simp [hs, hf]

/-! ## Nested specs are smaller -/

/-- The size of the specs in child specs. -/
noncomputable def nestedSize : List ChildSpec → ℕ
  | [] => 0
  | .supervisor _ spec _ _ :: children => 1 + sizeOf spec + nestedSize children
  | .worker _ _ _ _ :: children => 1 + nestedSize children

variable {sys t}

/-- What a child spec is made of. -/
theorem toChildSpec_eq_ok {fresh : ℤ} {baseDir : Bytes} {spec : Term} {child : ChildSpec}
    (h : toChildSpec sys t fresh baseDir spec = .ok child) : isAccessible spec = true ∧
      if isSupervisor spec then
        child = .supervisor (Term.orElse (spec.get? "id") (.int fresh)) spec baseDir
          (mapRestart (spec.get? "restart"))
      else toChildSpec.worker sys t baseDir spec (Term.orElse (spec.get? "id") (.int fresh))
        (mapRestart (spec.get? "restart")) = .ok child := by
  simp only [toChildSpec] at h
  split_ifs at h with hacc hsup
  · refine ⟨by simpa using hacc, ?_⟩
    rw [isSupervisor, if_pos hsup]
    cases h
    rfl
  · refine ⟨by simpa using hacc, ?_⟩
    rw [isSupervisor, if_neg hsup]
    exact h

theorem nestedSize_childSpecs {fresh : ℕ → ℤ} {baseDir : Bytes} {specs : List Term}
    {children : List ChildSpec} (h : childSpecs sys t fresh baseDir specs = .ok children) :
    nestedSize children ≤ sizeOf specs := by
  induction specs generalizing fresh children with
  | nil =>
    cases h
    simp [nestedSize]
  | cons spec specs ih =>
    obtain ⟨child, hchild, h⟩ := bind_eq_ok.mp h
    obtain ⟨rest, hrest, h⟩ := bind_eq_ok.mp h
    cases h
    have hle := ih hrest
    obtain ⟨-, hchild⟩ := toChildSpec_eq_ok hchild
    split_ifs at hchild with hsup
    · subst hchild
      simp only [nestedSize, List.cons.sizeOf_spec]
      omega
    · rw [worker_eq] at hchild
      obtain ⟨source, -, hchild⟩ := bind_eq_ok.mp hchild
      obtain ⟨filename, -, hchild⟩ := bind_eq_ok.mp hchild
      cases hchild
      simp only [nestedSize, List.cons.sizeOf_spec]
      omega

/-- What is under a key of a term is a part of it. -/
theorem sizeOf_get? {spec value : Term} {key : String} (h : spec.get? key = some value) :
    sizeOf value < sizeOf spec := by
  cases spec with
  | map entries =>
    obtain ⟨e, he, hvalue⟩ := List.exists_of_findSome?_eq_some h
    have hentry := List.sizeOf_lt_of_mem he
    obtain ⟨k, v⟩ := e
    simp only [Prod.mk.sizeOf_spec] at hentry
    split at hvalue
    · split_ifs at hvalue
      cases hvalue
      simp only [Term.map.sizeOf_spec]
      omega
    · cases hvalue
  | _ => cases h

/-- The children that are given in a list are smaller than their spec. -/
theorem sizeOf_elements {spec : Term} {specs : List Term}
    (h : Term.orElse (spec.get? "children") (.list []) = .list specs) :
    sizeOf specs < sizeOf spec ∨ specs = [] := by
  cases hgiven : spec.get? "children" with
  | none =>
    rw [hgiven] at h
    cases h
    exact .inr rfl
  | some given =>
    have hlt := sizeOf_get? hgiven
    rw [hgiven, Term.orElse] at h
    split_ifs at h
    · subst h
      simp only [Term.list.sizeOf_spec] at hlt
      exact .inl (by omega)
    · cases h
      exact .inr rfl

/-- The specs of nested supervisors are smaller than the spec that they come from. -/
theorem nestedSize_init {fresh : ℕ → ℤ} {baseDir : Bytes} {spec : Term} {flags : SupervisorFlags}
    {children : List ChildSpec} (h : init sys t fresh baseDir spec = .ok (flags, children)) :
    nestedSize children < sizeOf spec := by
  have hpos : 0 < sizeOf spec := by cases spec <;> simp
  rw [init] at h
  split_ifs at h
  obtain ⟨specs, hspecs, h⟩ := bind_eq_ok.mp h
  obtain ⟨children', hchildren, h⟩ := bind_eq_ok.mp h
  cases h
  generalize hgiven : Term.orElse (spec.get? "children") (.list []) = given at hspecs
  cases given with
  | list elems =>
    cases hspecs
    rcases sizeOf_elements hgiven with hlt | rfl
    · exact (nestedSize_childSpecs hchildren).trans_lt hlt
    · cases hchildren
      exact hpos
  | map entries =>
    cases hspecs
    cases entries with
    | nil =>
      cases hchildren
      exact hpos
    | cons e entries =>
      -- an entry of a map is no spec
      obtain ⟨child, hchild, -⟩ := bind_eq_ok.mp hchildren
      obtain ⟨hacc, -⟩ := toChildSpec_eq_ok hchild
      cases hacc
  | _ => cases hspecs

variable (sys t)

mutual

/-- `start_link`. OTP starts the children of the supervisor from their specs. -/
def startLink (fresh : List ℕ → ℤ) (baseDir : Bytes) (spec : Term) : SupervisorTree :=
  match _h : init sys t (fun i => fresh [i]) baseDir spec with
  | .error reason => .failed (viaName spec) reason
  | .ok (flags, children) =>
    .started (viaName spec) flags (startChildren (fun i path => fresh (i :: path)) children)
termination_by sizeOf spec
decreasing_by exact nestedSize_init _h

/-- The start functions of child specs, where the supply of a child is for the places under it. -/
def startChildren (fresh : ℕ → List ℕ → ℤ) : List ChildSpec → List ChildTree
  | [] => []
  | .worker id start restart shutdown :: children =>
    .worker id start restart shutdown :: startChildren (fun i => fresh (i + 1)) children
  | .supervisor id spec baseDir restart :: children =>
    .supervisor id restart (startLink (fresh 0) baseDir spec) ::
      startChildren (fun i => fresh (i + 1)) children
termination_by children => nestedSize children
decreasing_by all_goals simp only [nestedSize]; omega

end

variable {sys t}

@[simp] theorem startChildren_nil (fresh : ℕ → List ℕ → ℤ) :
    startChildren sys t fresh [] = [] := by
  rw [startChildren]

@[simp] theorem startChildren_worker (fresh : ℕ → List ℕ → ℤ) (id : Term) (start : ChildStart)
    (restart : String) (shutdown : Term) (children : List ChildSpec) :
    startChildren sys t fresh (.worker id start restart shutdown :: children) =
      .worker id start restart shutdown ::
        startChildren sys t (fun i => fresh (i + 1)) children := by
  rw [startChildren]

@[simp] theorem startChildren_supervisor (fresh : ℕ → List ℕ → ℤ) (id spec : Term)
    (baseDir : Bytes) (restart : String) (children : List ChildSpec) :
    startChildren sys t fresh (.supervisor id spec baseDir restart :: children) =
      .supervisor id restart (startLink sys t (fresh 0) baseDir spec) ::
        startChildren sys t (fun i => fresh (i + 1)) children := by
  rw [startChildren]

theorem startLink_of_ok {fresh : List ℕ → ℤ} {baseDir : Bytes} {spec : Term}
    {flags : SupervisorFlags} {children : List ChildSpec}
    (h : init sys t (fun i => fresh [i]) baseDir spec = .ok (flags, children)) :
    startLink sys t fresh baseDir spec =
      .started (viaName spec) flags
        (startChildren sys t (fun i path => fresh (i :: path)) children) := by
  rw [startLink]
  split
  · rename_i reason herror
    rw [h] at herror
    cases herror
  · rename_i flags' children' hok
    rw [h] at hok
    cases hok
    rfl

theorem startLink_of_error {fresh : List ℕ → ℤ} {baseDir : Bytes} {spec reason : Term}
    (h : init sys t (fun i => fresh [i]) baseDir spec = .error reason) :
    startLink sys t fresh baseDir spec = .failed (viaName spec) reason := by
  rw [startLink]
  split
  · rename_i reason' herror
    rw [h] at herror
    cases herror
    rfl
  · rename_i flags children hok
    rw [h] at hok
    cases hok

end Init

end SupervisorBridge

/-! ## Trees of specs -/

section Specs

/-- The specs of the children in the spec of a supervisor. -/
def childrenOf (spec : Term) : List Term :=
  match spec.get? "children" with
  | some (.list specs) => specs
  | _ => []

/-- An id that is a string, an integer or absent. -/
def IsId : Option Term → Prop
  | none | some (.binary _) | some (.int _) => True
  | _ => False

/-- The ids that the children have in the spec of a supervisor. -/
def explicitIds (spec : Term) : List Term := (childrenOf spec).filterMap (Term.get? "id")

/-- A spec of a supervisor, down to those of the last nested one: the specs are maps, and the ids of
siblings are distinct where they are given. -/
inductive SupervisorSpec : Term → Prop where
  | node {spec : Term} (isMap : ∃ entries, spec = .map entries)
      (listed : spec.get? "children" = none ∨ spec.get? "children" = some (.list (childrenOf spec)))
      (maps : ∀ child ∈ childrenOf spec, ∃ entries, child = .map entries)
      (ids : ∀ child ∈ childrenOf spec, IsId (child.get? "id"))
      (distinct : (explicitIds spec).Nodup)
      (nested : ∀ child ∈ childrenOf spec, isSupervisor child = true → SupervisorSpec child) :
      SupervisorSpec spec

/-- The numbers that `System.unique_integer([:positive])` returns, with a place in a tree for each.
-/
structure FreshIds where
  value : List ℕ → ℤ
  injective : Function.Injective value
  positive : ∀ path, 0 < value path

/-- String interpolation of binaries and integers. -/
structure Interpolates {W : Type} (sys : Otp W) : Prop where
  binary : ∀ b, sys.interpolate (.binary b) = .ok b
  int : ∀ n, sys.interpolate (.int n) = .ok (bytes (toString n))

/-! ## The tree of supervisors -/

/-- The setting that is given by its name, or the default for anything that is not a name. -/
def IsSetting (names : List String) (default : String) (given : Option Term) (setting : String) :
    Prop :=
  (setting ∈ names ∧ given = some (.binary (bytes setting))) ∨
  (setting = default ∧ ∀ name ∈ names, given ≠ some (.binary (bytes name)))

/-- The restart setting of a child. -/
def IsRestart : Option Term → String → Prop :=
  IsSetting ["permanent", "temporary", "transient"] "permanent"

/-- The options of a supervisor are those of its spec. -/
structure FlagsOf (spec : Term) (flags : SupervisorFlags) : Prop where
  strategy : IsSetting ["one_for_one", "one_for_all", "rest_for_one"] "one_for_one"
    (spec.get? "strategy") flags.strategy
  maxRestarts : flags.maxRestarts = Term.orElse (spec.get? "maxRestarts") (.int 3)
  maxSeconds : flags.maxSeconds = Term.orElse (spec.get? "maxSeconds") (.int 5)

mutual

/-- The supervisor has the options of its spec and a child for every child of the spec, in the same
order, down to the last nested one, and the ids of its children are distinct. -/
def SupervisorTree.Mirrors (spec : Term) : SupervisorTree → Prop
  | .failed _ _ => False
  | .started _ flags children => FlagsOf spec flags ∧ (children.map ChildTree.id).Nodup ∧
      ChildTree.AllMirror (childrenOf spec) children

/-- The child is of the kind of its spec and has its id, if it is given, and its restart setting. -/
def ChildTree.Mirrors (spec : Term) : ChildTree → Prop
  | .worker id _ restart _ => isSupervisor spec = false ∧ (∀ given ∈ spec.get? "id", id = given) ∧
      IsRestart (spec.get? "restart") restart
  | .supervisor id restart tree => isSupervisor spec = true ∧
      (∀ given ∈ spec.get? "id", id = given) ∧ IsRestart (spec.get? "restart") restart ∧
      tree.Mirrors spec

/-- The children and the specs correspond one by one. -/
def ChildTree.AllMirror : List Term → List ChildTree → Prop
  | [], [] => True
  | spec :: specs, child :: children => child.Mirrors spec ∧ ChildTree.AllMirror specs children
  | _, _ => False

end

/-! ## When they correspond -/

variable {W : Type} (sys : Otp W)

/-- The source of a worker can be built: it is given, or it is not built from a module, or the
module is a string and Jason encodes the arguments. -/
def Buildable (spec : Term) : Prop :=
  (∃ source, spec.get? "source" = some source ∧ source.truthy = true) ∨
  spec.get? "module" = none ∨ spec.get? "args" = none ∨
  ∃ m args json, spec.get? "module" = some (.binary m) ∧ spec.get? "args" = some args ∧
    sys.jsonEncode (Term.orElse (some args) (sys.maps.toMap [])) = .ok json

/-- At every supervisor of the tree, the number generated for a child without an id is not the id of
another child, and the source of every worker can be built. -/
inductive Translatable : (List ℕ → ℤ) → Term → Prop where
  | node {fresh : List ℕ → ℤ} {spec : Term}
      (ids : ∀ (i : ℕ) (child : Term), (childrenOf spec)[i]? = some child →
        child.get? "id" = none → .int (fresh [i]) ∉ explicitIds spec)
      (workers : ∀ child ∈ childrenOf spec, isSupervisor child = false → Buildable sys child)
      (nested : ∀ (i : ℕ) (child : Term), (childrenOf spec)[i]? = some child →
        isSupervisor child = true → Translatable (fun path => fresh (i :: path)) child) :
      Translatable fresh spec

end Specs

end BeamJS
