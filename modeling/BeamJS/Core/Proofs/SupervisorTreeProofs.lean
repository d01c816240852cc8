import BeamJS.Core.SupervisorTree
import BeamJS.Lib.Supply
import Mathlib.Logic.Equiv.List

/-!
# Proofs: supervisors and their children

When the tree of supervisors corresponds to the tree of specs that it comes from.
-/

namespace BeamJS

open Lib Transpiler SupervisorBridge

/-! ## The settings -/

theorem isSetting_mapStrategy (given : Option Term) :
    IsSetting ["one_for_one", "one_for_all", "rest_for_one"] "one_for_one" given
      (mapStrategy given) := by
  unfold mapStrategy
  split
  · rename_i b
    split_ifs with hall hrest
    · exact .inl ⟨by decide, by rw [hall]⟩
    · exact .inl ⟨by decide, by rw [hrest]⟩
    · by_cases hone : b = bytes "one_for_one"
      · exact .inl ⟨by decide, by rw [hone]⟩
      · refine .inr ⟨rfl, ?_⟩
        simp [hone, hall, hrest]
  · rename_i hbinary
    exact .inr ⟨rfl, fun name _ h => hbinary _ h⟩

theorem isRestart_mapRestart (given : Option Term) : IsRestart given (mapRestart given) := by
  unfold mapRestart
  split
  · rename_i b
    split_ifs with htemporary htransient
    · exact .inl ⟨by decide, by rw [htemporary]⟩
    · exact .inl ⟨by decide, by rw [htransient]⟩
    · by_cases hpermanent : b = bytes "permanent"
      · exact .inl ⟨by decide, by rw [hpermanent]⟩
      · refine .inr ⟨rfl, ?_⟩
        simp [hpermanent, htemporary, htransient]
  · rename_i hbinary
    exact .inr ⟨rfl, fun name _ h => hbinary _ h⟩

/-! ## The tree, spec by spec -/

section BySpec

variable {W : Type} (sys : Otp W) (t : CharTables)

/-- What the start function of a child spec comes to. -/
def ChildSpec.started (fresh : List ℕ → ℤ) : ChildSpec → ChildTree
  | .worker id start restart shutdown => .worker id start restart shutdown
  | .supervisor id spec baseDir restart =>
    .supervisor id restart (startLink sys t fresh baseDir spec)

/-- What a spec among the children comes to. -/
def childTree (fresh : List ℕ → ℤ) (baseDir : Bytes) (spec : Term) : Except Term ChildTree :=
  (toChildSpec sys t (fresh []) baseDir spec).map (ChildSpec.started sys t fresh)

/-- What the specs of all children come to. -/
def childTrees (fresh : ℕ → List ℕ → ℤ) (baseDir : Bytes) : List Term → Except Term (List ChildTree)
  | [] => .ok []
  | spec :: specs => do
    let child ← childTree sys t (fresh 0) baseDir spec
    let children ← childTrees (fun i => fresh (i + 1)) baseDir specs
    return child :: children

variable {sys t}

theorem startChildren_cons (fresh : ℕ → List ℕ → ℤ) (child : ChildSpec)
    (children : List ChildSpec) : startChildren sys t fresh (child :: children) =
      child.started sys t (fresh 0) :: startChildren sys t (fun i => fresh (i + 1)) children := by
  cases child with
  | worker id start restart shutdown => exact startChildren_worker ..
  | supervisor id spec baseDir restart => exact startChildren_supervisor ..

/-- The child specs of a supervisor are all made before the first child is started. -/
theorem map_startChildren (fresh : ℕ → List ℕ → ℤ) (baseDir : Bytes) (specs : List Term) :
    (childSpecs sys t (fun i => fresh i []) baseDir specs).map (startChildren sys t fresh) =
      childTrees sys t fresh baseDir specs := by
  induction specs generalizing fresh with
  | nil =>
    rw [childSpecs, Except.map, startChildren_nil]
    rfl
  | cons spec specs ih =>
    rw [childSpecs, childTrees, childTree, ← ih]
    cases toChildSpec sys t (fresh 0 []) baseDir spec with
    | error reason => rfl
    | ok child =>
      cases childSpecs sys t (fun i => fresh (i + 1) []) baseDir specs with
      | error reason => rfl
      | ok children => exact congrArg Except.ok (startChildren_cons fresh child children)

theorem childTree_of_not_accessible (fresh : List ℕ → ℤ) (baseDir : Bytes) {spec : Term}
    (h : isAccessible spec = false) :
    childTree sys t fresh baseDir spec = .error (.atom "undef") := by
  simp [childTree, toChildSpec, h, Except.map]

theorem childTree_supervisor (fresh : List ℕ → ℤ) (baseDir : Bytes) {spec : Term}
    (h : isAccessible spec = true) (hkind : isSupervisor spec = true) :
    childTree sys t fresh baseDir spec =
      .ok (.supervisor (Term.orElse (spec.get? "id") (.int (fresh [])))
        (mapRestart (spec.get? "restart")) (startLink sys t fresh baseDir spec)) := by
  rw [isSupervisor] at hkind
  simp [childTree, toChildSpec, h, hkind, Except.map, ChildSpec.started]

theorem childTree_worker (fresh : List ℕ → ℤ) (baseDir : Bytes) {spec : Term}
    (h : isAccessible spec = true) (hkind : isSupervisor spec = false) :
    childTree sys t fresh baseDir spec = do
      let source ← workerSource sys t spec
      let filename ← workerFilename sys (Term.orElse (spec.get? "id") (.int (fresh []))) spec
      return .worker (Term.orElse (spec.get? "id") (.int (fresh [])))
        ⟨source, filename, baseDir, (spec.get? "name").getD .null⟩
        (mapRestart (spec.get? "restart")) (Term.orElse (spec.get? "shutdown") (.int 5000)) := by
  rw [isSupervisor] at hkind
  simp only [childTree, toChildSpec, h, hkind, Bool.not_true, Bool.false_eq_true, if_false,
    worker_eq]
  cases workerSource sys t spec with
  | error reason => rfl
  | ok source =>
    cases workerFilename sys (Term.orElse (spec.get? "id") (.int (fresh []))) spec with
    | error reason => rfl
    | ok filename => rfl

/-- The flags that `init` takes from a spec. -/
def flagsOf (spec : Term) : SupervisorFlags :=
  ⟨mapStrategy (spec.get? "strategy"), Term.orElse (spec.get? "maxRestarts") (.int 3),
    Term.orElse (spec.get? "maxSeconds") (.int 5)⟩

/-- `start_link` by the specs of the children. -/
theorem startLink_eq (fresh : List ℕ → ℤ) (baseDir : Bytes) (spec : Term) :
    startLink sys t fresh baseDir spec =
      if !isAccessible spec then .failed (SupervisorBridge.viaName spec) (.atom "undef")
      else match (do
        let specs ← elements (Term.orElse (spec.get? "children") (.list []))
        childTrees sys t (fun i path => fresh (i :: path)) baseDir specs) with
      | .error reason => .failed (SupervisorBridge.viaName spec) reason
      | .ok children => .started (SupervisorBridge.viaName spec) (flagsOf spec) children := by
  split_ifs with hacc
  · exact startLink_of_error (by rw [SupervisorBridge.init, if_pos hacc])
  · cases hspecs : elements (Term.orElse (spec.get? "children") (.list [])) with
    | error reason =>
      refine startLink_of_error ?_
      rw [SupervisorBridge.init, if_neg hacc, hspecs]
      rfl
    | ok specs =>
      simp only [bind, Except.bind]
      rw [← map_startChildren]
      cases hchildren : childSpecs sys t (fun i => fresh [i]) baseDir specs with
      | error reason =>
        refine startLink_of_error ?_
        rw [SupervisorBridge.init, if_neg hacc, hspecs]
        simp [bind, Except.bind, hchildren]
      | ok children =>
        refine startLink_of_ok ?_
        rw [SupervisorBridge.init, if_neg hacc, hspecs]
        simp [bind, Except.bind, hchildren]
        rfl

end BySpec

/-! ## One child -/

section Child

variable {W : Type} {sys : Otp W} {t : CharTables} {spec : Term}

/-- A source is built from a module and arguments, and nothing but a string is a module. -/
theorem buildSource_eq : buildSource sys t spec =
    match spec.get? "module", spec.get? "args" with
    | some module, some args =>
      match module with
      | .binary m => do
        let json ← sys.jsonEncode (Term.orElse (some args) (sys.maps.toMap []))
        return .binary (supervisedSource (extractClassName t m) m json)
      | _ => .error (.atom "function_clause")
    | _, _ => .ok ((spec.get? "source").getD (.binary [])) := by
  unfold buildSource
  cases spec.get? "module" with
  | none => cases spec.get? "args" <;> cases spec.get? "source" <;> rfl
  | some module =>
    cases spec.get? "args" with
    | none => cases module <;> cases spec.get? "source" <;> rfl
    | some args => cases module <;> rfl

theorem buildSource_ok_iff : (∃ source, buildSource sys t spec = .ok source) ↔
    spec.get? "module" = none ∨ spec.get? "args" = none ∨
    ∃ m args json, spec.get? "module" = some (.binary m) ∧ spec.get? "args" = some args ∧
      sys.jsonEncode (Term.orElse (some args) (sys.maps.toMap [])) = .ok json := by
  rw [buildSource_eq]
  cases hm : spec.get? "module" with
  | none => exact ⟨fun _ => .inl rfl, fun _ => ⟨_, rfl⟩⟩
  | some module =>
    cases hargs : spec.get? "args" with
    | none => exact ⟨fun _ => .inr (.inl rfl), fun _ => ⟨_, rfl⟩⟩
    | some args =>
      cases module with
      | binary m =>
        constructor
        · rintro ⟨source, h⟩
          obtain ⟨json, hjson, -⟩ := bind_eq_ok.mp h
          exact .inr (.inr ⟨m, args, json, rfl, rfl, hjson⟩)
        · rintro (h | h | ⟨m', args', json, hm', hargs', hjson⟩)
          · cases h
          · cases h
          · cases hm'
            cases hargs'
            exact ⟨_, bind_eq_ok.mpr ⟨json, hjson, rfl⟩⟩
      | _ =>
        constructor
        · rintro ⟨source, h⟩
          cases h
        · rintro (h | h | ⟨m', args', json, hm', -⟩)
          · cases h
          · cases h
          · cases hm'

theorem buildable_iff : Buildable sys spec ↔ ∃ source, workerSource sys t spec = .ok source := by
  unfold Buildable workerSource
  rw [← buildSource_ok_iff (t := t)]
  cases hsource : spec.get? "source" with
  | none => simp
  | some source =>
    by_cases htrue : source.truthy = true
    · simp [htrue]
    · simp [htrue]

/-- Strings and integers can be part of a filename. -/
theorem workerFilename_ok (hsys : Interpolates sys) (fresh : ℤ) (hid : IsId (spec.get? "id")) :
    ∃ filename, workerFilename sys (Term.orElse (spec.get? "id") (.int fresh)) spec = .ok filename := by
  have hname : ∃ name, toChildSpec.childName sys (Term.orElse (spec.get? "id") (.int fresh)) =
      .ok name := by
    unfold toChildSpec.childName
    cases hgiven : spec.get? "id" with
    | none => exact ⟨_, bind_eq_ok.mpr ⟨_, hsys.int fresh, rfl⟩⟩
    | some id =>
      rw [hgiven] at hid
      cases id with
      | binary b => exact ⟨_, bind_eq_ok.mpr ⟨b, hsys.binary b, rfl⟩⟩
      | int n => exact ⟨_, bind_eq_ok.mpr ⟨_, hsys.int n, rfl⟩⟩
      | _ => cases hid
  unfold workerFilename
  cases spec.get? "filename" with
  | none => exact hname
  | some filename =>
    by_cases htrue : filename.truthy = true
    · exact ⟨filename, by simp [htrue]⟩
    · simpa [htrue] using hname

/-- The id of a child spec is the one that is given, or the generated one. -/
theorem orElse_id {fresh : ℤ} (hid : IsId (spec.get? "id")) :
    Term.orElse (spec.get? "id") (.int fresh) = (spec.get? "id").getD (.int fresh) := by
  cases hgiven : spec.get? "id" with
  | none => rfl
  | some id =>
    rw [hgiven] at hid
    cases id <;> first | rfl | cases hid

/-- A worker comes to a child only if its source can be built. -/
theorem buildable_of_childTree {fresh : List ℕ → ℤ} {baseDir : Bytes} {child : ChildTree}
    (h : childTree sys t fresh baseDir spec = .ok child) (hkind : isSupervisor spec = false) :
    Buildable sys spec := by
  cases hacc : isAccessible spec with
  | false =>
    rw [childTree_of_not_accessible fresh baseDir hacc] at h
    cases h
  | true =>
    rw [childTree_worker fresh baseDir hacc hkind] at h
    obtain ⟨source, hsource, -⟩ := bind_eq_ok.mp h
    exact buildable_iff.mpr ⟨source, hsource⟩

/-- What a spec comes to, where a worker can be built. -/
theorem childTree_ok (hsys : Interpolates sys) (baseDir : Bytes) (fresh : List ℕ → ℤ)
    (hmap : ∃ entries, spec = .map entries) (hid : IsId (spec.get? "id"))
    (hbuild : isSupervisor spec = false → Buildable sys spec) :
    ∃ child, childTree sys t fresh baseDir spec = .ok child ∧
      child.id = (spec.get? "id").getD (.int (fresh [])) ∧
      (child.Mirrors spec ↔
        (isSupervisor spec = true → (startLink sys t fresh baseDir spec).Mirrors spec)) := by
  have hgiven : ∀ given ∈ spec.get? "id", (spec.get? "id").getD (.int (fresh [])) = given := by
    intro given h
    rw [Option.mem_def.mp h]
    rfl
  have hrestart := isRestart_mapRestart (spec.get? "restart")
  have hacc : isAccessible spec = true := by
    obtain ⟨entries, rfl⟩ := hmap
    rfl
  cases hkind : isSupervisor spec with
  | true =>
    refine ⟨_, childTree_supervisor fresh baseDir hacc hkind, orElse_id hid, ?_⟩
    rw [ChildTree.Mirrors, orElse_id hid]
    exact ⟨fun h _ => h.2.2.2, fun h => ⟨hkind, hgiven, hrestart, h rfl⟩⟩
  | false =>
    obtain ⟨source, hsource⟩ := (buildable_iff (t := t)).mp (hbuild hkind)
    obtain ⟨filename, hfilename⟩ := workerFilename_ok hsys (fresh []) hid
    rw [childTree_worker fresh baseDir hacc hkind, hsource, hfilename, orElse_id hid]
    refine ⟨_, rfl, rfl, ?_⟩
    rw [ChildTree.Mirrors]
    exact ⟨fun _ h => Bool.noConfusion h, fun _ => ⟨hkind, hgiven, hrestart⟩⟩

end Child

/-! ## The children of a supervisor -/

section Children

variable {W : Type} {sys : Otp W} {t : CharTables} {specs : List Term}

theorem buildable_of_childTrees {baseDir : Bytes} {fresh : ℕ → List ℕ → ℤ}
    {children : List ChildTree} (h : childTrees sys t fresh baseDir specs = .ok children) :
    ∀ spec ∈ specs, isSupervisor spec = false → Buildable sys spec := by
  induction specs generalizing fresh children with
  | nil => simp
  | cons spec specs ih =>
    obtain ⟨child, hchild, h⟩ := bind_eq_ok.mp h
    obtain ⟨rest, hrest, -⟩ := bind_eq_ok.mp h
    exact List.forall_mem_cons.mpr ⟨buildable_of_childTree hchild, ih hrest⟩

/-- The children have the given ids and generated ones, and they mirror the specs if the nested
supervisors do. -/
theorem childTrees_ok (hsys : Interpolates sys) (baseDir : Bytes) (fresh : ℕ → List ℕ → ℤ)
    (hmaps : ∀ spec ∈ specs, ∃ entries, spec = .map entries)
    (hids : ∀ spec ∈ specs, IsId (spec.get? "id"))
    (hbuild : ∀ spec ∈ specs, isSupervisor spec = false → Buildable sys spec) :
    ∃ children, childTrees sys t fresh baseDir specs = .ok children ∧
      children.map ChildTree.id =
        fill (fun i => Term.int (fresh i [])) (specs.map (Term.get? "id")) ∧
      (ChildTree.AllMirror specs children ↔
        ∀ (i : ℕ) (spec : Term), specs[i]? = some spec → isSupervisor spec = true →
          (startLink sys t (fresh i) baseDir spec).Mirrors spec) := by
  induction specs generalizing fresh with
  | nil =>
    refine ⟨[], rfl, rfl, ?_⟩
    rw [ChildTree.AllMirror]
    simp
  | cons spec specs ih =>
    obtain ⟨hmap, hmaps⟩ := List.forall_mem_cons.mp hmaps
    obtain ⟨hid, hids⟩ := List.forall_mem_cons.mp hids
    obtain ⟨hfirst, hbuild⟩ := List.forall_mem_cons.mp hbuild
    obtain ⟨child, hchild, hlabel, hmirror⟩ := childTree_ok (t := t) hsys baseDir (fresh 0)
      hmap hid hfirst
    obtain ⟨children, hchildren, hlabels, hmirrors⟩ :=
      ih (fun i => fresh (i + 1)) hmaps hids hbuild
    refine ⟨child :: children,
      bind_eq_ok.mpr ⟨child, hchild, bind_eq_ok.mpr ⟨children, hchildren, rfl⟩⟩, ?_, ?_⟩
    · rw [List.map_cons, List.map_cons, fill, hlabel, hlabels]
    · rw [ChildTree.AllMirror, hmirror, hmirrors]
      constructor
      · rintro ⟨hhead, htail⟩ i spec' hi
        cases i with
        | zero =>
          obtain rfl : spec = spec' := by simpa using hi
          exact hhead
        | succ i => exact htail i spec' (by simpa using hi)
      · exact fun h => ⟨h 0 spec rfl, fun i spec' hi => h (i + 1) spec' (by simpa using hi)⟩

end Children

/-! ## The tree -/

section Tree

variable {W : Type} (sys : Otp W) (t : CharTables) (baseDir : Bytes)

/-- `start_link` on the spec of a supervisor. -/
theorem startLink_eq_childTrees {spec : Term} (hmap : ∃ entries, spec = .map entries)
    (hlisted : spec.get? "children" = none ∨ spec.get? "children" = some (.list (childrenOf spec)))
    (fresh : List ℕ → ℤ) : startLink sys t fresh baseDir spec =
      match childTrees sys t (fun i path => fresh (i :: path)) baseDir (childrenOf spec) with
      | .error reason => .failed (SupervisorBridge.viaName spec) reason
      | .ok children => .started (SupervisorBridge.viaName spec) (flagsOf spec) children := by
  have hacc : isAccessible spec = true := by
    obtain ⟨entries, rfl⟩ := hmap
    rfl
  have helements : elements (Term.orElse (spec.get? "children") (.list [])) =
      .ok (childrenOf spec) := by
    rcases hlisted with hnone | hsome
    · rw [hnone, childrenOf, hnone]
      rfl
    · rw [hsome]
      rfl
  rw [startLink_eq, if_neg (by simp [hacc]), helements]
  rfl

theorem reduceOption_ids (spec : Term) :
    ((childrenOf spec).map (Term.get? "id")).reduceOption = explicitIds spec := by
  rw [List.reduceOption, List.filterMap_map]
  rfl

/-- The ids of the children are distinct exactly if those that are given are, and no generated one
is given. -/
theorem nodup_ids {spec : Term} {value : List ℕ → ℤ} (hinj : Function.Injective value) :
    (fill (fun i => Term.int (value [i])) ((childrenOf spec).map (Term.get? "id"))).Nodup ↔
      (explicitIds spec).Nodup ∧ ∀ (i : ℕ) (child : Term), (childrenOf spec)[i]? = some child →
        child.get? "id" = none → .int (value [i]) ∉ explicitIds spec := by
  have hsupply : Function.Injective fun i => Term.int (value [i]) := by
    intro i j hij
    exact (List.cons.inj (hinj (Term.int.inj hij))).1
  rw [nodup_fill hsupply, reduceOption_ids]
  refine and_congr_right fun _ => ?_
  constructor
  · intro h i child hi hid
    exact h i (by simp [hi, hid])
  · intro h i hi
    rw [List.getElem?_map, Option.map_eq_some_iff] at hi
    obtain ⟨child, hi, hid⟩ := hi
    exact h i child hi hid

/-- The tree of supervisors corresponds to the specs exactly if no generated id is the id of a
sibling and every worker can be built, at every level. -/
theorem startLink_mirrors_iff (hsys : Interpolates sys) (fresh : FreshIds) {spec : Term}
    (hspec : SupervisorSpec spec) :
    (startLink sys t fresh.value baseDir spec).Mirrors spec ↔
      Translatable sys fresh.value spec := by
  have hinj := fresh.injective
  generalize fresh.value = value at hinj
  induction hspec generalizing value with
  | @node spec hmap hlisted hmaps hids hdistinct _ ih =>
    have hunder : ∀ i, Function.Injective fun path => value (i :: path) := by
      intro i path path' h
      exact (List.cons.inj (hinj h)).2
    rw [startLink_eq_childTrees sys t baseDir hmap hlisted]
    by_cases hbuild : ∀ child ∈ childrenOf spec, isSupervisor child = false → Buildable sys child
    · obtain ⟨children, hchildren, hlabels, hmirrors⟩ := childTrees_ok (t := t)
        hsys baseDir (fun i path => value (i :: path)) hmaps hids hbuild
      rw [hchildren]
      simp only [SupervisorTree.Mirrors]
      rw [hlabels, hmirrors, nodup_ids hinj]
      constructor
      · rintro ⟨-, ⟨-, hgenerated⟩, hnested⟩
        refine .node hgenerated hbuild fun i child hi hkind => ?_
        exact (ih child (List.mem_of_getElem? hi) hkind _ (hunder i)).mp (hnested i child hi hkind)
      · rintro ⟨hgenerated, -, hnested⟩
        refine ⟨⟨isSetting_mapStrategy _, rfl, rfl⟩, ⟨hdistinct, hgenerated⟩, ?_⟩
        intro i child hi hkind
        exact (ih child (List.mem_of_getElem? hi) hkind _ (hunder i)).mpr (hnested i child hi hkind)
    · -- the child specs of a supervisor are made before any of them is started
      refine iff_of_false ?_ fun ⟨_, hworkers, _⟩ => hbuild hworkers
      cases hchildren : childTrees sys t (fun i path => value (i :: path)) baseDir
          (childrenOf spec) with
      | ok children => exact absurd (buildable_of_childTrees hchildren) hbuild
      | error reason =>
        simp only [SupervisorTree.Mirrors]
        exact id

end Tree

/-! ## Samples -/

/-- An OTP that interpolates binaries and integers. -/
def namingOtp : Otp Unit :=
  { loneOtp with
    interpolate := fun
      | .binary b => .ok b
      | .int n => .ok (bytes (toString n))
      | t => .error t }

theorem interpolates_namingOtp : Interpolates namingOtp := ⟨fun _ => rfl, fun _ => rfl⟩

/-- The numbers of the paths in the enumeration of all lists, from one on. -/
def countedIds : FreshIds where
  value path := Encodable.encode path + 1
  injective path path' h := Encodable.encode_injective (by simpa using h)
  positive path := by omega

/-- The spec of a worker. -/
def workerSpec (id : Option Term) : Term :=
  .map ((id.map fun id => (.binary (bytes "id"), id)).toList ++
    [(.binary (bytes "source"), .binary (bytes "1"))])

/-- The spec of a supervisor. -/
def groupSpec (children : List Term) : Term :=
  .map [(.binary (bytes "type"), .binary (bytes "supervisor")),
    (.binary (bytes "children"), .list children)]

@[simp] theorem get?_id_workerSpec (id : Option Term) : (workerSpec id).get? "id" = id := by
  cases id <;> rfl

@[simp] theorem get?_id_groupSpec (children : List Term) :
    (groupSpec children).get? "id" = none := rfl

@[simp] theorem isSupervisor_workerSpec (id : Option Term) :
    isSupervisor (workerSpec id) = false := by
  cases id <;> rfl

@[simp] theorem isSupervisor_groupSpec (children : List Term) :
    isSupervisor (groupSpec children) = true := rfl

@[simp] theorem childrenOf_groupSpec (children : List Term) :
    childrenOf (groupSpec children) = children := rfl

@[simp] theorem exists_entries_workerSpec (id : Option Term) :
    ∃ entries, workerSpec id = .map entries := ⟨_, rfl⟩

@[simp] theorem exists_entries_groupSpec (children : List Term) :
    ∃ entries, groupSpec children = .map entries := ⟨_, rfl⟩

theorem buildable_workerSpec {W : Type} (sys : Otp W) (id : Option Term) :
    Buildable sys (workerSpec id) := by
  cases id <;> exact .inl ⟨_, rfl, rfl⟩

theorem supervisorSpec_groupSpec {children : List Term}
    (hmaps : ∀ child ∈ children, ∃ entries, child = .map entries)
    (hids : ∀ child ∈ children, IsId (child.get? "id"))
    (hdistinct : (children.filterMap (Term.get? "id")).Nodup)
    (hnested : ∀ child ∈ children, isSupervisor child = true → SupervisorSpec child) :
    SupervisorSpec (groupSpec children) :=
  .node ⟨_, rfl⟩ (.inr rfl) hmaps hids hdistinct hnested

/-- A supervisor of a worker and of a supervisor without an id, which has a worker of its own. -/
def nestedSpec : Term :=
  groupSpec [workerSpec (some (.binary (bytes "a"))), groupSpec [workerSpec none]]

/-- The tree of a supervisor in a supervisor corresponds to its spec. -/
theorem startLink_mirrors_nested :
    (startLink namingOtp .ascii countedIds.value [] nestedSpec).Mirrors nestedSpec := by
  refine (startLink_mirrors_iff _ _ _ interpolates_namingOtp countedIds ?_).mpr ?_
  · refine supervisorSpec_groupSpec ?_ ?_ ?_ ?_
    · simp
    · simp [IsId]
    · simp [List.filterMap_cons]
    · -- the second child is a supervisor
      have hinner : SupervisorSpec (groupSpec [workerSpec none]) :=
        supervisorSpec_groupSpec (by simp) (by simp [IsId]) (by simp) (by simp)
      simpa using hinner
  · refine .node ?_ ?_ ?_
    · intro i child hi hid
      simp [nestedSpec, explicitIds, List.filterMap_cons]
    · simp [nestedSpec, buildable_workerSpec]
    · intro i child hi hkind
      match i with
      | 0 =>
        obtain rfl : workerSpec (some (.binary (bytes "a"))) = child := Option.some.inj hi
        simp at hkind
      | 1 =>
        obtain rfl : groupSpec [workerSpec none] = child := Option.some.inj hi
        refine .node ?_ ?_ ?_
        · intro i child hi hid
          simp [explicitIds]
        · simp [buildable_workerSpec]
        · intro i child hi hkind
          obtain rfl : child = workerSpec none := by simpa using List.mem_of_getElem? hi
          simp at hkind
      | i + 2 => simp [nestedSpec] at hi

/-- A supervisor of two workers, one with the id 4 and one without an id. -/
def clashSpec : Term := groupSpec [workerSpec (some (.int 4)), workerSpec none]

/-- The id 4 is also generated for the second child. -/
theorem clash_of_generated_id : SupervisorSpec clashSpec ∧
    ¬ (startLink namingOtp .ascii countedIds.value [] clashSpec).Mirrors clashSpec := by
  constructor
  · refine supervisorSpec_groupSpec ?_ ?_ ?_ ?_
    · simp
    · simp [IsId]
    · simp
    · simp
  · have hinit : SupervisorBridge.init namingOtp .ascii (fun i => countedIds.value [i]) [] clashSpec =
        .ok (⟨"one_for_one", .int 3, .int 5⟩,
          [.worker (.int 4) ⟨.binary (bytes "1"), .binary (bytes "<child:4>"), [], .null⟩
            "permanent" (.int 5000),
           .worker (.int 4) ⟨.binary (bytes "1"), .binary (bytes "<child:4>"), [], .null⟩
            "permanent" (.int 5000)]) := rfl
    rw [startLink_of_ok hinit, SupervisorTree.Mirrors]
    simp [ChildTree.id]

end BeamJS
