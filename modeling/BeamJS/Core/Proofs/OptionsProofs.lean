import BeamJS.Core.Options
import BeamJS.Core.Proofs.SupervisorTreeProofs
import BeamJS.Nif.Proofs.TermConvertProofs

/-!
# Proofs: options that are left out

An object that has some keys with the value undefined and the object without them become maps that
differ in these keys only, where one has the atom `:undefined`. What a call does with the two maps
is compared read by read.
-/

namespace BeamJS

open Lib JsValue Transpiler SupervisorBridge

/-! ## The two maps -/

/-- What two maps have under a key: the same, `:undefined` and nothing, or lists of related specs.
-/
inductive KeyOmits (R : Term → Term → Prop) (key : String) : Option Term → Option Term → Prop where
  | same (given : Option Term) : KeyOmits R key given given
  | left : KeyOmits R key (some (.atom "undefined")) none
  | children (h : bytes key = bytes "children") {specs specs' : List Term}
      (hspecs : List.Forall₂ R specs specs') :
      KeyOmits R key (some (.list specs)) (some (.list specs'))

/-- Both terms are maps, of which the second one leaves out keys. -/
structure OmitsKeys (R : Term → Term → Prop) (m m' : Term) : Prop where
  map : ∃ entries, m = .map entries
  map' : ∃ entries, m' = .map entries
  key : ∀ key, KeyOmits R key (m.get? key) (m'.get? key)

/-- The second term is the first one, or both are maps of which the second one leaves out keys that
the first one has with the value `:undefined`, also in the specs of children down to a depth. -/
def Omits : ℕ → Term → Term → Prop
  | 0, m, m' => m = m'
  | n + 1, m, m' => m = m' ∨ OmitsKeys (Omits n) m m'

theorem Omits.keys {n : ℕ} {m m' : Term} (h : Omits n m m') (hne : m ≠ m') :
    ∃ k, OmitsKeys (Omits k) m m' := by
  cases n with
  | zero => exact absurd h hne
  | succ n => exact ⟨n, h.resolve_left hne⟩

section Convert

variable {ord : MapOrder} {R : JsValue → JsValue → Prop} {R' : Term → Term → Prop}
  {props props' : List (JsString × JsValue)}

/-- The properties of an object that is converted, each with its key in the map. -/
def entriesOf (ord : MapOrder) (props : List (JsString × JsValue)) : List (Bytes × Term) :=
  props.map fun e => (mapKey e.1, termOf ord e.2)

theorem rel_jsValuesToErl {vs vs' : List JsValue}
    (hR : ∀ v v', R v v' → Option.Rel R' (jsValueToErl ord v) (jsValueToErl ord v'))
    (h : List.Forall₂ R vs vs') :
    Option.Rel (List.Forall₂ R') (jsValuesToErl ord vs) (jsValuesToErl ord vs') := by
  induction h with
  | nil => exact .some .nil
  | @cons v v' vs vs' hv _ ih =>
    have hfirst := hR v v' hv
    rw [jsValuesToErl, jsValuesToErl]
    generalize jsValueToErl ord v = t at hfirst ⊢
    generalize jsValueToErl ord v' = t' at hfirst ⊢
    generalize jsValuesToErl ord vs = ts at ih ⊢
    generalize jsValuesToErl ord vs' = ts' at ih ⊢
    cases hfirst with
    | none => exact .none
    | some ht =>
      cases ih with
      | none => exact .none
      | some hts => exact .some (.cons ht hts)

theorem sublist_of_drops (h : Drops R props props') :
    (props'.map fun e => mapKey e.1).Sublist (props.map fun e => mapKey e.1) := by
  induction h with
  | nil => exact .slnil
  | left k _ ih => exact .cons _ ih
  | kept k v _ ih => exact .cons_cons _ ih
  | children _ _ ih => exact .cons_cons _ ih

/-- A property that is left is one of the first object, unless it is an array. -/
theorem mem_of_drops (h : Drops R props props') {k : JsString} {v : JsValue}
    (hv : ∀ specs, v ≠ .array specs) (hmem : (k, v) ∈ props') : (k, v) ∈ props := by
  induction h with
  | nil => exact hmem
  | left k' _ ih => exact List.mem_cons_of_mem _ (ih hmem)
  | kept k' v' _ ih =>
    rcases List.mem_cons.mp hmem with heq | hmem
    · exact heq ▸ List.mem_cons_self
    · exact List.mem_cons_of_mem _ (ih hmem)
  | children _ _ ih =>
    rcases List.mem_cons.mp hmem with heq | hmem
    · exact absurd (Prod.mk.inj heq).2 (hv _)
    · exact List.mem_cons_of_mem _ (ih hmem)

/-- The object that leaves out keys is an options object as well. -/
theorem IsOptions.drops (hprops : IsOptions props)
    (h : Drops R props props') : IsOptions props' := by
  obtain ⟨hnd, htag⟩ := hprops
  refine ⟨(sublist_of_drops h).nodup hnd, ?_⟩
  have hkeys : (Assoc.keys props).Nodup := List.Nodup.of_map mapKey (by
    rw [Assoc.keys, List.map_map]
    exact hnd)
  rw [isPidHandle] at htag ⊢
  split
  · rename_i text hlookup
    have hmem := mem_of_drops h (fun specs => by simp) (Assoc.mem_of_lookup hlookup)
    rw [Assoc.lookup_of_mem hkeys hmem] at htag
    exact htag
  · rfl

/-- The one object can be converted if the other one can. -/
theorem converts_iff_of_drops
    (hR : ∀ v v', R v v' → Option.Rel R' (jsValueToErl ord v) (jsValueToErl ord v'))
    (h : Drops R props props') :
    (∀ e ∈ props, jsValueToErl ord e.2 = some (termOf ord e.2)) ↔
      ∀ e ∈ props', jsValueToErl ord e.2 = some (termOf ord e.2) := by
  induction h with
  | nil => exact Iff.rfl
  | left k _ ih =>
    rw [List.forall_mem_cons, ih]
    exact and_iff_right (by rw [termOf, jsValueToErl]; rfl)
  | kept k v _ ih => rw [List.forall_mem_cons, List.forall_mem_cons, ih]
  | @children specs specs' hspecs props props' _ ih =>
    rw [List.forall_mem_cons, List.forall_mem_cons, ih]
    refine and_congr_left fun _ => ?_
    have hrel := rel_jsValuesToErl hR hspecs
    simp only [termOf, jsValueToErl]
    generalize jsValuesToErl ord specs = ts at hrel ⊢
    generalize jsValuesToErl ord specs' = ts' at hrel ⊢
    cases hrel with
    | none => simp
    | some _ => simp

/-- What the two maps have under a key. -/
theorem keyOmits_of_drops
    (hR : ∀ v v', R v v' → Option.Rel R' (jsValueToErl ord v) (jsValueToErl ord v'))
    (h : Drops R props props') (hnd : (props.map fun e => mapKey e.1).Nodup)
    (hconv : ∀ e ∈ props, jsValueToErl ord e.2 = some (termOf ord e.2)) (key : String) :
    KeyOmits R' key ((entriesOf ord props).lookup (bytes key))
      ((entriesOf ord props').lookup (bytes key)) := by
  have hself : ∀ (k : JsString) (v : JsValue) (es : List (Bytes × Term)), bytes key = mapKey k →
      ((mapKey k, termOf ord v) :: es).lookup (bytes key) = some (termOf ord v) := by
    intro k v es hk
    rw [hk, List.lookup_cons_self]
  induction h with
  | nil => exact .same none
  | @left k props props' h ih =>
    obtain ⟨hfirst, hnd⟩ := List.nodup_cons.mp hnd
    rw [entriesOf, List.map_cons]
    by_cases hk : bytes key = mapKey k
    · -- the key occurs in the first map alone
      have hnone : (entriesOf ord props').lookup (bytes key) = none := by
        rw [Assoc.lookup_eq_none, hk, Assoc.keys, entriesOf, List.map_map]
        exact fun hmem => hfirst ((sublist_of_drops h).subset hmem)
      rw [hself k _ _ hk, hnone, termOf, jsValueToErl]
      exact .left
    · rw [Assoc.lookup_cons_of_ne hk]
      exact ih hnd fun e he => hconv e (List.mem_cons_of_mem _ he)
  | @kept k v props props' _ ih =>
    obtain ⟨hfirst, hnd⟩ := List.nodup_cons.mp hnd
    rw [entriesOf, entriesOf, List.map_cons, List.map_cons]
    by_cases hk : bytes key = mapKey k
    · rw [hself k v _ hk, hself k v _ hk]
      exact .same _
    · rw [Assoc.lookup_cons_of_ne hk, Assoc.lookup_cons_of_ne hk]
      exact ih hnd fun e he => hconv e (List.mem_cons_of_mem _ he)
  | @children specs specs' hspecs props props' _ ih =>
    obtain ⟨hfirst, hnd⟩ := List.nodup_cons.mp hnd
    obtain ⟨hspec, hconv⟩ := List.forall_mem_cons.mp hconv
    rw [entriesOf, entriesOf, List.map_cons, List.map_cons]
    by_cases hk : bytes key = mapKey (js "children")
    · rw [hself _ _ _ hk, hself _ _ _ hk]
      have hrel := rel_jsValuesToErl hR hspecs
      simp only [termOf, jsValueToErl] at hspec ⊢
      generalize jsValuesToErl ord specs = ts at hrel hspec ⊢
      generalize jsValuesToErl ord specs' = ts' at hrel ⊢
      cases hrel with
      | none => cases hspec
      | some hts => exact .children (hk.trans (by decide)) hts
    · rw [Assoc.lookup_cons_of_ne hk, Assoc.lookup_cons_of_ne hk]
      exact ih hnd hconv

/-- The two objects both fail to be converted, or become maps of which the second one leaves out
what the second object leaves out. -/
theorem rel_of_leavesOut (ord : MapOrder) {n : ℕ} {o o' : JsValue} (h : LeavesOut n o o') :
    Option.Rel (Omits n) (jsValueToErl ord o) (jsValueToErl ord o') := by
  induction n generalizing o o' with
  | zero =>
    obtain rfl := h
    cases jsValueToErl ord o with
    | none => exact .none
    | some m => exact .some rfl
  | succ n ih =>
    rcases h with rfl | ⟨props, props', rfl, rfl, hprops, hdrops⟩
    · cases jsValueToErl ord o with
      | none => exact .none
      | some m => exact .some (.inl rfl)
    · have hprops' := hprops.drops hdrops
      have hconv := converts_iff_of_drops (fun v v' => ih) hdrops
      have hmap : ∀ {ps : List (JsString × JsValue)}, IsOptions ps →
          jsValueToErl ord (.object none ps) = jsPropsToMap ord (jsPropsToErl ord ps) :=
        fun hps => jsValueToErl_object rfl hps.2
      by_cases hall : ∀ e ∈ props, jsValueToErl ord e.2 = some (termOf ord e.2)
      · have hm := (hmap hprops).trans (jsPropsToMap_eq hall)
        have hm' := (hmap hprops').trans (jsPropsToMap_eq (hconv.mp hall))
        rw [hm, hm']
        refine .some (.inr ⟨⟨_, rfl⟩, ⟨_, rfl⟩, fun key => ?_⟩)
        rw [get?_object rfl hprops.2 hprops.1 hm, get?_object rfl hprops'.2 hprops'.1 hm']
        exact keyOmits_of_drops (fun v v' => ih) hdrops hprops.1 hall key
      · have hno : ∀ {ps : List (JsString × JsValue)}, IsOptions ps →
            (¬ ∀ e ∈ ps, jsValueToErl ord e.2 = some (termOf ord e.2)) →
            jsValueToErl ord (.object none ps) = none := by
          intro ps hps hfail
          rw [hmap hps, Option.eq_none_iff_forall_ne_some]
          exact fun m hm => hfail (jsPropsToMap_eq_some hm)
        rw [hno hprops hall, hno hprops' (fun h => hall (hconv.mpr h))]
        exact .none

end Convert

/-! ## Reading a key -/

section Read

variable {R : Term → Term → Prop} {m m' : Term}

/-- A read that takes `:undefined` for a missing key gives the same on both maps. -/
theorem KeyOmits.congr {α : Type} {key : String} {given given' : Option Term}
    (h : KeyOmits R key given given') (hkey : bytes key ≠ bytes "children")
    {f : Option Term → α} (hf : f (some (.atom "undefined")) = f none) : f given = f given' := by
  cases h with
  | same => rfl
  | left => exact hf
  | children h _ => exact absurd h hkey

/-- Where the maps differ at a key other than the one of the children, the first has `:undefined`
there and the second has nothing. -/
theorem KeyOmits.eq_or {key : String} {given given' : Option Term}
    (h : KeyOmits R key given given') (hkey : bytes key ≠ bytes "children") :
    given = given' ∨ given = some (.atom "undefined") ∧ given' = none := by
  cases h with
  | same => exact .inl rfl
  | left => exact .inr ⟨rfl, rfl⟩
  | children h _ => exact absurd h hkey

/-- A read that tells `:undefined` from a missing key gives the same only where the key is in both
maps or in neither. -/
theorem KeyOmits.eq_of_congr {α : Type} {key : String} {given given' : Option Term}
    (h : KeyOmits R key given given') (hkey : bytes key ≠ bytes "children")
    {f : Option Term → α} (hf : f (some (.atom "undefined")) ≠ f none) (heq : f given = f given') :
    given = given' := by
  cases h with
  | same => rfl
  | left => exact absurd heq hf
  | children h _ => exact absurd h hkey

/-- What is missing in the first map is missing in the second one. -/
theorem KeyOmits.eq_none {key : String} {given given' : Option Term}
    (h : KeyOmits R key given given') (hnone : given = none) : given' = none := by
  subst hnone
  cases h
  rfl

/-- What the second map has is no atom in its place. -/
theorem KeyOmits.eq_of_some {key : String} {given given' : Option Term} {value : Term}
    (h : KeyOmits R key given given') (hkey : bytes key ≠ bytes "children")
    (hsome : given' = some value) : given = given' := by
  subst hsome
  cases h with
  | same => rfl
  | children h _ => exact absurd h hkey

theorem OmitsKeys.isAccessible (h : OmitsKeys R m m') :
    isAccessible m = true ∧ isAccessible m' = true := by
  obtain ⟨entries, rfl⟩ := h.map
  obtain ⟨entries', rfl⟩ := h.map'
  exact ⟨rfl, rfl⟩

/-- A child without a type is a worker. -/
theorem OmitsKeys.isSupervisor_eq (h : OmitsKeys R m m') : isSupervisor m = isSupervisor m' := by
  unfold isSupervisor toChildSpec.isSupervisor
  rcases (h.key "type").eq_or (by decide) with heq | ⟨hleft, hright⟩
  · rw [heq]
  · rw [hleft, hright]

theorem OmitsKeys.mapRestart_eq (h : OmitsKeys R m m') :
    mapRestart (m.get? "restart") = mapRestart (m'.get? "restart") :=
  (h.key "restart").congr (by decide) rfl

theorem OmitsKeys.mapStrategy_eq (h : OmitsKeys R m m') :
    mapStrategy (m.get? "strategy") = mapStrategy (m'.get? "strategy") :=
  (h.key "strategy").congr (by decide) rfl

theorem OmitsKeys.viaName_eq (h : OmitsKeys R m m') :
    SupervisorBridge.viaName m = SupervisorBridge.viaName m' := by
  unfold SupervisorBridge.viaName
  rcases (h.key "name").eq_or (by decide) with heq | ⟨hleft, hright⟩
  · rw [heq]
  · rw [hleft, hright]

/-- The atom is kept by `||`, whose default is an integer. -/
theorem KeyOmits.eq_of_orElse {key : String} {given given' : Option Term} {n : ℤ}
    (h : KeyOmits R key given given') (hkey : bytes key ≠ bytes "children")
    (heq : Term.orElse given (.int n) = Term.orElse given' (.int n)) : given = given' :=
  h.eq_of_congr hkey (f := fun given => Term.orElse given (.int n)) Term.noConfusion heq

end Read

/-! ## The child spec of a worker -/

section Worker

variable {W : Type} {sys : Otp W} {t : CharTables} {R : Term → Term → Prop} {spec spec' : Term}

theorem supervisedSource_ne_nil (className source args : Bytes) :
    supervisedSource className source args ≠ [] := by
  have hnonempty : bytes "\nvar __gs_class = " ≠ [] := by decide
  simp [supervisedSource, hnonempty]

/-- A source is not built without a module or without arguments. -/
theorem buildSource_of_none (h : spec.get? "module" = none ∨ spec.get? "args" = none) :
    buildSource sys t spec = .ok ((spec.get? "source").getD (.binary [])) := by
  rw [buildSource_eq]
  rcases h with h | h
  · rw [h]
  · rw [h]
    cases spec.get? "module" <;> rfl

theorem buildSource_congr (h : OmitsKeys R spec spec')
    (hsource : spec.get? "source" = spec'.get? "source")
    (hsame : spec.get? "module" = none ∨ spec.get? "args" = none ∨
      AgreeOn ["module", "args"] spec spec') :
    buildSource sys t spec = buildSource sys t spec' := by
  rcases hsame with hmodule | hargs | hagree
  · have hmodule' := (h.key "module").eq_none hmodule
    rw [buildSource_of_none (.inl hmodule), buildSource_of_none (.inl hmodule'), hsource]
  · have hargs' := (h.key "args").eq_none hargs
    rw [buildSource_of_none (.inr hargs), buildSource_of_none (.inr hargs'), hsource]
  · rw [buildSource_eq, buildSource_eq, hsource, hagree "module" (by simp),
      hagree "args" (by simp)]

theorem workerSource_congr (h : OmitsKeys R spec spec')
    (hsource : spec.get? "source" = spec'.get? "source") (hsame : SameSource spec spec') :
    workerSource sys t spec = workerSource sys t spec' := by
  unfold workerSource
  rcases hsame with ⟨source, hgiven, htrue⟩ | hsame
  · rw [← hsource, hgiven]
    simp only [htrue, if_true]
  · rw [buildSource_congr h hsource hsame, hsource]

/-- Where it does not just pass the source on, `build_source` makes a binary. -/
theorem buildSource_eq_ok {source : Term} (h : buildSource sys t spec = .ok source) :
    (∃ m args b, spec.get? "module" = some (.binary m) ∧ spec.get? "args" = some args ∧
      b ≠ [] ∧ source = .binary b) ∨
    (spec.get? "module" = none ∨ spec.get? "args" = none) ∧
      source = (spec.get? "source").getD (.binary []) := by
  by_cases hnone : spec.get? "module" = none ∨ spec.get? "args" = none
  · rw [buildSource_of_none hnone] at h
    exact .inr ⟨hnone, (Except.ok.inj h).symm⟩
  · obtain ⟨hm, hargs⟩ := not_or.mp hnone
    obtain ⟨module, hm⟩ := Option.ne_none_iff_exists'.mp hm
    obtain ⟨args, hargs⟩ := Option.ne_none_iff_exists'.mp hargs
    rw [buildSource_eq, hm, hargs] at h
    cases module with
    | binary m =>
      obtain ⟨json, -, h⟩ := bind_eq_ok.mp h
      exact .inl ⟨m, args, _, hm, hargs, supervisedSource_ne_nil _ m json, (Except.ok.inj h).symm⟩
    | _ => cases h

/-- The source of a worker tells whether its keys are the same. -/
theorem of_workerSource_eq (h : OmitsKeys R spec spec') {source : Term}
    (hs : workerSource sys t spec = .ok source) (hs' : workerSource sys t spec' = .ok source) :
    spec.get? "source" = spec'.get? "source" ∧ SameSource spec spec' := by
  have hsource : spec.get? "source" = spec'.get? "source" := by
    have hkey := h.key "source"
    unfold workerSource at hs hs'
    generalize hgiven : spec.get? "source" = given at hkey hs
    generalize hgiven' : spec'.get? "source" = given' at hkey hs'
    cases hkey with
    | same => rfl
    | left =>
      -- the source is the atom in the one run, and built in the other one
      cases hs
      rcases buildSource_eq_ok hs' with ⟨m, args, b, -, -, -, hb⟩ | ⟨-, hb⟩
      · cases hb
      · rw [hgiven'] at hb
        cases hb
    | children hkey _ => exact absurd hkey (by decide)
  refine ⟨hsource, ?_⟩
  by_cases htrue : ∃ given, spec.get? "source" = some given ∧ given.truthy = true
  · exact .inl htrue
  · have hbuild : ∀ {sp : Term}, sp.get? "source" = spec.get? "source" →
        workerSource sys t sp = .ok source → buildSource sys t sp = .ok source := by
      intro sp hsp hok
      unfold workerSource at hok
      split at hok
      · rename_i given hgiven
        rw [if_neg fun hg => htrue ⟨given, hsp ▸ hgiven, hg⟩] at hok
        exact hok
      · exact hok
    have hb := buildSource_eq_ok (hbuild rfl hs)
    have hb' := buildSource_eq_ok (hbuild hsource.symm hs')
    rcases hb with ⟨m, args, b, hm, hargs, hne, rfl⟩ | ⟨hnone, -⟩
    · refine .inr (.inr (.inr ?_))
      rcases hb' with ⟨m', args', b', hm', hargs', -, -⟩ | ⟨-, hb'⟩
      · rintro key hkey
        rcases List.mem_pair.mp hkey with rfl | rfl
        · exact (h.key _).eq_of_some (by decide) hm'
        · exact (h.key _).eq_of_some (by decide) hargs'
      · -- a built source is not empty, and a falsy one is no binary
        rw [← hsource] at hb'
        cases hgiven : spec.get? "source" with
        | none =>
          rw [hgiven] at hb'
          exact absurd (Term.binary.inj hb') hne
        | some given =>
          rw [hgiven] at hb'
          obtain rfl : Term.binary b = given := hb'
          exact absurd ⟨_, hgiven, rfl⟩ htrue
    · rcases hnone with hnone | hnone
      · exact .inr (.inl hnone)
      · exact .inr (.inr (.inl hnone))

theorem workerFilename_congr (hfilename : spec.get? "filename" = spec'.get? "filename")
    (id : Term) :
    workerFilename sys id spec = workerFilename sys id spec' := by
  rw [workerFilename, workerFilename, hfilename]

/-- The filename of a worker tells whether it is given. -/
theorem of_workerFilename_eq (h : OmitsKeys R spec spec') {id filename : Term}
    (hf : workerFilename sys id spec = .ok filename)
    (hf' : workerFilename sys id spec' = .ok filename) :
    spec.get? "filename" = spec'.get? "filename" := by
  have hkey := h.key "filename"
  unfold workerFilename at hf hf'
  generalize spec.get? "filename" = given at hkey hf
  generalize spec'.get? "filename" = given' at hkey hf'
  cases hkey with
  | same => rfl
  | left =>
    cases hf
    obtain ⟨text, -, hf'⟩ := bind_eq_ok.mp hf'
    cases hf'
  | children hkey _ => exact absurd hkey (by decide)

end Worker

/-! ## The children of a supervisor -/

section Children

variable {W : Type} {sys : Otp W} {t : CharTables} {baseDir : Bytes} {R : Term → Term → Prop}

/-- Two specs of the same child agree on what a child spec is made of, up to the nested supervisors.
-/
structure SameChild (spec spec' : Term) : Prop where
  id : AgreeOn ["id"] spec spec'
  worker : isSupervisor spec = false →
    AgreeOn ["filename", "name", "shutdown", "source"] spec spec' ∧ SameSource spec spec'

theorem childTree_congr {fresh : List ℕ → ℤ} {spec spec' : Term} (h : OmitsKeys R spec spec')
    (hsame : SameChild spec spec')
    (hnested : isSupervisor spec = true →
      startLink sys t fresh baseDir spec = startLink sys t fresh baseDir spec') :
    childTree sys t fresh baseDir spec = childTree sys t fresh baseDir spec' := by
  obtain ⟨hacc, hacc'⟩ := h.isAccessible
  have hid := hsame.id "id" (by simp)
  cases hkind : isSupervisor spec with
  | true =>
    rw [childTree_supervisor fresh baseDir hacc hkind,
      childTree_supervisor fresh baseDir hacc' (h.isSupervisor_eq ▸ hkind), hid, h.mapRestart_eq,
      hnested hkind]
  | false =>
    obtain ⟨hagree, hsource⟩ := hsame.worker hkind
    rw [childTree_worker fresh baseDir hacc hkind,
      childTree_worker fresh baseDir hacc' (h.isSupervisor_eq ▸ hkind), hid, h.mapRestart_eq,
      workerSource_congr h (hagree "source" (by simp)) hsource,
      workerFilename_congr (hagree "filename" (by simp)),
      hagree "name" (by simp), hagree "shutdown" (by simp)]

/-- A child tells whether the keys of its specs are the same. -/
theorem of_childTree_eq {fresh : List ℕ → ℤ} {spec spec' : Term} (h : OmitsKeys R spec spec')
    {child : ChildTree} (hc : childTree sys t fresh baseDir spec = .ok child)
    (hc' : childTree sys t fresh baseDir spec' = .ok child) :
    SameChild spec spec' ∧ (isSupervisor spec = true → ∃ id restart tree,
      child = .supervisor id restart tree ∧ startLink sys t fresh baseDir spec = tree ∧
      startLink sys t fresh baseDir spec' = tree) := by
  obtain ⟨hacc, hacc'⟩ := h.isAccessible
  have hid : ∀ {n : ℤ}, Term.orElse (spec.get? "id") (.int n) =
      Term.orElse (spec'.get? "id") (.int n) → AgreeOn ["id"] spec spec' := by
    intro n heq key hkey
    obtain rfl := List.mem_singleton.mp hkey
    exact (h.key "id").eq_of_orElse (by decide) heq
  cases hkind : isSupervisor spec with
  | true =>
    rw [childTree_supervisor fresh baseDir hacc hkind] at hc
    rw [childTree_supervisor fresh baseDir hacc' (h.isSupervisor_eq ▸ hkind)] at hc'
    obtain rfl := Except.ok.inj hc
    obtain ⟨heq, -, htree⟩ := ChildTree.supervisor.inj (Except.ok.inj hc')
    exact ⟨⟨hid heq.symm, fun hno => by simp [hkind] at hno⟩,
      fun _ => ⟨_, _, _, rfl, rfl, htree⟩⟩
  | false =>
    rw [childTree_worker fresh baseDir hacc hkind] at hc
    rw [childTree_worker fresh baseDir hacc' (h.isSupervisor_eq ▸ hkind)] at hc'
    obtain ⟨source, hs, hc⟩ := bind_eq_ok.mp hc
    obtain ⟨filename, hf, hc⟩ := bind_eq_ok.mp hc
    obtain ⟨source', hs', hc'⟩ := bind_eq_ok.mp hc'
    obtain ⟨filename', hf', hc'⟩ := bind_eq_ok.mp hc'
    obtain rfl := Except.ok.inj hc
    obtain ⟨heq, hstart, -, hshutdown⟩ := ChildTree.worker.inj (Except.ok.inj hc')
    obtain ⟨rfl, rfl, -, hname⟩ := ChildStart.mk.inj hstart
    have hagree := hid heq.symm
    rw [heq] at hf'
    obtain ⟨hsource, hsame⟩ := of_workerSource_eq h hs hs'
    refine ⟨⟨hagree, fun _ => ⟨?_, hsame⟩⟩, fun hno => Bool.noConfusion hno⟩
    rintro key hkey
    simp only [List.mem_cons, List.not_mem_nil, or_false] at hkey
    rcases hkey with rfl | rfl | rfl | rfl
    · exact of_workerFilename_eq h hf hf'
    · exact (h.key "name").eq_of_congr (by decide) (f := fun given => given.getD .null)
        (by simp [Term.null]) hname.symm
    · exact (h.key "shutdown").eq_of_orElse (by decide) hshutdown.symm
    · exact hsource

theorem childTrees_congr {P : Term → Term → Prop} {specs specs' : List Term}
    (h : List.Forall₂ P specs specs') {fresh : ℕ → List ℕ → ℤ}
    (hchild : ∀ (i : ℕ) (spec spec' : Term), specs[i]? = some spec → specs'[i]? = some spec' →
      P spec spec' →
      childTree sys t (fresh i) baseDir spec = childTree sys t (fresh i) baseDir spec') :
    childTrees sys t fresh baseDir specs = childTrees sys t fresh baseDir specs' := by
  induction h generalizing fresh with
  | nil => rfl
  | @cons spec spec' specs specs' hP _ ih =>
    have hrest : childTrees sys t (fun i => fresh (i + 1)) baseDir specs =
        childTrees sys t (fun i => fresh (i + 1)) baseDir specs' :=
      ih fun i c c' hc hc' => hchild (i + 1) c c' (by simpa using hc) (by simpa using hc')
    rw [childTrees, childTrees, hchild 0 spec spec' rfl rfl hP, hrest]

theorem of_childTrees_eq {P : Term → Term → Prop} {specs specs' : List Term}
    (h : List.Forall₂ P specs specs') {fresh : ℕ → List ℕ → ℤ} {children : List ChildTree}
    (hc : childTrees sys t fresh baseDir specs = .ok children)
    (hc' : childTrees sys t fresh baseDir specs' = .ok children) {i : ℕ} {spec spec' : Term}
    (hi : specs[i]? = some spec) (hi' : specs'[i]? = some spec') :
    P spec spec' ∧ ∃ child ∈ children, childTree sys t (fresh i) baseDir spec = .ok child ∧
      childTree sys t (fresh i) baseDir spec' = .ok child := by
  induction h generalizing fresh children i with
  | nil => cases hi
  | cons hP _ ih =>
    obtain ⟨child, hfirst, hc⟩ := bind_eq_ok.mp hc
    obtain ⟨rest, hrest, hc⟩ := bind_eq_ok.mp hc
    obtain ⟨child', hfirst', hc'⟩ := bind_eq_ok.mp hc'
    obtain ⟨rest', hrest', hc'⟩ := bind_eq_ok.mp hc'
    obtain rfl := Except.ok.inj hc
    obtain ⟨rfl, rfl⟩ := List.cons.inj (Except.ok.inj hc')
    cases i with
    | zero =>
      cases hi
      cases hi'
      exact ⟨hP, child', List.mem_cons_self, hfirst, hfirst'⟩
    | succ i =>
      obtain ⟨hP', child, hmem, hchild⟩ := ih hrest hrest' (by simpa using hi) (by simpa using hi')
      exact ⟨hP', child, List.mem_cons_of_mem _ hmem, hchild⟩

end Children

/-! ## The tree -/

section Tree

variable {W : Type} {sys : Otp W} {t : CharTables} {baseDir : Bytes}

theorem flagsOf_congr {R : Term → Term → Prop} {m m' : Term} (h : OmitsKeys R m m')
    (hagree : AgreeOn ["maxRestarts", "maxSeconds"] m m') : flagsOf m = flagsOf m' := by
  rw [flagsOf, flagsOf, h.mapStrategy_eq, hagree "maxRestarts" (by simp),
    hagree "maxSeconds" (by simp)]

theorem childrenOf_of_list {spec : Term} {specs : List Term}
    (h : spec.get? "children" = some (.list specs)) : childrenOf spec = specs := by
  rw [childrenOf, h]

/-- A supervisor for the same settings is the same. -/
theorem startLink_congr {n : ℕ} {m m' : Term} (h : Omits n m m') (hsame : SameSettings m m')
    (fresh : List ℕ → ℤ) :
    startLink sys t fresh baseDir m = startLink sys t fresh baseDir m' := by
  induction hsame generalizing n fresh with
  | same => rfl
  | @node m m' hflags hgiven hids hworkers _ ih =>
    cases n with
    | zero => rw [show m = m' from h]
    | succ n =>
      rcases h with rfl | h
      · rfl
      · obtain ⟨hacc, hacc'⟩ := h.isAccessible
        have htrees : (do
            let specs ← elements (Term.orElse (m.get? "children") (.list []))
            childTrees sys t (fun i path => fresh (i :: path)) baseDir specs) = (do
            let specs ← elements (Term.orElse (m'.get? "children") (.list []))
            childTrees sys t (fun i path => fresh (i :: path)) baseDir specs) := by
          have hkey := h.key "children"
          generalize hg : m.get? "children" = given at hkey hgiven
          generalize hg' : m'.get? "children" = given' at hkey hgiven
          cases hkey with
          | same => rfl
          | left => simp at hgiven
          | @children _ specs specs' hspecs =>
            refine childTrees_congr hspecs fun i spec spec' hi hi' homits => ?_
            rw [childrenOf_of_list hg, childrenOf_of_list hg'] at hids hworkers ih
            cases n with
            | zero => rw [show spec = spec' from homits]
            | succ n =>
              rcases homits with rfl | homits
              · rfl
              · exact childTree_congr homits ⟨hids i spec spec' hi hi', hworkers i spec spec' hi hi'⟩
                  fun hkind => ih i spec spec' hi hi' hkind
                    (show Omits (n + 1) spec spec' from .inr homits) _
        rw [startLink_eq, startLink_eq, htrees, h.viaName_eq, flagsOf_congr h hflags, hacc, hacc']

/-- A supervisor that is started has the children that its spec lists. -/
theorem of_startLink_eq {fresh : List ℕ → ℤ} {spec : Term} {name : Option Bytes}
    {flags : SupervisorFlags} {children : List ChildTree}
    (h : startLink sys t fresh baseDir spec = .started name flags children) :
    flags = flagsOf spec ∧ ∃ specs,
      elements (Term.orElse (spec.get? "children") (.list [])) = .ok specs ∧
      childTrees sys t (fun i path => fresh (i :: path)) baseDir specs = .ok children := by
  rw [startLink_eq] at h
  split_ifs at h
  split at h
  · cases h
  · rename_i trees htrees
    obtain ⟨-, rfl, rfl⟩ := SupervisorTree.started.inj h
    exact ⟨rfl, bind_eq_ok.mp htrees⟩

theorem ChildTree.AllStarted.of_mem {children : List ChildTree} (h : ChildTree.AllStarted children)
    {child : ChildTree} (hmem : child ∈ children) : child.Started := by
  induction children with
  | nil => cases hmem
  | cons first rest ih =>
    rw [ChildTree.AllStarted] at h
    rcases List.mem_cons.mp hmem with rfl | hmem
    · exact h.1
    · exact ih h.2 hmem

theorem SameChild.refl (spec : Term) : SameChild spec spec :=
  ⟨fun _ _ => rfl, fun _ => ⟨fun _ _ => rfl, .inr (.inr (.inr fun _ _ => rfl))⟩⟩

/-- A child tells whether its specs are the same, if the nested supervisors do. -/
theorem sameChild_of_eq {n : ℕ}
    (ih : ∀ {m m' : Term} {fresh : List ℕ → ℤ}, Omits n m m' →
      startLink sys t fresh baseDir m = startLink sys t fresh baseDir m' →
      (startLink sys t fresh baseDir m').AllStarted → SameSettings m m')
    {spec spec' : Term} (h : Omits n spec spec') {fresh : List ℕ → ℤ} {child : ChildTree}
    (hc : childTree sys t fresh baseDir spec = .ok child)
    (hc' : childTree sys t fresh baseDir spec' = .ok child) (hstarted : child.Started) :
    SameChild spec spec' ∧ (isSupervisor spec = true → SameSettings spec spec') := by
  cases n with
  | zero =>
    obtain rfl : spec = spec' := h
    exact ⟨.refl spec, fun _ => .same spec⟩
  | succ n =>
    rcases h with rfl | h
    · exact ⟨.refl spec, fun _ => .same spec⟩
    · obtain ⟨hsame, hnested⟩ := of_childTree_eq h hc hc'
      refine ⟨hsame, fun hkind => ?_⟩
      obtain ⟨id, restart, tree, rfl, htree, htree'⟩ := hnested hkind
      rw [ChildTree.Started] at hstarted
      exact ih (show Omits (n + 1) spec spec' from .inr h) (htree.trans htree'.symm)
        (htree' ▸ hstarted)

/-- A supervisor that is started tells whether its settings are the same. -/
theorem sameSettings_of_eq {n : ℕ} {m m' : Term} (h : Omits n m m') {fresh : List ℕ → ℤ}
    (heq : startLink sys t fresh baseDir m = startLink sys t fresh baseDir m')
    (hstarted : (startLink sys t fresh baseDir m').AllStarted) : SameSettings m m' := by
  induction n generalizing m m' fresh with
  | zero =>
    obtain rfl : m = m' := h
    exact .same m
  | succ n ih =>
    rcases h with rfl | h
    · exact .same m
    · generalize htree : startLink sys t fresh baseDir m' = tree at heq hstarted
      cases tree with
      | failed name reason => exact absurd hstarted (by simp [SupervisorTree.AllStarted])
      | started name flags children =>
        rw [SupervisorTree.AllStarted] at hstarted
        obtain ⟨hflags, specs, hspecs, hchildren⟩ := of_startLink_eq heq
        obtain ⟨hflags', specs', hspecs', hchildren'⟩ := of_startLink_eq htree
        have hpair : (m.get? "children" = none ↔ m'.get? "children" = none) ∧
            ∀ (i : ℕ) (child child' : Term), (childrenOf m)[i]? = some child →
              (childrenOf m')[i]? = some child' → SameChild child child' ∧
                (isSupervisor child = true → SameSettings child child') := by
          have hkey := h.key "children"
          unfold childrenOf
          generalize m.get? "children" = given at hkey hspecs
          generalize m'.get? "children" = given' at hkey hspecs'
          cases hkey with
          | same =>
            refine ⟨Iff.rfl, fun i child child' hi hi' => ?_⟩
            obtain rfl := Option.some.inj (hi.symm.trans hi')
            exact ⟨.refl child, fun _ => .same child⟩
          | left => cases hspecs
          | @children _ cs cs' hcs =>
            cases hspecs
            cases hspecs'
            refine ⟨by simp, fun i child child' hi hi' => ?_⟩
            obtain ⟨homits, node, hmem, hnode, hnode'⟩ :=
              of_childTrees_eq hcs hchildren hchildren' hi hi'
            exact sameChild_of_eq (fun h => ih h) homits hnode hnode' (hstarted.of_mem hmem)
        obtain ⟨hgiven, hpair⟩ := hpair
        refine .node ?_ hgiven (fun i c c' hi hi' => (hpair i c c' hi hi').1.id)
          (fun i c c' hi hi' => (hpair i c c' hi hi').1.worker)
          fun i c c' hi hi' => (hpair i c c' hi hi').2
        obtain ⟨-, hrestarts, hseconds⟩ := SupervisorFlags.mk.inj (hflags.symm.trans hflags')
        rintro key hmem
        rcases List.mem_pair.mp hmem with rfl | rfl
        · exact (h.key "maxRestarts").eq_of_orElse (by decide) hrestarts
        · exact (h.key "maxSeconds").eq_of_orElse (by decide) hseconds

end Tree

/-! ## The runs -/

section Run

variable {s : Starter} {p : ProcState} {m m' : Term}

/-- What a call comes to after an attempt to start a process: its reply, and the caller linked with
the process where `linked` or `link` says so. -/
def attempted (s : Starter) (answer : Except Term (Except Term Pid)) (start : Start)
    (linked link : Bool) (reply : Pid → Term) : Except Term Term × StartLog :=
  match answer with
  | .ok (.ok pid) => (.ok (reply pid), ⟨[start], if linked || link then [pid] else []⟩)
  | .ok (.error reason) => (.ok (inspectError s.base reason), ⟨[], []⟩)
  | .error reason => (.error reason, ⟨[], []⟩)

/-- The pid of a process as a handle. -/
def handleOf (s : Starter) (pid : Pid) : Term := serializePid s.base.maps s.base.pids pid

/-- `%{"ok" => pid}`. -/
def okHandle (s : Starter) (pid : Pid) : Term := s.base.maps.single "ok" (handleOf s pid)

/-- The name that a process is to be registered under. -/
def nameOf (m : Term) : Term := (m.get? "name").getD .null

/-- An attempt to start a process, and how the clause goes on with the answer. -/
theorem run_record {α : Type} (answer : Except Term (Except Term Pid)) (start : Start)
    (linked : Bool) (next : Except Term Pid → Callback StartLog α) :
    (Callback.otp (Starter.record answer start linked) >>= next).run worldOp ⟨[], []⟩ =
      match answer with
      | .ok (.ok pid) => (next (.ok pid)).run worldOp (StartLog.add ⟨[], []⟩ start linked pid)
      | .ok (.error reason) => (next (.error reason)).run worldOp ⟨[], []⟩
      | .error reason => (.error reason, ⟨[], []⟩) := by
  cases answer with
  | error reason => rfl
  | ok answer => cases answer <;> rfl

/-- The reply of `start_gen_server` and `start_supervisor`, with a link where one is asked for. -/
theorem run_startedReply (link : Term) (pid : Pid) (log : StartLog) :
    (startedReply s.otp link pid p).run worldOp log =
      (.ok (okHandle s pid, p),
        { log with links := if link.truthy then log.links.insert pid else log.links }) := by
  unfold startedReply
  cases link.truthy <;> rfl

/-- The clauses of `spawn` and `spawn_link`. -/
theorem spawn_clause (hm : ∃ entries, m = .map entries) (link : Bool) (source : Term) :
    dispatchHostCall s.otp (OptionCall.spawn link source).fn
      ((OptionCall.spawn link source).args m) p =
      (Callback.otp (Starter.record (s.process ⟨source, p.baseDir, nameOf m⟩)
        (.process ⟨source, p.baseDir, nameOf m⟩) false) >>= fun
        | .ok pid => do
          if link then Callback.otp (s.otp.link (.pid pid))
          .ret (handleOf s pid, p)
        | .error reason => .ret (inspectError s.otp reason, p)) := by
  obtain ⟨entries, rfl⟩ := hm
  cases link <;> rfl

theorem run_spawn (hm : ∃ entries, m = .map entries) (link : Bool) (source : Term) :
    (OptionCall.spawn link source).run s p m =
      attempted s (s.process ⟨source, p.baseDir, nameOf m⟩) (.process ⟨source, p.baseDir, nameOf m⟩)
        false link (handleOf s) := by
  rw [OptionCall.run, spawn_clause hm, run_record]
  generalize s.process ⟨source, p.baseDir, nameOf m⟩ = answer
  cases answer with
  | error reason => rfl
  | ok answer =>
    cases answer with
    | error reason => rfl
    | ok pid => cases link <;> rfl

/-- The clause of `start_gen_server`. -/
theorem startGenServer_clause (hm : ∃ entries, m = .map entries) (className source args : Term) :
    dispatchHostCall s.otp (OptionCall.startGenServer className source args).fn
      ((OptionCall.startGenServer className source args).args m) p = (do
      let source ← Callback.ofExcept (s.base.interpolate source)
      let className ← Callback.ofExcept (s.base.interpolate className)
      let args ← Callback.ofExcept (s.base.jsonEncode args)
      let opts : SpawnOpts := ⟨.binary (genServerSource className source args), p.baseDir, nameOf m⟩
      match ← Callback.otp (Starter.record (s.process opts) (.process opts) false) with
      | .ok pid => startedReply s.otp ((m.get? "link").getD .null) pid p
      | .error reason => .ret (inspectError s.otp reason, p)) := by
  obtain ⟨entries, rfl⟩ := hm
  rfl

/-- Either the source cannot be built, or it does not depend on the options. -/
theorem run_startGenServer (s : Starter) (p : ProcState) (className source args : Term) :
    (∃ reason, ∀ m, (∃ entries, m = .map entries) →
      (OptionCall.startGenServer className source args).run s p m = (.error reason, ⟨[], []⟩)) ∨
    ∃ fullSource, ∀ m, (∃ entries, m = .map entries) →
      (OptionCall.startGenServer className source args).run s p m =
        attempted s (s.process ⟨.binary fullSource, p.baseDir, nameOf m⟩)
          (.process ⟨.binary fullSource, p.baseDir, nameOf m⟩)
          false ((m.get? "link").getD .null).truthy (okHandle s) := by
  cases hsource : s.base.interpolate source with
  | error reason =>
    refine .inl ⟨reason, fun m hm => ?_⟩
    rw [OptionCall.run, startGenServer_clause hm, hsource]
    rfl
  | ok source' =>
    cases hclass : s.base.interpolate className with
    | error reason =>
      refine .inl ⟨reason, fun m hm => ?_⟩
      rw [OptionCall.run, startGenServer_clause hm, hsource, hclass]
      rfl
    | ok className' =>
      cases hargs : s.base.jsonEncode args with
      | error reason =>
        refine .inl ⟨reason, fun m hm => ?_⟩
        rw [OptionCall.run, startGenServer_clause hm, hsource, hclass, hargs]
        rfl
      | ok args' =>
        refine .inr ⟨genServerSource className' source' args', fun m hm => ?_⟩
        rw [OptionCall.run, startGenServer_clause hm, hsource, hclass, hargs]
        simp only [Callback.ofExcept, Program.ret_bind]
        rw [run_record]
        generalize s.process _ = answer
        cases answer with
        | error reason => rfl
        | ok answer =>
          cases answer with
          | error reason => rfl
          | ok pid =>
            simp only [run_startedReply, attempted]
            cases ((m.get? "link").getD .null).truthy <;> rfl

/-- The name that an agent is registered under, if there is one. -/
def agentName (m : Term) : Option Term :=
  match nameOf m with
  | .atom "nil" => none
  | name => some name

theorem run_agentStart (hm : ∃ entries, m = .map entries) (initialValue : Term) :
    (OptionCall.agentStart initialValue).run s p m =
      attempted s (s.agent initialValue (agentName m)) (.agent initialValue (agentName m))
        true false (okHandle s) := by
  obtain ⟨entries, rfl⟩ := hm
  have hclause : dispatchHostCall s.otp (OptionCall.agentStart initialValue).fn
      ((OptionCall.agentStart initialValue).args (.map entries)) p =
      (Callback.otp (Starter.record (s.agent initialValue (agentName (.map entries)))
        (.agent initialValue (agentName (.map entries))) true) >>= fun
        | .ok pid => .ret (okHandle s pid, p)
        | .error reason => .ret (inspectError s.otp reason, p)) := rfl
  rw [OptionCall.run, hclause, run_record]
  generalize s.agent initialValue _ = answer
  cases answer with
  | error reason => rfl
  | ok answer => cases answer <;> rfl

theorem run_startSupervisor (hm : ∃ entries, m = .map entries) :
    OptionCall.startSupervisor.run s p m =
      attempted s (s.supervisor (startLink s.base s.tables s.fresh p.baseDir m))
        (.supervisor (startLink s.base s.tables s.fresh p.baseDir m)) true
        ((m.get? "link").getD .null).truthy (okHandle s) := by
  obtain ⟨entries, rfl⟩ := hm
  have hclause : dispatchHostCall s.otp OptionCall.startSupervisor.fn
      (OptionCall.startSupervisor.args (.map entries)) p =
      (Callback.otp (Starter.record
        (s.supervisor (startLink s.base s.tables s.fresh p.baseDir (.map entries)))
        (.supervisor (startLink s.base s.tables s.fresh p.baseDir (.map entries))) true) >>= fun
        | .ok pid => startedReply s.otp (((Term.map entries).get? "link").getD .null) pid p
        | .error reason => .ret (inspectError s.otp reason, p)) := rfl
  rw [OptionCall.run, hclause, run_record]
  generalize s.supervisor _ = answer
  cases answer with
  | error reason => rfl
  | ok answer =>
    cases answer with
    | error reason => rfl
    | ok pid =>
      simp only [run_startedReply, attempted]
      cases (((Term.map entries).get? "link").getD .null).truthy <;>
        simp [StartLog.add, List.insert, Except.map]

/-- Two attempts that come to the same, of which one starts a process, start the same process. -/
theorem of_attempted_eq {answer answer' : Except Term (Except Term Pid)} {start start' : Start}
    {linked link link' : Bool} {reply : Pid → Term}
    (h : attempted s answer start linked link reply = attempted s answer' start' linked link' reply)
    (hstarted : (attempted s answer' start' linked link' reply).2.started ≠ []) :
    ∃ pid, answer' = .ok (.ok pid) ∧ start = start' ∧ (linked || link) = (linked || link') := by
  cases answer' with
  | error reason => exact absurd rfl hstarted
  | ok answer' =>
    cases answer' with
    | error reason => exact absurd rfl hstarted
    | ok pid =>
      have hlog := congrArg Prod.snd h
      cases answer with
      | error reason => exact absurd (congrArg StartLog.started hlog) (by simp [attempted])
      | ok answer =>
        cases answer with
        | error reason => exact absurd (congrArg StartLog.started hlog) (by simp [attempted])
        | ok pid' =>
          have hstart := congrArg StartLog.started hlog
          have hlinks := congrArg StartLog.links hlog
          refine ⟨pid, rfl, by simpa [attempted] using hstart, ?_⟩
          simp only [attempted] at hlinks
          cases hl : linked || link <;> cases hl' : linked || link' <;> simp_all

/-- A key that an attempt reads is in both maps or in neither. -/
theorem agreeOn_singleton {key : String} (h : m.get? key = m'.get? key) : AgreeOn [key] m m' := by
  intro k hk
  obtain rfl := List.mem_singleton.mp hk
  exact h

/-- Calls that agree on the keys that matter do the same. -/
theorem run_congr {n : ℕ} (h : Omits n m m') (call : OptionCall) (hagree : call.Agree m m') :
    call.run s p m = call.run s p m' := by
  by_cases heq : m = m'
  · rw [heq]
  · obtain ⟨k, hkeys⟩ := h.keys heq
    cases call with
    | spawn link source =>
      have hname : nameOf m = nameOf m' := by rw [nameOf, nameOf, hagree "name" (by simp)]
      rw [run_spawn hkeys.map, run_spawn hkeys.map', hname]
    | startGenServer className source args =>
      have hname : nameOf m = nameOf m' := by rw [nameOf, nameOf, hagree "name" (by simp)]
      rcases run_startGenServer s p className source args with ⟨reason, hrun⟩ | ⟨fullSource, hrun⟩
      · rw [hrun m hkeys.map, hrun m' hkeys.map']
      · rw [hrun m hkeys.map, hrun m' hkeys.map', hname, hagree "link" (by simp)]
    | agentStart initialValue =>
      have hname : agentName m = agentName m' := by
        rw [agentName, agentName, nameOf, nameOf, hagree "name" (by simp)]
      rw [run_agentStart hkeys.map, run_agentStart hkeys.map', hname]
    | startSupervisor =>
      rw [run_startSupervisor hkeys.map, run_startSupervisor hkeys.map',
        startLink_congr h hagree s.fresh]
      -- the caller is linked to the supervisor from the start
      simp only [attempted, Bool.true_or]

/-- A call that starts a process tells whether the keys that matter are the same. -/
theorem agree_of_run_eq {n : ℕ} (h : Omits n m m') (call : OptionCall)
    (hrun : call.run s p m = call.run s p m') (hstarts : (call.run s p m').2.started ≠ []) :
    call.Agree m m' := by
  by_cases heq : m = m'
  · subst heq
    cases call with
    | startSupervisor => exact .same m
    | _ => exact fun _ _ => rfl
  · obtain ⟨k, hkeys⟩ := h.keys heq
    have hname : nameOf m = nameOf m' → m.get? "name" = m'.get? "name" := fun heq =>
      (hkeys.key "name").eq_of_congr (by decide) (f := fun given => given.getD .null)
        (by simp [Term.null]) heq
    cases call with
    | spawn link source =>
      rw [run_spawn hkeys.map, run_spawn hkeys.map'] at hrun
      rw [run_spawn hkeys.map'] at hstarts
      obtain ⟨pid, -, hstart, -⟩ := of_attempted_eq hrun hstarts
      exact agreeOn_singleton (hname (SpawnOpts.mk.inj (Start.process.inj hstart)).2.2)
    | startGenServer className source args =>
      rcases run_startGenServer s p className source args with ⟨reason, hall⟩ | ⟨fullSource, hall⟩
      · rw [hall m' hkeys.map'] at hstarts
        exact absurd rfl hstarts
      · rw [hall m hkeys.map, hall m' hkeys.map'] at hrun
        rw [hall m' hkeys.map'] at hstarts
        obtain ⟨pid, -, hstart, hlink⟩ := of_attempted_eq hrun hstarts
        intro key hkey
        rcases List.mem_pair.mp hkey with rfl | rfl
        · exact hname (SpawnOpts.mk.inj (Start.process.inj hstart)).2.2
        · exact (hkeys.key "link").eq_of_congr (by decide)
            (f := fun given => (given.getD .null).truthy) (by decide) hlink
    | agentStart initialValue =>
      rw [run_agentStart hkeys.map, run_agentStart hkeys.map'] at hrun
      rw [run_agentStart hkeys.map'] at hstarts
      obtain ⟨pid, -, hstart, -⟩ := of_attempted_eq hrun hstarts
      refine agreeOn_singleton ((hkeys.key "name").eq_of_congr (by decide)
        (f := fun given => match given.getD .null with
          | .atom "nil" => none
          | name => some name) (by simp [Term.null]) (Start.agent.inj hstart).2)
    | startSupervisor =>
      rw [run_startSupervisor hkeys.map, run_startSupervisor hkeys.map'] at hrun
      rw [run_startSupervisor hkeys.map'] at hstarts
      obtain ⟨pid, hanswer, hstart, -⟩ := of_attempted_eq hrun hstarts
      exact sameSettings_of_eq h (Start.supervisor.inj hstart) (s.allStarted _ pid hanswer)

/-- Leaving out keys that are undefined makes no difference where it is harmless, and where it makes
none to a call that starts a process without the keys, it is harmless. -/
theorem runFrom_leavesOut (s : Starter) (p : ProcState) (call : OptionCall) {n : ℕ} {o o' : JsValue}
    (h : LeavesOut n o o') :
    (call.Harmless s.base.maps o o' → call.runFrom s p o = call.runFrom s p o') ∧
    (call.Starts s p o' →
      (call.runFrom s p o = call.runFrom s p o' ↔ call.Harmless s.base.maps o o')) := by
  have hrel := rel_of_leavesOut s.base.maps h
  unfold OptionCall.Starts OptionCall.Harmless OptionCall.runFrom
  generalize jsValueToErl s.base.maps o = given at hrel ⊢
  generalize jsValueToErl s.base.maps o' = given' at hrel ⊢
  cases hrel with
  | none => exact ⟨fun _ => rfl, fun ⟨_, _, hno, _⟩ => by cases hno⟩
  | @some m m' homits =>
    have hsame : (∀ m₁ m₂, some m = some m₁ → some m' = some m₂ → call.Agree m₁ m₂) →
        call.run s p m = call.run s p m' := fun hagree =>
      run_congr homits call (hagree m m' rfl rfl)
    refine ⟨fun hagree => congrArg some (hsame hagree), ?_⟩
    rintro ⟨reply, log, hrun', hstarts⟩
    have hlog : (call.run s p m').2.started ≠ [] := by
      rw [Option.some.inj hrun']
      exact hstarts
    constructor
    · intro heq m₁ m₂ h₁ h₂
      obtain rfl := Option.some.inj h₁
      obtain rfl := Option.some.inj h₂
      exact agree_of_run_eq homits call (Option.some.inj heq) hlog
    · exact fun hagree => congrArg some (hsame hagree)

end Run

/-! ## Samples -/

/-- A system in which processes start unless their name is `:undefined`, and supervisors without
children. -/
def sampleStarter : Starter where
  base := namingOtp
  tables := .ascii
  fresh := countedIds.value
  process opts :=
    match opts.name with
    | .atom "undefined" => .ok (.error (.tuple [.atom "already_started", .atom "undefined"]))
    | _ => .ok (.ok 7)
  agent _ _ := .ok (.ok 7)
  supervisor
    | .started _ _ [] => .ok (.ok 7)
    | _ => .ok (.error (.atom "shutdown"))
  allStarted tree pid h := by
    split at h
    · simp [SupervisorTree.AllStarted, ChildTree.AllStarted]
    · cases h

/-- The state of a process that has just started. -/
def plainProc : ProcState := ⟨none, bytes "<eval>", bytes "/", [], false, .null⟩

/-- `{strategy: undefined, children: []}` starts the same supervisor as `{children: []}`. -/
theorem startSupervisor_leavesOut_strategy :
    OptionCall.startSupervisor.runFrom sampleStarter plainProc
      (.object none [(js "strategy", .undefined), (js "children", .array [])]) =
    OptionCall.startSupervisor.runFrom sampleStarter plainProc
      (.object none [(js "children", .array [])]) := by
  have h : LeavesOut 1 (.object none [(js "strategy", .undefined), (js "children", .array [])])
      (.object none [(js "children", .array [])]) :=
    .inr ⟨_, _, rfl, rfl, ⟨by decide, by decide⟩, .left _ (.children .nil .nil)⟩
  refine (runFrom_leavesOut sampleStarter plainProc .startSupervisor h).1 ?_
  intro m m' hm hm'
  have hspec : jsValueToErl sampleStarter.base.maps
      (.object none [(js "strategy", .undefined), (js "children", .array [])]) =
      some (.map [(.binary (bytes "strategy"), .atom "undefined"),
        (.binary (bytes "children"), .list [])]) := rfl
  have hspec' : jsValueToErl sampleStarter.base.maps
      (.object none [(js "children", .array [])]) =
      some (.map [(.binary (bytes "children"), .list [])]) := rfl
  obtain rfl := Option.some.inj (hm.symm.trans hspec)
  obtain rfl := Option.some.inj (hm'.symm.trans hspec')
  have hnone : childrenOf (.map [(.binary (bytes "strategy"), .atom "undefined"),
      (.binary (bytes "children"), .list [])]) = [] := rfl
  refine .node ?_ (iff_of_false (fun h => nomatch h) fun h => nomatch h) ?_ ?_ ?_
  · intro key hkey
    have hmissing : ∀ key ∈ ["maxRestarts", "maxSeconds"],
        (Term.map [(.binary (bytes "strategy"), .atom "undefined"),
          (.binary (bytes "children"), .list [])]).get? key = none ∧
        (Term.map [(.binary (bytes "children"), .list [])]).get? key = none := by decide
    obtain ⟨hleft, hright⟩ := hmissing key hkey
    exact hleft.trans hright.symm
  all_goals
    intro i child child' hi
    rw [hnone] at hi
    simp at hi

/-- `spawn(source, {name: undefined})` starts no process, unlike `spawn(source, {})`. -/
theorem spawn_keeps_undefined_name :
    LeavesOut 1 (.object none [(js "name", .undefined)]) (.object none []) ∧
    (OptionCall.spawn false (.binary (bytes "1"))).runFrom sampleStarter plainProc
      (.object none [(js "name", .undefined)]) ≠
    (OptionCall.spawn false (.binary (bytes "1"))).runFrom sampleStarter plainProc
      (.object none []) := by
  refine ⟨.inr ⟨_, _, rfl, rfl, ⟨by decide, by decide⟩, .left _ .nil⟩, fun h => ?_⟩
  have hstarted := congrArg (Option.map fun run => run.2.started.length) h
  exact absurd hstarted (by decide)

end BeamJS
