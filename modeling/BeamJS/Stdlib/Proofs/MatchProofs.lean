import BeamJS.Stdlib.Match
import BeamJS.Js.Proofs.ValueProofs

/-!
# Proofs: `beamjs:match`

`matchPattern` decides the pattern language and assigns the bindings from left to right. The object
that it fills is the one with these bindings unless one of them is named `__proto__`. From this, the
loop over the clauses follows the selection exactly for the clauses that are `ProtoFree`.
-/

namespace BeamJS

open Lib JsValue

/-- Induction over a pattern with the patterns in it. -/
@[elab_as_elim]
theorem Pattern.induction_on {P : Pattern → Prop} (wildcard : P .wildcard) (rest : P .rest)
    (bind : ∀ name, P (.bind name)) (guard : ∀ id f, P (.guard id f)) (prim : ∀ v, P (.prim v))
    (array : ∀ elems, (∀ p ∈ elems, P p) → P (.array elems))
    (object : ∀ props, (∀ e ∈ props, P e.2) → P (.object props)) (p : Pattern) : P p := by
  refine @Pattern.rec P (fun ps => ∀ p ∈ ps, P p) (fun ps => ∀ e ∈ ps, P e.2) (fun e => P e.2)
    wildcard rest bind guard prim array object ?_ ?_ ?_ ?_ ?_ p
  · simp
  · intro q qs hq hqs
    simpa using ⟨hq, hqs⟩
  · simp
  · intro e es he hes
    simpa using ⟨he, fun a b hab => hes (a, b) hab⟩
  · intro k q hq
    exact hq

section Matches

variable {realm : Realm}

/-! ## The pattern language, one pattern at a time -/

theorem matches_wildcard {v : JsValue} {bs : List (JsString × JsValue)} :
    Matches realm v .wildcard bs ↔ bs = [] := by
  constructor
  · rintro ⟨⟩
    rfl
  · rintro rfl
    exact .wildcard v

theorem matches_bind {v : JsValue} {name : JsString} {bs : List (JsString × JsValue)} :
    Matches realm v (.bind name) bs ↔ bs = [(name, v)] := by
  constructor
  · rintro ⟨⟩
    rfl
  · rintro rfl
    exact .bind v name

theorem matches_guard {v : JsValue} {id : ℕ} {f : JsValue → JsValue}
    {bs : List (JsString × JsValue)} :
    Matches realm v (.guard id f) bs ↔ (f v).truthy = true ∧ bs = [] := by
  constructor
  · rintro (_ | _ | ⟨_, h⟩)
    exact ⟨h, rfl⟩
  · rintro ⟨h, rfl⟩
    exact .guard id h

theorem matches_prim {v p : JsValue} {bs : List (JsString × JsValue)} :
    Matches realm v (.prim p) bs ↔ v.strictEq p = true ∧ bs = [] := by
  constructor
  · rintro (_ | _ | _ | h)
    exact ⟨h, rfl⟩
  · rintro ⟨h, rfl⟩
    exact .prim h

theorem matches_rest {v : JsValue} {bs : List (JsString × JsValue)} :
    Matches realm v .rest bs ↔ v.strictEq restSymbol = true ∧ bs = [] := by
  constructor
  · rintro (_ | _ | _ | _ | h)
    exact ⟨h, rfl⟩
  · rintro ⟨h, rfl⟩
    exact .restSymbol h

theorem matches_object {v : JsValue} {props : List (JsString × Pattern)}
    {bs : List (JsString × JsValue)} :
    Matches realm v (.object props) bs ↔ v.typeofObject = true ∧ PropsMatch realm v props bs := by
  constructor
  · intro h
    cases h with
    | object hv h => exact ⟨hv, h⟩
  · rintro ⟨hv, h⟩
    exact .object hv h

theorem matches_array {v : JsValue} {elems : List Pattern} {bs : List (JsString × JsValue)} :
    Matches realm v (.array elems) bs ↔ ∃ vs, v = .array vs ∧ Matches realm (.array vs) (.array elems) bs := by
  constructor
  · intro h
    cases h with
    | array hrest h => exact ⟨_, rfl, .array hrest h⟩
    | arrayRest hrest h => exact ⟨_, rfl, .arrayRest hrest h⟩
  · rintro ⟨vs, rfl, h⟩
    exact h

theorem matches_array_nil {vs : List JsValue} {bs : List (JsString × JsValue)} :
    Matches realm (.array vs) (.array []) bs ↔ vs = [] ∧ bs = [] := by
  constructor
  · intro h
    generalize hp : Pattern.array [] = p at h
    cases h with
    | array hrest h =>
      cases hp
      cases h
      exact ⟨rfl, rfl⟩
    | arrayRest => simp at hp
    | _ => cases hp
  · rintro ⟨rfl, rfl⟩
    exact .array (by simp) .nil

theorem matches_array_rest {vs : List JsValue} {after : List Pattern}
    {bs : List (JsString × JsValue)} :
    Matches realm (.array vs) (.array (.rest :: after)) bs ↔ bs = restBindings after vs := by
  constructor
  · intro h
    generalize hp : Pattern.array (.rest :: after) = p at h
    cases h with
    | array hrest h =>
      cases hp
      exact absurd rfl (hrest .rest (List.mem_cons_self ..))
    | @arrayRest _ _ elems _ _ hrest h =>
      cases elems with
      | nil =>
        cases hp
        cases h
        rfl
      | cons p elems =>
        cases hp
        exact absurd rfl (hrest .rest (List.mem_cons_self ..))
    | _ => cases hp
  · rintro rfl
    exact @Matches.arrayRest realm [] vs [] after [] (by simp) .nil

theorem matches_array_cons {vs : List JsValue} {p : Pattern} {elems : List Pattern}
    {ds : List (JsString × JsValue)} (hp : p ≠ .rest) :
    Matches realm (.array vs) (.array (p :: elems)) ds ↔
      ∃ v vs' bs cs, vs = v :: vs' ∧ ds = bs ++ cs ∧ Matches realm v p bs ∧
        Matches realm (.array vs') (.array elems) cs := by
  constructor
  · intro h
    generalize hq : Pattern.array (p :: elems) = q at h
    cases h with
    | array hrest h =>
      cases hq
      cases h with
      | cons h hs => exact ⟨_, _, _, _, rfl, rfl, h, .array (List.forall_mem_cons.mp hrest).2 hs⟩
    | @arrayRest _ _ elems' _ _ hrest h =>
      cases elems' with
      | nil =>
        cases hq
        exact absurd rfl hp
      | cons p' elems' =>
        cases hq
        cases h with
        | cons h hs =>
          refine ⟨_, _, _, _, rfl, List.append_assoc .., h, ?_⟩
          exact .arrayRest (List.forall_mem_cons.mp hrest).2 hs
    | _ => cases hq
  · rintro ⟨v, vs', bs, cs, rfl, rfl, h, hs⟩
    generalize hq : Pattern.array elems = q at hs
    generalize hw : JsValue.array vs' = w at hs
    cases hs with
    | array hrest hs =>
      cases hq
      cases hw
      exact .array (List.forall_mem_cons.mpr ⟨hp, hrest⟩) (.cons h hs)
    | @arrayRest front left elems' after cs hrest hs =>
      cases hq
      cases hw
      have hm := @Matches.arrayRest realm _ left _ after _
        (List.forall_mem_cons.mpr ⟨hp, hrest⟩) (ElemsMatch.cons h hs)
      rwa [List.append_assoc] at hm
    | _ => cases hq

theorem propsMatch_cons {v : JsValue} {key : JsString} {p : Pattern}
    {props : List (JsString × Pattern)} {ds : List (JsString × JsValue)} :
    PropsMatch realm v ((key, p) :: props) ds ↔
      ∃ w bs cs, realm.get? key v = some w ∧ ds = bs ++ cs ∧ Matches realm w p bs ∧
        PropsMatch realm v props cs := by
  constructor
  · intro h
    cases h with
    | cons hget h hs => exact ⟨_, _, _, hget, rfl, h, hs⟩
  · rintro ⟨w, bs, cs, hget, rfl, h, hs⟩
    exact .cons hget h hs

/-- A value matches a pattern with one list of bindings at most. -/
theorem matches_unique {p : Pattern} {v : JsValue} {bs cs : List (JsString × JsValue)}
    (hb : Matches realm v p bs) (hc : Matches realm v p cs) : bs = cs := by
  induction p using Pattern.induction_on generalizing v bs cs with
  | wildcard => exact (matches_wildcard.mp hb).trans (matches_wildcard.mp hc).symm
  | rest => exact (matches_rest.mp hb).2.trans (matches_rest.mp hc).2.symm
  | bind name => exact (matches_bind.mp hb).trans (matches_bind.mp hc).symm
  | guard id f => exact (matches_guard.mp hb).2.trans (matches_guard.mp hc).2.symm
  | prim p => exact (matches_prim.mp hb).2.trans (matches_prim.mp hc).2.symm
  | array elems ih =>
    obtain ⟨vs, rfl, hb⟩ := matches_array.mp hb
    clear hb
    induction elems generalizing vs bs cs with
    | nil => exact (matches_array_nil.mp hb).2.trans (matches_array_nil.mp hc).2.symm
    | cons p elems ihs =>
      obtain ⟨hp, helems⟩ := List.forall_mem_cons.mp ih
      by_cases hrest : p = .rest
      · subst hrest
        exact (matches_array_rest.mp hb).trans (matches_array_rest.mp hc).symm
      · obtain ⟨v, vs', bs, bs', rfl, rfl, hbv, hbs⟩ := (matches_array_cons hrest).mp hb
        obtain ⟨w, ws', cs, cs', heq, rfl, hcv, hcs⟩ := (matches_array_cons hrest).mp hc
        cases heq
        rw [hp hbv hcv, ihs helems vs' hcs hbs]
  | object props ih =>
    rw [matches_object] at hb hc
    replace hb := hb.2
    replace hc := hc.2
    induction props generalizing bs cs with
    | nil =>
      cases hb
      cases hc
      rfl
    | cons e props ihs =>
      obtain ⟨key, p⟩ := e
      obtain ⟨hp, hprops⟩ := List.forall_mem_cons.mp ih
      obtain ⟨w, bs, bs', hget, rfl, hbw, hbs⟩ := propsMatch_cons.mp hb
      obtain ⟨w', cs, cs', hget', rfl, hcw, hcs⟩ := propsMatch_cons.mp hc
      cases hget.symm.trans hget'
      rw [hp hbw hcw, ihs hprops hbs hcs]

end Matches

section MatchPattern

variable {realm : Realm}

/-- `matchPattern` succeeds on the values that match, with the bindings assigned in order. -/
def Decides (realm : Realm) (p : Pattern) : Prop :=
  ∀ v b r, matchPattern realm p v b = (true, r) ↔
    ∃ bs, Matches realm v p bs ∧ r = setProps b bs

theorem setProps_append (b : JsValue) (bs cs : List (JsString × JsValue)) :
    setProps b (bs ++ cs) = setProps (setProps b bs) cs := List.foldl_append

theorem matchElems_cons {p : Pattern} (hp : p ≠ .rest) (elems : List Pattern) (v : JsValue)
    (vs : List JsValue) (b : JsValue) :
    matchElems realm (p :: elems) (v :: vs) b =
      match matchPattern realm p v b with
      | (true, b) => matchElems realm elems vs b
      | (false, b) => (false, b) := by
  cases p with
  | rest => exact absurd rfl hp
  | _ => rfl

theorem matchElems_iff {elems : List Pattern} (ih : ∀ p ∈ elems, Decides realm p)
    (vs : List JsValue) (b r : JsValue) :
    matchElems realm elems vs b = (true, r) ↔
      ∃ bs, Matches realm (.array vs) (.array elems) bs ∧ r = setProps b bs := by
  induction elems generalizing vs b with
  | nil =>
    simp only [matchElems, Prod.mk.injEq, List.isEmpty_iff, matches_array_nil]
    constructor
    · rintro ⟨rfl, rfl⟩
      exact ⟨[], ⟨rfl, rfl⟩, rfl⟩
    · rintro ⟨bs, ⟨rfl, rfl⟩, rfl⟩
      exact ⟨rfl, rfl⟩
  | cons p elems ihs =>
    obtain ⟨hp, helems⟩ := List.forall_mem_cons.mp ih
    by_cases hrest : p = .rest
    · subst hrest
      simp only [matchElems, matches_array_rest, exists_eq_left]
      match elems with
      | .bind name :: _ => simp [restBindings, setProps, eq_comm]
      | [] | .wildcard :: _ | .rest :: _ | .guard _ _ :: _ | .prim _ :: _ | .array _ :: _
      | .object _ :: _ => simp [restBindings, setProps, eq_comm]
    rw [exists_congr fun ds => and_congr_left fun _ => matches_array_cons hrest]
    cases vs with
    | nil => simp [matchElems]
    | cons v vs =>
      rw [matchElems_cons hrest]
      constructor
      · intro h
        split at h
        · rename_i b' hb'
          obtain ⟨bs, hbs, rfl⟩ := (hp v b b').mp hb'
          obtain ⟨cs, hcs, rfl⟩ := (ihs helems vs _).mp h
          exact ⟨bs ++ cs, ⟨v, vs, bs, cs, rfl, rfl, hbs, hcs⟩, (setProps_append b bs cs).symm⟩
        · cases h
      · rintro ⟨ds, ⟨v', vs', bs, cs, heq, rfl, hbs, hcs⟩, rfl⟩
        cases heq
        rw [(hp v b _).mpr ⟨bs, hbs, rfl⟩]
        exact (ihs helems vs _).mpr ⟨cs, hcs, setProps_append b bs cs⟩

theorem matchProps_iff {props : List (JsString × Pattern)} (ih : ∀ e ∈ props, Decides realm e.2)
    (v b r : JsValue) :
    matchProps realm props v b = (true, r) ↔
      ∃ bs, PropsMatch realm v props bs ∧ r = setProps b bs := by
  induction props generalizing b with
  | nil =>
    simp only [matchProps, Prod.mk.injEq, true_and]
    constructor
    · rintro rfl
      exact ⟨[], .nil v, rfl⟩
    · rintro ⟨bs, ⟨⟩, rfl⟩
      rfl
  | cons e props ihs =>
    obtain ⟨key, p⟩ := e
    obtain ⟨hp, hprops⟩ := List.forall_mem_cons.mp ih
    rw [exists_congr fun ds => and_congr_left fun _ => propsMatch_cons]
    cases hget : realm.get? key v with
    | none => simp [matchProps, hget]
    | some w =>
      simp only [matchProps, hget]
      constructor
      · intro h
        split at h
        · rename_i b' hb'
          obtain ⟨bs, hbs, rfl⟩ := (hp w b b').mp hb'
          obtain ⟨cs, hcs, rfl⟩ := (ihs hprops _).mp h
          exact ⟨bs ++ cs, ⟨w, bs, cs, rfl, rfl, hbs, hcs⟩, (setProps_append b bs cs).symm⟩
        · cases h
      · rintro ⟨ds, ⟨w', bs, cs, heq, rfl, hbs, hcs⟩, rfl⟩
        cases heq
        rw [(hp w b _).mpr ⟨bs, hbs, rfl⟩]
        exact (ihs hprops _).mpr ⟨cs, hcs, setProps_append b bs cs⟩

/-- A test that binds nothing. -/
theorem test_iff {test : Bool} {b r : JsValue} :
    (test, b) = (true, r) ↔
      ∃ bs : List (JsString × JsValue), (test = true ∧ bs = []) ∧ r = setProps b bs := by
  constructor
  · intro h
    cases h
    exact ⟨[], ⟨rfl, rfl⟩, rfl⟩
  · rintro ⟨bs, ⟨rfl, rfl⟩, rfl⟩
    rfl

theorem matchPattern_iff (p : Pattern) : Decides realm p := by
  induction p using Pattern.induction_on with
  | wildcard =>
    intro v b r
    simp [matchPattern, matches_wildcard, setProps, eq_comm]
  | rest =>
    intro v b r
    rw [matchPattern, exists_congr fun bs => and_congr_left fun _ => matches_rest]
    exact test_iff
  | bind name =>
    intro v b r
    simp [matchPattern, matches_bind, setProps, eq_comm]
  | guard id f =>
    intro v b r
    rw [matchPattern, exists_congr fun bs => and_congr_left fun _ => matches_guard]
    exact test_iff
  | prim p =>
    intro v b r
    rw [matchPattern, exists_congr fun bs => and_congr_left fun _ => matches_prim]
    exact test_iff
  | array elems ih =>
    intro v b r
    rw [exists_congr fun bs => and_congr_left fun _ => matches_array]
    cases v with
    | array vs =>
      rw [matchPattern, matchElems_iff ih]
      simp
    | _ => simp [matchPattern]
  | object props ih =>
    intro v b r
    rw [exists_congr fun bs => and_congr_left fun _ => matches_object]
    cases hv : v.typeofObject with
    | true => simpa [matchPattern, hv] using matchProps_iff ih v b r
    | false => simp [matchPattern, hv]

end MatchPattern

/-! ## The object with the bindings -/

section Bindings

theorem mem_keys_defineProp {k k' : JsString} {v : JsValue} {props : List (JsString × JsValue)} :
    k' ∈ Assoc.keys (defineProp k v props) ↔ k' = k ∨ k' ∈ Assoc.keys props := by
  unfold defineProp
  split
  · rename_i hk
    rw [Assoc.keys_replace]
    constructor
    · exact .inr
    · rintro (rfl | h)
      · exact hk
      · exact h
  · rw [((insertProp_perm k v props).map Prod.fst).mem_iff]
    exact List.mem_cons

theorem mem_keys_bindings {k : JsString} {bs acc : List (JsString × JsValue)} :
    k ∈ Assoc.keys (bs.foldl (fun props b => defineProp b.1 b.2 props) acc) ↔
      k ∈ Assoc.keys acc ∨ k ∈ Assoc.keys bs := by
  induction bs generalizing acc with
  | nil => simp
  | cons b bs ih =>
    rw [List.foldl_cons, ih, mem_keys_defineProp, Assoc.keys, Assoc.keys, Assoc.keys, List.map_cons,
      List.mem_cons]
    tauto

/-- Assigning other names than `__proto__` defines the properties. -/
theorem setProps_of_notMem {bs : List (JsString × JsValue)} (acc : List (JsString × JsValue))
    (h : js "__proto__" ∉ Assoc.keys bs) :
    setProps (.object none acc) bs =
      .object none (bs.foldl (fun props b => defineProp b.1 b.2 props) acc) := by
  induction bs generalizing acc with
  | nil => rfl
  | cons b bs ih =>
    obtain ⟨hb, hbs⟩ : b.1 ≠ js "__proto__" ∧ js "__proto__" ∉ Assoc.keys bs := by
      simpa [eq_comm] using h
    have hstep : setProp (.object none acc) b.1 b.2 = .object none (defineProp b.1 b.2 acc) := by
      unfold defineProp
      by_cases hk : b.1 ∈ Assoc.keys acc
      · simp only [setProp, if_pos hk]
      · rw [setProp_new hk hb, if_neg hk]
    rw [setProps, List.foldl_cons, hstep, List.foldl_cons]
    exact ih (defineProp b.1 b.2 acc) hbs

/-- No assignment takes the prototype back to `Object.prototype`, and one of `__proto__` to an
object that has this prototype makes no property. -/
theorem setProp_proto {proto proto' : Option JsValue} {acc acc' : List (JsString × JsValue)}
    {k : JsString} {v : JsValue} (h : setProp (.object proto acc) k v = .object proto' acc')
    (hp : proto' = none) :
    proto = none ∧ (js "__proto__" ∈ Assoc.keys acc' → js "__proto__" ∈ Assoc.keys acc) := by
  subst hp
  rw [setProp] at h
  split at h
  · cases h
    exact ⟨rfl, by rw [Assoc.keys_replace]; exact id⟩
  split at h
  · unfold setProto at h
    split at h
    · cases h
    split at h
    · cases h
    · cases h
      exact ⟨rfl, id⟩
  · rename_i _ hne
    cases h
    refine ⟨rfl, fun hmem => ?_⟩
    rcases List.mem_cons.mp (((insertProp_perm k v acc).map Prod.fst).mem_iff.mp hmem) with hk | hk
    · exact absurd ⟨hk.symm, rfl⟩ hne
    · exact hk

theorem setProps_proto {bs : List (JsString × JsValue)} {proto : Option JsValue}
    {acc props : List (JsString × JsValue)}
    (h : setProps (.object proto acc) bs = .object none props) :
    proto = none ∧ (js "__proto__" ∈ Assoc.keys props → js "__proto__" ∈ Assoc.keys acc) := by
  induction bs generalizing proto acc with
  | nil =>
    cases h
    exact ⟨rfl, id⟩
  | cons b bs ih =>
    rw [setProps, List.foldl_cons] at h
    obtain ⟨proto', acc', hstep⟩ : ∃ proto' acc',
        setProp (.object proto acc) b.1 b.2 = .object proto' acc' := by
      rcases setProp_cases proto acc b.1 b.2 with ⟨_, _, heq⟩ | ⟨proto', acc', heq, _⟩
      · exact ⟨_, _, heq⟩
      · exact ⟨_, _, heq⟩
    rw [hstep] at h
    obtain ⟨hp, hmem⟩ := ih h
    obtain ⟨hp', hmem'⟩ := setProp_proto hstep hp
    exact ⟨hp', fun hk => hmem' (hmem hk)⟩

theorem assigned_eq_iff (bs : List (JsString × JsValue)) :
    assigned bs = bindingsObject bs ↔ js "__proto__" ∉ Assoc.keys bs := by
  constructor
  · intro h hmem
    obtain ⟨_, hproto⟩ := setProps_proto h
    exact absurd (hproto (mem_keys_bindings.mpr (.inr hmem))) (by simp)
  · exact setProps_of_notMem []

end Bindings

/-! ## The loop over the clauses -/

section Loop

variable {realm : Realm} {value : JsValue}

theorem selects_zero {c : Clause} {clauses : List Clause} {bs : List (JsString × JsValue)}
    (h : Matches realm value c.pattern bs) (hguard : c.accepts (bindingsObject bs) = true) :
    Selects realm value (c :: clauses) 0 c bs :=
  ⟨rfl, h, hguard, fun _ _ _ hj => absurd hj (Nat.not_lt_zero _)⟩

/-- The clause `c` is passed over by the selection. -/
def Passed (realm : Realm) (value : JsValue) (c : Clause) : Prop :=
  ∀ bs, Matches realm value c.pattern bs → c.accepts (bindingsObject bs) = false

theorem selects_succ {c d : Clause} {clauses : List Clause} {i : ℕ} {bs : List (JsString × JsValue)}
    (hc : Passed realm value c) :
    Selects realm value (c :: clauses) (i + 1) d bs ↔ Selects realm value clauses i d bs := by
  constructor
  · intro h
    refine ⟨by simpa using h.at_place, h.pattern, h.guard, fun j c' bs' hj hat => ?_⟩
    exact h.first (j + 1) c' bs' (by omega) (by simpa using hat)
  · intro h
    refine ⟨by simpa using h.at_place, h.pattern, h.guard, fun j c' bs' hj hat => ?_⟩
    cases j with
    | zero =>
      obtain rfl : c = c' := by simpa using hat
      exact hc bs'
    | succ j => exact h.first j c' bs' (by omega) (by simpa using hat)

theorem not_selects_zero {c d : Clause} {clauses : List Clause} {bs : List (JsString × JsValue)}
    (hc : Passed realm value c) : ¬ Selects realm value (c :: clauses) 0 d bs := by
  intro h
  obtain rfl : c = d := by simpa using h.at_place
  have hguard := h.guard
  rw [hc bs h.pattern] at hguard
  cases hguard

/-- As `FollowsSelection`, for clauses whose places are counted from `n`. -/
def FollowsFrom (realm : Realm) (value : JsValue) (n : ℕ) (clauses : List Clause) (run : MatchRun) :
    Prop :=
  (∀ i c bs, Selects realm value clauses i c bs →
    run = ⟨[(n + i, bindingsObject bs)], .ok (c.handler (bindingsObject bs))⟩) ∧
  ((∀ i c bs, ¬ Selects realm value clauses i c bs) →
    run = ⟨[], .error (js "No matching clause for: " ++ realm.stringify value)⟩)

theorem followsFrom_passed {c : Clause} {clauses : List Clause} {n : ℕ} {run : MatchRun}
    (hc : Passed realm value c) :
    FollowsFrom realm value n (c :: clauses) run ↔ FollowsFrom realm value (n + 1) clauses run := by
  have hnone : (∀ i d bs, ¬ Selects realm value (c :: clauses) i d bs) ↔
      ∀ i d bs, ¬ Selects realm value clauses i d bs := by
    constructor
    · intro h i d bs hsel
      exact h (i + 1) d bs ((selects_succ hc).mpr hsel)
    · intro h i d bs hsel
      cases i with
      | zero => exact not_selects_zero hc hsel
      | succ i => exact h i d bs ((selects_succ hc).mp hsel)
  unfold FollowsFrom
  rw [hnone]
  refine and_congr_left fun _ => ⟨fun h i d bs hsel => ?_, fun h i d bs hsel => ?_⟩
  · rw [h (i + 1) d bs ((selects_succ hc).mpr hsel), Nat.add_assoc, Nat.add_comm 1 i]
  · cases i with
    | zero => exact absurd hsel (not_selects_zero hc)
    | succ i => rw [h i d bs ((selects_succ hc).mp hsel), Nat.add_assoc, Nat.add_comm 1 i]

theorem calls_ge (test : Pattern → JsValue → JsValue → Bool × JsValue) (message : JsString)
    (n : ℕ) (clauses : List Clause) :
    ∀ call ∈ (clauseLoop realm test message value n clauses).calls, n ≤ call.1 := by
  induction clauses generalizing n with
  | nil => simp [clauseLoop]
  | cons c clauses ih =>
    intro call hcall
    rw [clauseLoop] at hcall
    split at hcall
    · split at hcall
      · obtain rfl : call = (n, _) := by simpa using hcall
        exact Nat.le_refl n
      · exact Nat.le_of_succ_le (ih (n + 1) call hcall)
    · exact Nat.le_of_succ_le (ih (n + 1) call hcall)

/-- The loop of `match` from the place `n` on. -/
abbrev matchFrom (realm : Realm) (value : JsValue) (n : ℕ) (clauses : List Clause) : MatchRun :=
  clauseLoop realm (matchPattern realm) (js "No matching clause for: ") value n clauses

/-- One turn of the loop on a clause whose pattern matches. -/
theorem matchFrom_matches {c : Clause} {clauses : List Clause} {bs : List (JsString × JsValue)}
    (h : Matches realm value c.pattern bs) (n : ℕ) :
    matchFrom realm value n (c :: clauses) =
      if c.accepts (assigned bs) then ⟨[(n, assigned bs)], .ok (c.handler (assigned bs))⟩
      else matchFrom realm value (n + 1) clauses := by
  have hrun : matchPattern realm c.pattern value emptyObject = (true, assigned bs) :=
    (matchPattern_iff c.pattern value emptyObject _).mpr ⟨bs, h, rfl⟩
  rw [matchFrom, clauseLoop, hrun]

theorem matchFrom_fails {c : Clause} {clauses : List Clause}
    (h : ∀ bs, ¬ Matches realm value c.pattern bs) (n : ℕ) :
    matchFrom realm value n (c :: clauses) = matchFrom realm value (n + 1) clauses := by
  rw [matchFrom, clauseLoop]
  split
  · rename_i b hb
    obtain ⟨bs, hbs, _⟩ := (matchPattern_iff c.pattern value emptyObject b).mp hb
    exact absurd hbs (h bs)
  · rfl

theorem protoFree_passed {c : Clause} {clauses : List Clause} (hc : Passed realm value c)
    (ha : ∀ bs, Matches realm value c.pattern bs → c.accepts (assigned bs) = false) :
    ProtoFree realm value (c :: clauses) ↔ ProtoFree realm value clauses := by
  constructor
  · intro h
    cases h with
    | taken h hguard => simp [hc _ h] at hguard
    | passed _ hs => exact hs
  · exact .passed fun bs hbs => ⟨hc bs hbs, ha bs hbs⟩

/-- A clause that the selection takes: the loop takes it with the same object, or its pattern binds
`__proto__` and the loop makes another object or goes on. -/
theorem follows_taken {c : Clause} {clauses : List Clause} {bs : List (JsString × JsValue)}
    (h : Matches realm value c.pattern bs) (hguard : c.accepts (bindingsObject bs) = true) (n : ℕ) :
    FollowsFrom realm value n (c :: clauses) (matchFrom realm value n (c :: clauses)) ↔
      js "__proto__" ∉ Assoc.keys bs := by
  have hsel : Selects realm value (c :: clauses) 0 c bs := selects_zero h hguard
  rw [← assigned_eq_iff, matchFrom_matches h]
  constructor
  · intro hfollows
    have hrun := hfollows.1 0 c bs hsel
    split at hrun
    · injection hrun with hcalls
      simpa using hcalls
    · -- the calls of the rest of the loop have later places
      have hmem : (n, bindingsObject bs) ∈ (matchFrom realm value (n + 1) clauses).calls := by
        rw [hrun]
        exact List.mem_singleton.mpr rfl
      exact absurd (calls_ge _ _ (n + 1) clauses _ hmem) (Nat.not_succ_le_self n)
  · intro heq
    rw [heq, if_pos hguard]
    refine ⟨fun i d cs hsel' => ?_, fun hnone => absurd hsel (hnone 0 c bs)⟩
    cases i with
    | zero =>
      obtain rfl : c = d := by simpa using hsel'.at_place
      rw [matches_unique hsel'.pattern h, Nat.add_zero]
    | succ i =>
      have hfirst := hsel'.first 0 c bs (Nat.succ_pos i) rfl h
      rw [hguard] at hfirst
      cases hfirst

/-- The loop takes a clause that the selection passes over. -/
theorem not_follows_of_accepts {c : Clause} {clauses : List Clause} {bs : List (JsString × JsValue)}
    (h : Matches realm value c.pattern bs) (hc : Passed realm value c)
    (hguard : c.accepts (assigned bs) = true) (n : ℕ) :
    ¬ FollowsFrom realm value n (c :: clauses) (matchFrom realm value n (c :: clauses)) := by
  rw [matchFrom_matches h, if_pos hguard]
  rintro ⟨hsome, hnone⟩
  by_cases hex : ∃ i d cs, Selects realm value (c :: clauses) i d cs
  · obtain ⟨i, d, cs, hsel⟩ := hex
    cases i with
    | zero => exact not_selects_zero hc hsel
    | succ i => simpa using hsome (i + 1) d cs hsel
  · push Not at hex
    simpa using hnone hex

theorem follows_iff (n : ℕ) (clauses : List Clause) :
    FollowsFrom realm value n clauses (matchFrom realm value n clauses) ↔
      ProtoFree realm value clauses := by
  induction clauses generalizing n with
  | nil =>
    refine iff_of_true ⟨fun i c bs hsel => ?_, fun _ => rfl⟩ .nil
    simpa using hsel.at_place
  | cons c clauses ih =>
    by_cases hm : ∃ bs, Matches realm value c.pattern bs
    · obtain ⟨bs, hbs⟩ := hm
      have hall {P : List (JsString × JsValue) → Prop} (hP : P bs) :
          ∀ cs, Matches realm value c.pattern cs → P cs := by
        intro cs hcs
        rwa [matches_unique hcs hbs]
      cases hguard : c.accepts (bindingsObject bs) with
      | true =>
        rw [follows_taken hbs hguard]
        constructor
        · exact .taken hbs hguard
        · intro hfree
          cases hfree with
          | taken hcs _ hproto => rwa [matches_unique hbs hcs]
          | passed hrej =>
            rw [(hrej bs hbs).1] at hguard
            cases hguard
      | false =>
        have hc : Passed realm value c := hall hguard
        cases ha : c.accepts (assigned bs) with
        | true =>
          refine iff_of_false (not_follows_of_accepts hbs hc ha n) fun hfree => ?_
          cases hfree with
          | taken hcs hacc =>
            rw [hc _ hcs] at hacc
            cases hacc
          | passed hrej =>
            rw [(hrej bs hbs).2] at ha
            cases ha
        | false =>
          rw [matchFrom_matches hbs, ha, followsFrom_passed hc, protoFree_passed hc (hall ha)]
          exact ih (n + 1)
    · push Not at hm
      have hc : Passed realm value c := fun bs hbs => absurd hbs (hm bs)
      rw [matchFrom_fails hm, followsFrom_passed hc,
        protoFree_passed hc fun bs hbs => absurd hbs (hm bs)]
      exact ih (n + 1)

/-- `match` follows the selection for exactly the clauses that are `ProtoFree`. -/
theorem match_follows_iff (realm : Realm) (value : JsValue) (clauses : List Clause) :
    FollowsSelection realm value clauses (matchClauses realm value clauses) ↔
      ProtoFree realm value clauses := by
  rw [← follows_iff 0 clauses, FollowsFrom]
  simp only [Nat.zero_add]
  exact Iff.rfl

/-- `when(bind("__proto__"), b => b)`. -/
def protoClause : Clause := ⟨.bind (js "__proto__"), id, none⟩

/-- On the value 1 the handler of this clause is given an empty object. -/
theorem proto_binding_lost :
    ¬ FollowsSelection ⟨noBuiltins, fun _ => .null, fun _ => js "1"⟩ (.number (.int 1)) [protoClause]
      (matchClauses ⟨noBuiltins, fun _ => .null, fun _ => js "1"⟩ (.number (.int 1))
        [protoClause]) := by
  intro h
  have hrun := h.1 0 protoClause [(js "__proto__", .number (.int 1))]
    (selects_zero (.bind _ _) rfl)
  have hcalls := congrArg MatchRun.calls hrun
  have hempty : matchPattern ⟨noBuiltins, fun _ => .null, fun _ => js "1"⟩ protoClause.pattern
      (.number (.int 1)) emptyObject = (true, emptyObject) := rfl
  have hindex : arrayIndex? (js "__proto__") = none := by decide
  rw [matchClauses, clauseLoop, hempty] at hcalls
  simp [protoClause, Clause.accepts, emptyObject, bindingsObject, defineProp, insertProp,
    hindex] at hcalls

end Loop

end BeamJS
