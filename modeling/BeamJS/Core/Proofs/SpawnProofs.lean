import BeamJS.Core.Spawn
import Mathlib.Data.List.Count

/-!
# Proofs: when a spawned function runs once

A start evaluates the source of its call once, and so does every restart. The ledger keeps the calls
and the evaluations in step, and each step is examined for what it adds to an evaluation count.
-/

namespace BeamJS

open Lib

variable {sys : Otp Unit}

/-! ## One start -/

theorem initRun_none (baseDir : Bytes) (env : StartEnv) :
    initRun sys none baseDir env = (true, []) := rfl

/-- A function of OTP evaluates nothing. -/
theorem run_otp_log {α β : Type} {f : OtpFn Unit α} {next : α → Callback Unit β}
    {evaluated : Except Term Term} {log : List Bytes}
    (hnext : ∀ a, ((next a).run (initOp evaluated) log).2 = log) :
    ((Callback.otp f >>= next).run (initOp evaluated) log).2 = log := by
  have hop : initOp evaluated (.otp f) log = ((f ()).1, log) := rfl
  cases hf : (f ()).1 with
  | ok a =>
    rw [hf] at hop
    rw [Callback.otp, Program.run_lift_ok hop, hnext]
  | error reason =>
    rw [hf] at hop
    rw [Callback.otp, Program.run_lift_error hop]

theorem initRun_some (source baseDir : Bytes) (env : StartEnv) :
    (initRun sys (some source) baseDir env).2 = [source] := by
  have hlog : ((init sys ⟨some source, none, some baseDir⟩).run (initOp env.evaluated) []).2 =
      [source] := by
    simp only [init, initialState, Option.getD_none]
    cases hev : env.evaluated with
    | error reason => rfl
    | ok result =>
      have hop : initOp (.ok result) (.eval source (bytes "<spawn>")) [] = (.ok result, [source]) := rfl
      rw [Callback.eval, Program.run_lift_ok hop]
      split
      · rfl
      · exact run_otp_log fun _ => rfl
      · rfl
  rw [initRun]
  split
  · rename_i hrun
    rw [hrun] at hlog
    exact hlog
  · rename_i hrun
    rw [hrun] at hlog
    exact hlog

/-- A start without a source evaluates nothing and succeeds, and one with a source evaluates it. -/
inductive Starts (opts : SpawnOpts) (taken : Bool) : Bool × List Bytes → Prop
  | refused (h : registers opts.name taken = false) : Starts opts taken (false, [])
  | idle (h : registers opts.name taken = true) (hsource : opts.source.truthy = false) :
      Starts opts taken (true, [])
  | evaluates {source : Bytes} {up : Bool} (h : registers opts.name taken = true)
      (hsource : opts.source = .binary source) : Starts opts taken (up, [source])
  | raises (h : registers opts.name taken = true) (hsource : opts.source.truthy = true)
      (hbinary : ∀ b, opts.source ≠ .binary b) : Starts opts taken (false, [])

theorem startLink_starts (sys : Otp Unit) (opts : SpawnOpts) (env : StartEnv) :
    Starts opts env.nameTaken (startLink sys opts env) := by
  rw [startLink]
  split
  · rename_i hname
    split
    · rename_i source hsource
      rw [← Prod.eta (initRun _ _ _ _), initRun_some]
      exact .evaluates hname hsource
    · rename_i source hbinary
      split
      · rename_i htruthy
        exact .raises hname htruthy hbinary
      · rename_i htruthy
        rw [initRun_none]
        exact .idle hname (eq_false_of_ne_true htruthy)
  · rename_i hname
    exact .refused (eq_false_of_ne_true hname)

/-! ## The ledger -/

/-- The ledger mentions the calls alone. A source that was given is a text and was evaluated. -/
structure Ledger (x : SpawnVm) : Prop where
  origin_lt : ∀ e ∈ x.origin, e.2 < x.calls.length
  evaluated_lt : ∀ id ∈ x.evaluated, id < x.calls.length
  given : ∀ id opts, x.calls[id]? = some opts → opts.source.truthy = true →
    (∃ b, opts.source = .binary b) ∧ 1 ≤ x.evaluated.count id
  absent : ∀ id opts, x.calls[id]? = some opts → opts.source.truthy = false →
    x.evaluated.count id = 0

theorem Ledger.congr {x y : SpawnVm} (h : Ledger x) (hcalls : y.calls = x.calls)
    (horigin : ∀ e ∈ y.origin, e.2 < x.calls.length) (hev : y.evaluated = x.evaluated) : Ledger y := by
  constructor
  · rw [hcalls]
    exact horigin
  · rw [hcalls, hev]
    exact h.evaluated_lt
  · rw [hcalls, hev]
    exact h.given
  · rw [hcalls, hev]
    exact h.absent

theorem runsOnce_congr {x y : SpawnVm} (hcalls : y.calls = x.calls)
    (hev : y.evaluated = x.evaluated) :
    y.RunsOnce ↔ x.RunsOnce := by
  rw [SpawnVm.RunsOnce, SpawnVm.RunsOnce, hcalls, hev]

/-! ## A call -/

/-- A start that succeeded is entered in the ledger. -/
structure Entered (sys : Otp Unit) (x : SpawnVm) (opts : SpawnOpts) (env : StartEnv) (y : SpawnVm) :
    Prop where
  started : (startLink sys opts env).1 = true
  calls : y.calls = x.calls ++ [opts]
  origin : y.origin = (x.vm.next, x.calls.length) :: x.origin
  evaluated : y.evaluated = x.evaluated ++ (startLink sys opts env).2.map fun _ => x.calls.length

theorem startChild_cases (sys : Otp Unit) (opts : SpawnOpts) (env : StartEnv) (x : SpawnVm) :
    (∃ y, x.startChild sys opts env = (.ok (.ok x.vm.next), y) ∧ Entered sys x opts env y) ∨
    ((startLink sys opts env).1 = false ∧
      x.startChild sys opts env = (.ok (.error (.atom "error")), x)) := by
  rw [SpawnVm.startChild]
  rcases hstart : startLink sys opts env with ⟨up, log⟩
  cases up with
  | true =>
    refine .inl ⟨_, rfl, ?_⟩
    constructor <;> simp [hstart]
  | false => exact .inr ⟨rfl, rfl⟩

/-- A link leaves the ledger alone. -/
theorem linkTo_ledger (caller : Pid) (pid : Term) (x : SpawnVm) :
    (SpawnVm.linkTo caller pid x).2.calls = x.calls ∧
      (SpawnVm.linkTo caller pid x).2.origin = x.origin ∧
      (SpawnVm.linkTo caller pid x).2.evaluated = x.evaluated := by
  unfold SpawnVm.linkTo
  split
  · split <;> exact ⟨rfl, rfl, rfl⟩
  · exact ⟨rfl, rfl, rfl⟩

theorem optsMap_name (ord : MapOrder) (rest : List Term) :
    ∃ name, mapGet (optsMap ord rest) "name" = .ok name := by
  unfold optsMap
  split <;> exact ⟨_, rfl⟩

/-- `spawn` and `spawn_link` try to start one child, and if they succeed they enter it. -/
theorem spawn_cases (caller : Pid) (link : Bool) (source : Term) (rest : List Term) (s : ProcState)
    (env : StartEnv) (x : SpawnVm) {name : Term}
    (hname : mapGet (optsMap sys.maps rest) "name" = .ok name) {y : SpawnVm}
    (hy : ((dispatchHostCall (SpawnVm.otp sys caller env) (SpawnVm.spawnFn link) (source :: rest) s).run
      worldOp x).2 = y) :
    Entered sys x ⟨source, s.baseDir, name⟩ env y ∨
      ((startLink sys ⟨source, s.baseDir, name⟩ env).1 = false ∧ y = x) := by
  have hdispatch : dispatchHostCall (SpawnVm.otp sys caller env) (SpawnVm.spawnFn link)
      (source :: rest) s = dispatchSpawn (SpawnVm.otp sys caller env) link source rest s := by
    cases link <;> rfl
  have hname' : mapGet (optsMap (SpawnVm.otp sys caller env).maps rest) "name" = .ok name := hname
  rw [hdispatch, dispatchSpawn, hname'] at hy
  simp only [Callback.ofExcept, Program.ret_bind] at hy
  rcases startChild_cases sys ⟨source, s.baseDir, name⟩ env x with ⟨z, hstart, hz⟩ | ⟨hfail, hstart⟩
  · rw [Callback.otp, Program.run_lift_ok hstart] at hy
    left
    cases link with
    | false =>
      cases hy
      exact hz
    | true =>
      obtain ⟨hcalls, horigin, hev⟩ := linkTo_ledger caller (.pid x.vm.next) z
      have hlast : y = (SpawnVm.linkTo caller (.pid x.vm.next) z).2 := by
        simp only [if_true] at hy
        rcases hlink : SpawnVm.linkTo caller (.pid x.vm.next) z with ⟨result, z'⟩
        cases result with
        | ok _ =>
          rw [Callback.otp, Program.run_lift_ok hlink] at hy
          exact hy.symm
        | error _ =>
          rw [Callback.otp, Program.run_lift_error hlink] at hy
          exact hy.symm
      rw [hlast]
      exact ⟨hz.started, hcalls.trans hz.calls, horigin.trans hz.origin, hev.trans hz.evaluated⟩
  · rw [Callback.otp, Program.run_lift_ok hstart] at hy
    exact .inr ⟨hfail, hy.symm⟩

theorem spawn_without_args (caller : Pid) (link : Bool) (s : ProcState) (env : StartEnv)
    (x : SpawnVm) :
    ((dispatchHostCall (SpawnVm.otp sys caller env) (SpawnVm.spawnFn link) [] s).run worldOp x).2 = x := by
  -- without arguments it is an unknown function, which is logged
  obtain ⟨message, reply, hunknown⟩ : ∃ message reply,
      dispatchHostCall (SpawnVm.otp sys caller env) (SpawnVm.spawnFn link) [] s =
        (Callback.otp ((SpawnVm.otp sys caller env).log "warn" message) >>= fun _ =>
          .ret (reply, s)) := by
    cases link <;> exact ⟨_, _, rfl⟩
  have hop : worldOp (.otp ((SpawnVm.otp sys caller env).log "warn" message)) x =
      ((sys.log "warn" message ()).1, x) := rfl
  rw [hunknown]
  cases hlog : (sys.log "warn" message ()).1 with
  | ok a =>
    rw [hlog] at hop
    rw [Callback.otp, Program.run_lift_ok hop]
    rfl
  | error reason =>
    rw [hlog] at hop
    rw [Callback.otp, Program.run_lift_error hop]

/-! ## What a step adds -/

/-- What a step does to the ledger. -/
inductive LedgerStep (sys : Otp Unit) (x : SpawnVm) (act : SpawnAct) (y : SpawnVm) : Prop
  | same (hcalls : y.calls = x.calls) (hev : y.evaluated = x.evaluated)
      (horigin : ∀ e ∈ y.origin, e.2 < y.calls.length) (hkept : act.Kept sys x)
  /-- A process starts, and its source is evaluated. -/
  | spawned {opts : SpawnOpts} {source : Bytes} (hsource : opts.source = .binary source)
      (hcalls : y.calls = x.calls ++ [opts]) (hev : y.evaluated = x.evaluated ++ [x.calls.length])
      (horigin : ∀ e ∈ y.origin, e.2 < y.calls.length) (hkept : act.Kept sys x)
  /-- A process without a source starts. -/
  | idle {opts : SpawnOpts} (hsource : opts.source.truthy = false)
      (hcalls : y.calls = x.calls ++ [opts]) (hev : y.evaluated = x.evaluated)
      (horigin : ∀ e ∈ y.origin, e.2 < y.calls.length) (hbad : ¬ act.Kept sys x)
  /-- The source of an earlier call is evaluated again. -/
  | again {id : ℕ} {opts : SpawnOpts} (hopts : x.calls[id]? = some opts)
      (hsource : opts.source.truthy = true) (hcalls : y.calls = x.calls)
      (hev : y.evaluated = x.evaluated ++ [id]) (horigin : ∀ e ∈ y.origin, e.2 < y.calls.length)
      (hbad : ¬ act.Kept sys x)

theorem host_ledgerStep {x y : SpawnVm} (hl : Ledger x) {caller : Pid} {link : Bool}
    {args : List Term} {s : ProcState} {env : StartEnv}
    (h : x.step sys (.host caller link args s env) = some y) :
    LedgerStep sys x (.host caller link args s env) y := by
  simp only [SpawnVm.step, Option.ite_none_right_eq_some, Option.some.injEq] at h
  obtain ⟨hcaller, hy⟩ := h
  cases args with
  | nil =>
    rw [spawn_without_args] at hy
    subst hy
    exact .same rfl rfl hl.origin_lt (by rintro _ _ _ _ ⟨⟩)
  | cons source rest =>
    obtain ⟨name, hname⟩ := optsMap_name sys.maps rest
    have hkept : (registers name env.nameTaken = true → source.truthy = true) ↔
        (SpawnAct.host caller link (source :: rest) s env).Kept sys x := by
      constructor
      · rintro h _ _ _ name' ⟨⟩ hname'
        obtain rfl := Except.ok.inj (hname.symm.trans hname')
        exact h
      · exact fun h => h hcaller _ _ _ rfl hname
    have hstarts := startLink_starts sys ⟨source, s.baseDir, name⟩ env
    rcases spawn_cases caller link source rest s env x hname hy with hent | ⟨hfail, rfl⟩
    · obtain ⟨hstarted, hcalls, horigin, hev⟩ := hent
      have hlt : ∀ e ∈ y.origin, e.2 < y.calls.length := by
        rw [horigin, hcalls, List.length_append, List.length_singleton]
        intro e he
        rcases List.mem_cons.mp he with rfl | he
        · exact Nat.lt_succ_self _
        · exact (hl.origin_lt e he).trans (Nat.lt_succ_self _)
      generalize hresult : startLink sys ⟨source, s.baseDir, name⟩ env = result at hstarts
      rw [hresult] at hstarted hev
      cases hstarts with
      | refused => cases hstarted
      | raises => cases hstarted
      | idle hreg hsource =>
        refine .idle hsource hcalls (by simpa using hev) hlt ?_
        rw [← hkept]
        intro h
        rw [h hreg] at hsource
        cases hsource
      | evaluates hreg hsource =>
        refine .spawned hsource hcalls hev hlt (hkept.mp fun _ => ?_)
        dsimp only at hsource
        rw [hsource]
        rfl
    · refine .same rfl rfl hl.origin_lt (hkept.mp fun hreg => ?_)
      generalize startLink sys ⟨source, s.baseDir, name⟩ env = result at hstarts hfail
      cases hstarts with
      | refused hrefused =>
        rw [hreg] at hrefused
        cases hrefused
      | raises _ htruthy => exact htruthy
      | idle => cases hfail
      | evaluates _ hsource =>
        dsimp only at hsource
        rw [hsource]
        rfl

theorem restart_ledgerStep {x y : SpawnVm} (hl : Ledger x) {now : ℕ} {env : StartEnv}
    (h : x.step sys (.handleExit now env) = some y) :
    LedgerStep sys x (.handleExit now env) y := by
  simp only [SpawnVm.step] at h
  cases hexit : x.vm.exits.head? with
  | none =>
    rw [hexit] at h
    cases h
  | some c =>
    rw [hexit] at h
    dsimp only at h
    cases horigin : x.origin.lookup c with
    | none =>
      rw [horigin] at h
      obtain ⟨vm, -, rfl⟩ := Option.map_eq_some_iff.mp h
      refine .same rfl rfl hl.origin_lt ?_
      intro c' id opts hc' hid
      obtain rfl := Option.some.inj (hexit.symm.trans hc')
      rw [horigin] at hid
      cases hid
    | some id =>
      have hlt : id < x.calls.length := hl.origin_lt _ (Assoc.mem_of_lookup horigin)
      obtain ⟨opts, hopts⟩ : ∃ opts, x.calls[id]? = some opts :=
        ⟨_, List.getElem?_eq_getElem hlt⟩
      have hkept : (opts.source.truthy = true → registers opts.name env.nameTaken = true →
          maxRestarts < (x.vm.countRestarts now).length) ↔
            (SpawnAct.handleExit now env).Kept sys x := by
        constructor
        · intro h c' id' opts' hc' hid' hopts'
          obtain rfl := Option.some.inj (hexit.symm.trans hc')
          obtain rfl := Option.some.inj (horigin.symm.trans hid')
          obtain rfl := Option.some.inj (hopts.symm.trans hopts')
          exact h
        · exact fun h => h c id opts hexit horigin hopts
      rw [horigin, Option.bind_some, hopts, Option.map_some] at h
      dsimp only at h
      rw [SpawnVm.restart] at h
      split at h
      · rename_i hcount
        have hstarts := startLink_starts sys opts env
        generalize startLink sys opts env = result at hstarts h
        obtain ⟨up, log⟩ := result
        obtain ⟨vm, -, rfl⟩ := Option.map_eq_some_iff.mp h
        have hlt' : ∀ e ∈ (if up then (x.vm.next, id) :: x.origin else x.origin),
            e.2 < x.calls.length := by
          split
          · exact List.forall_mem_cons.mpr ⟨hlt, hl.origin_lt⟩
          · exact hl.origin_lt
        cases hstarts with
        | refused hrefused =>
          refine .same rfl (List.append_nil _) hlt' (hkept.mp fun _ hreg => ?_)
          rw [hreg] at hrefused
          cases hrefused
        | idle _ hsource =>
          refine .same rfl (List.append_nil _) hlt' (hkept.mp fun htruthy => ?_)
          rw [htruthy] at hsource
          cases hsource
        | raises _ htruthy hbinary =>
          obtain ⟨⟨b, hb⟩, -⟩ := hl.given id opts hopts htruthy
          exact absurd hb (hbinary b)
        | evaluates hreg hsource =>
          have htruthy : opts.source.truthy = true := by
            rw [hsource]
            rfl
          refine .again hopts htruthy rfl rfl hlt' ?_
          rw [← hkept]
          intro h
          exact absurd hcount (Nat.not_le_of_lt (h htruthy hreg))
      · rename_i hcount
        obtain ⟨vm, -, rfl⟩ := Option.map_eq_some_iff.mp h
        exact .same rfl rfl hl.origin_lt (hkept.mp fun _ _ => Nat.lt_of_not_le hcount)

theorem step_ledgerStep {x y : SpawnVm} (hl : Ledger x) {act : SpawnAct}
    (h : x.step sys act = some y) : LedgerStep sys x act y := by
  cases act with
  | host caller link args s env => exact host_ledgerStep hl h
  | handleExit now env => exact restart_ledgerStep hl h
  | other act =>
    simp only [SpawnVm.step] at h
    split at h
    · cases h
    · obtain ⟨vm, -, rfl⟩ := Option.map_eq_some_iff.mp h
      exact .same rfl rfl hl.origin_lt trivial

theorem Ledger.count_new {x : SpawnVm} (hl : Ledger x) : x.evaluated.count x.calls.length = 0 :=
  List.count_eq_zero.mpr fun hmem => Nat.lt_irrefl _ (hl.evaluated_lt _ hmem)

/-- An entry of the longer ledger is an old one or the last. -/
theorem getElem?_snoc {calls : List SpawnOpts} {opts opts' : SpawnOpts} {id : ℕ}
    (h : (calls ++ [opts])[id]? = some opts') :
    calls[id]? = some opts' ∧ id < calls.length ∨ id = calls.length ∧ opts' = opts := by
  rcases Nat.lt_or_ge id calls.length with hlt | hge
  · rw [List.getElem?_append_left hlt] at h
    exact .inl ⟨h, hlt⟩
  · rw [List.getElem?_append_right hge, List.getElem?_singleton] at h
    split at h
    · exact .inr ⟨by omega, (Option.some.inj h).symm⟩
    · cases h

theorem ledger_step {x y : SpawnVm} {act : SpawnAct} (hl : Ledger x)
    (h : LedgerStep sys x act y) : Ledger y := by
  cases h with
  | same hcalls hev horigin _ => exact hl.congr hcalls (hcalls ▸ horigin) hev
  | @spawned opts source hsource hcalls hev horigin _ =>
    refine ⟨horigin, ?_, ?_, ?_⟩
    · rw [hcalls, hev, List.length_append, List.length_singleton]
      intro id hid
      rcases List.mem_append.mp hid with hid | hid
      · exact (hl.evaluated_lt id hid).trans (Nat.lt_succ_self _)
      · exact List.mem_singleton.mp hid ▸ Nat.lt_succ_self _
    · rw [hcalls, hev]
      intro id opts' hopts htruthy
      rw [List.count_append]
      rcases getElem?_snoc hopts with ⟨hold, -⟩ | ⟨rfl, rfl⟩
      · obtain ⟨hbinary, hcount⟩ := hl.given id opts' hold htruthy
        exact ⟨hbinary, hcount.trans (Nat.le_add_right _ _)⟩
      · exact ⟨⟨source, hsource⟩, by simp⟩
    · rw [hcalls, hev]
      intro id opts' hopts habsent
      rcases getElem?_snoc hopts with ⟨hold, hlt⟩ | ⟨rfl, rfl⟩
      · rw [List.count_append, hl.absent id opts' hold habsent]
        simp [Nat.ne_of_gt hlt]
      · rw [hsource] at habsent
        cases habsent
  | @idle opts hsource hcalls hev horigin _ =>
    refine ⟨horigin, ?_, ?_, ?_⟩
    · rw [hcalls, hev, List.length_append, List.length_singleton]
      exact fun id hid => (hl.evaluated_lt id hid).trans (Nat.lt_succ_self _)
    · rw [hcalls, hev]
      intro id opts' hopts htruthy
      rcases getElem?_snoc hopts with ⟨hold, -⟩ | ⟨rfl, rfl⟩
      · exact hl.given id opts' hold htruthy
      · rw [htruthy] at hsource
        cases hsource
    · rw [hcalls, hev]
      intro id opts' hopts habsent
      rcases getElem?_snoc hopts with ⟨hold, -⟩ | ⟨rfl, rfl⟩
      · exact hl.absent id opts' hold habsent
      · exact hl.count_new
  | @again id opts hopts hsource hcalls hev horigin _ =>
    have hlt : id < x.calls.length := (List.getElem?_eq_some_iff.mp hopts).1
    refine ⟨horigin, ?_, ?_, ?_⟩
    · rw [hcalls, hev]
      intro id' hid
      rcases List.mem_append.mp hid with hid | hid
      · exact hl.evaluated_lt id' hid
      · exact List.mem_singleton.mp hid ▸ hlt
    · rw [hcalls, hev]
      intro id' opts' hopts' htruthy
      obtain ⟨hbinary, hcount⟩ := hl.given id' opts' hopts' htruthy
      rw [List.count_append]
      exact ⟨hbinary, hcount.trans (Nat.le_add_right _ _)⟩
    · rw [hcalls, hev]
      intro id' opts' hopts' habsent
      have hne : id ≠ id' := by
        rintro rfl
        obtain rfl := Option.some.inj (hopts.symm.trans hopts')
        rw [hsource] at habsent
        cases habsent
      rw [List.count_append, hl.absent id' opts' hopts' habsent]
      simp [hne]

/-- A step that does not meet the condition leaves a source with none or several evaluations, and
any other step changes nothing about that. -/
theorem runsOnce_step {x y : SpawnVm} {act : SpawnAct} (hl : Ledger x)
    (h : LedgerStep sys x act y) : y.RunsOnce ↔ x.RunsOnce ∧ act.Kept sys x := by
  cases h with
  | same hcalls hev _ hkept =>
    rw [runsOnce_congr hcalls hev]
    exact (and_iff_left hkept).symm
  | spawned _ hcalls hev _ hkept =>
    rw [and_iff_left hkept, SpawnVm.RunsOnce, SpawnVm.RunsOnce, hcalls, hev, List.length_append,
      List.length_singleton]
    constructor
    · intro h id hid
      have hcount := h id (hid.trans (Nat.lt_succ_self _))
      rwa [List.count_append, List.count_singleton, if_neg (by simpa using Nat.ne_of_gt hid),
        Nat.add_zero] at hcount
    · intro h id hid
      rw [List.count_append, List.count_singleton]
      rcases Nat.lt_succ_iff_lt_or_eq.mp hid with hlt | rfl
      · rw [h id hlt, if_neg (by simpa using Nat.ne_of_gt hlt)]
      · rw [hl.count_new, if_pos (by simp)]
  | idle _ hcalls hev _ hbad =>
    refine iff_of_false (fun h => ?_) fun h => hbad h.2
    have hcount := h x.calls.length (by rw [hcalls]; simp)
    rw [hev, hl.count_new] at hcount
    cases hcount
  | @again id opts hopts hsource hcalls hev _ hbad =>
    refine iff_of_false (fun h => ?_) fun h => hbad h.2
    have hlt : id < x.calls.length := (List.getElem?_eq_some_iff.mp hopts).1
    have hcount := h id (hcalls ▸ hlt)
    have hbefore := (hl.given id opts hopts hsource).2
    rw [hev, List.count_append, List.count_singleton, if_pos (by simp)] at hcount
    omega

/-! ## Runs -/

theorem ledger_init {x : SpawnVm} (h : (spawnLts sys).init x) : Ledger x := by
  obtain ⟨roots, rfl⟩ := h
  constructor <;> simp

theorem ledger_run {x y : SpawnVm} {tr : List (SpawnVm × SpawnAct)} (hx : (spawnLts sys).init x)
    (h : (spawnLts sys).Run x tr y) : Ledger y :=
  h.invariant (ledger_init hx) fun _ _ _ hl hst => ledger_step hl (step_ledgerStep hl hst)

/-- After a run the source of every `spawn` and `spawn_link` was evaluated exactly once if and only
if every step of the run met the condition. -/
theorem runs_once_iff (sys : Otp Unit) {x y : SpawnVm} {tr : List (SpawnVm × SpawnAct)}
    (hx : (spawnLts sys).init x) (h : (spawnLts sys).Run x tr y) :
    y.RunsOnce ↔ ∀ e ∈ tr, e.2.Kept sys e.1 := by
  induction h with
  | nil =>
    obtain ⟨roots, rfl⟩ := hx
    simp [SpawnVm.RunsOnce]
  | @snoc z _ _ act hrun hst ih =>
    have hl := ledger_run hx hrun
    rw [runsOnce_step hl (step_ledgerStep hl hst), ih, List.forall_mem_append,
      List.forall_mem_singleton]

/-- A start under no name, whose source is evaluated without an error. -/
def fineStart : StartEnv := ⟨false, .ok (.tuple [.ok, .null])⟩

/-- `spawn("1")` by the process 0, which ends by itself. -/
def spawnAndEnd : List SpawnAct :=
  [.host 0 false [.binary (bytes "1"), .map []] (initialState loneOtp ⟨none, none, none⟩) fineStart,
    .other (.terminate 1 .normal)]

/-- The machine with one process that was not spawned. -/
def oneRoot : SpawnVm := ⟨Vm.start 1, [], [], []⟩

/-- Until the supervisor handles the exit, the source was evaluated once. -/
theorem spawned_runs_once :
    ∃ tr y, (spawnLts loneOtp).Run oneRoot tr y ∧ y.calls.length = 1 ∧ y.evaluated = [0] ∧
      (y.RunsOnce ↔ ∀ e ∈ tr, e.2.Kept loneOtp e.1) := by
  obtain ⟨y, hy, hcalls, hev⟩ : ∃ y, Lts.exec (fun act x => x.step loneOtp act) spawnAndEnd oneRoot =
      some y ∧ y.calls.length = 1 ∧ y.evaluated = [0] := ⟨_, rfl, rfl, rfl⟩
  obtain ⟨tr, -, hrun⟩ := Lts.Run.of_exec (M := spawnLts loneOtp) (fun _ _ _ h => h) hy
  exact ⟨tr, y, hrun, hcalls, hev, runs_once_iff loneOtp ⟨1, rfl⟩ hrun⟩

/-- The supervisor handles the exit and evaluates the source again. -/
theorem spawned_runs_twice :
    ∃ y, (spawnLts loneOtp).Reachable y ∧ y.calls.length = 1 ∧ y.evaluated = [0, 0] ∧
      ¬ y.RunsOnce := by
  obtain ⟨y, hy, hcalls, hev⟩ : ∃ y, Lts.exec (fun act x => x.step loneOtp act)
      (spawnAndEnd ++ [.handleExit 0 fineStart]) oneRoot =
        some y ∧ y.calls.length = 1 ∧ y.evaluated = [0, 0] := ⟨_, rfl, rfl, rfl⟩
  refine ⟨y, .of_exec (fun _ _ _ h => h) ⟨1, rfl⟩ hy, hcalls, hev, fun h => ?_⟩
  have hcount := h 0 (hcalls ▸ Nat.one_pos)
  rw [hev] at hcount
  cases hcount

end BeamJS
