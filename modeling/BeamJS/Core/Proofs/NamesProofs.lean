import BeamJS.Core.Names
import BeamJS.Core.Proofs.MailboxProofs

/-!
# Proofs: registered names

No step but the end of its owner takes a name away. So a name that was free when it was registered
is the caller's until the caller ends, while a name that was taken stays with its owner although the
answer is `:ok`.
-/

namespace BeamJS

open Lib

section Table

variable {w : NameTable} {p q : Pid} {m n : Term}

theorem owner_cons (e : Term × Pid) (w : NameTable) :
    ({ w with registry := e :: w.registry } : NameTable).owner n =
      if n = e.1 then some e.2 else w.owner n := by
  obtain ⟨m, q⟩ := e
  unfold NameTable.owner
  rcases eq_or_ne n m with rfl | hne
  · simp
  · rw [Assoc.lookup_cons_of_ne hne, if_neg hne]

theorem owner_register_self (h : w.owner n = none) : (w.register p n).owner n = some p := by
  rw [NameTable.register, h]
  exact (owner_cons (n, p) w).trans (if_pos rfl)

/-- A `register` takes no name away. -/
theorem owner_register (h : w.owner n = some p) : (w.register q m).owner n = some p := by
  unfold NameTable.register
  cases hm : w.owner m with
  | some _ => exact h
  | none =>
    have hne : n ≠ m := by
      rintro rfl
      rw [h] at hm
      cases hm
    exact (owner_cons (m, q) w).trans ((if_neg hne).trans h)

/-- A new process takes no name away if its own is free. -/
theorem owner_boot {name : Option Term} (hfree : name.bind w.owner = none)
    (h : w.owner n = some p) : (w.boot name).owner n = some p := by
  cases name with
  | none => exact h
  | some m =>
    have hne : n ≠ m := by
      rintro rfl
      rw [Option.bind_some, h] at hfree
      cases hfree
    exact (owner_cons (m, w.next) w).trans ((if_neg hne).trans h)

/-- The end of a process takes no name from another one. -/
theorem owner_terminate (hne : q ≠ p) (h : w.owner n = some p) :
    (w.terminate q).owner n = some p := by
  unfold NameTable.owner NameTable.terminate at *
  revert h
  simp only []
  induction w.registry with
  | nil => exact id
  | cons e l ih =>
    obtain ⟨m, r⟩ := e
    intro h
    rcases eq_or_ne n m with rfl | hnm
    · rw [List.lookup_cons_self, Option.some.injEq] at h
      subst h
      rw [List.filter_cons_of_pos (by simpa using hne.symm), List.lookup_cons_self]
    · rw [Assoc.lookup_cons_of_ne hnm] at h
      rw [List.filter_cons]
      split
      · rw [Assoc.lookup_cons_of_ne hnm]
        exact ih h
      · exact ih h

end Table

section Steps

variable {env : NameEnv}

/-- The operation takes the name `n` not away from `p`. -/
def KeepsOwner (n : Term) (p : Pid) {α : Type} : Op NameTable α → Prop
  | .otp f => ∀ w, w.owner n = some p → (f w).2.owner n = some p
  | _ => True

theorem startChild_keepsOwner (n : Term) (p q : Pid) (opts : SpawnOpts) :
    KeepsOwner n p (.otp (startChild env q opts)) := by
  intro w h
  unfold startChild
  split
  · exact h
  · rename_i hfree
    split
    · exact owner_boot hfree h
    · exact owner_boot hfree h

theorem keepsOwner_otp {n : Term} {p : Pid} {α β : Type} {f : OtpFn NameTable α}
    {g : α → Callback NameTable β} (hf : KeepsOwner n p (.otp f))
    (hg : ∀ a, (g a).All (KeepsOwner n p) fun _ => True) :
    (Callback.otp f >>= g).All (KeepsOwner n p) fun _ => True := ⟨hf, hg⟩

theorem keepsOwner_ofExcept {n : Term} {p : Pid} {α β : Type} (r : Except Term α)
    {g : α → Callback NameTable β} (hg : ∀ a, (g a).All (KeepsOwner n p) fun _ => True) :
    (Callback.ofExcept r >>= g).All (KeepsOwner n p) fun _ => True := by
  cases r with
  | ok a => exact hg a
  | error e => trivial

theorem keepsOwner_dispatchSpawn (n : Term) (p q : Pid) (link : Bool) (source : Term)
    (rest : List Term) (s : ProcState) :
    (dispatchSpawn (nameOtp env q) link source rest s).All (KeepsOwner n p) fun _ => True := by
  refine keepsOwner_ofExcept _ fun name =>
    keepsOwner_otp (startChild_keepsOwner n p q _) fun started => ?_
  cases started with
  | ok pid =>
    cases link
    · trivial
    · exact keepsOwner_otp (fun w h => h) fun _ => trivial
  | error reason => trivial

theorem keepsOwner_dispatchHostCall (n : Term) (p q : Pid) {fn : HostFn} (hfn : usesNames fn = true)
    (args : List Term) (s : ProcState) :
    (dispatchHostCall (nameOtp env q) fn args s).All (KeepsOwner n p) fun _ => True := by
  unfold dispatchHostCall
  split
  all_goals first | (cases hfn; done) | skip
  · exact keepsOwner_dispatchSpawn ..
  · exact keepsOwner_dispatchSpawn ..
  · exact keepsOwner_otp (fun w h => owner_register h) fun _ => trivial
  · refine keepsOwner_otp (fun w h => h) fun found => ?_
    cases found <;> trivial
  · refine keepsOwner_ofExcept _ fun source => keepsOwner_ofExcept _ fun className =>
      keepsOwner_ofExcept _ fun json => keepsOwner_ofExcept _ fun name =>
      keepsOwner_otp (startChild_keepsOwner n p q _) fun started => ?_
    cases started with
    | ok pid =>
      refine keepsOwner_ofExcept _ fun link => ?_
      unfold startedReply
      split
      · exact keepsOwner_otp (fun w h => h) fun _ => trivial
      · trivial
    | error reason => trivial
  · exact keepsOwner_otp (fun w h => h) fun _ => trivial

theorem usesNames_ne_receive {fn : HostFn} (h : usesNames fn = true) : fn ≠ .receive := by
  rintro rfl
  cases h

/-- A host call takes the name `n` not away from `p`. -/
theorem owner_handleInfo (env : NameEnv) {n : Term} {p : Pid} (q : Pid) {fn : HostFn}
    (hfn : usesNames fn = true) (args : List Term) (s : ProcState) {w : NameTable} (h : w.owner n = some p) :
    ((handleInfo (nameOtp env q) (.hostCall fn args) s).run hostOp (asked w fn)).2.world.owner n =
      some p := by
  have hall : (handleInfo (nameOtp env q) (.hostCall fn args) s).All (KeepsOwner n p)
      fun _ => True := by
    rw [handleInfo_hostCall (usesNames_ne_receive hfn)]
    exact (keepsOwner_dispatchHostCall n p q hfn args s).bind fun r _ => ⟨trivial, fun _ => trivial⟩
  refine (hall.run hostOp (I := fun h => h.world.owner n = some p) ?_ (s := asked w fn) h).1
  intro β op h hop hown
  cases op with
  | otp f => exact hop _ hown
  | _ => exact hown

/-- No step but the end of its owner takes a name away. -/
theorem owner_step {n : Term} {p : Pid} {w w' : NameTable} {a : NameAction}
    (hst : (names env).step w a w') (hends : a.ends p = false) (h : w.owner n = some p) :
    w'.owner n = some p := by
  cases a with
  | answered q fn args s reply =>
    obtain ⟨hfn, -, s', host, hrun, -, rfl⟩ := hst
    have hown := owner_handleInfo env q hfn args s h
    rwa [hrun] at hown
  | raised q fn args s =>
    obtain ⟨hfn, -, e, host, hrun, rfl⟩ := hst
    have hown := owner_handleInfo env q hfn args s h
    rw [hrun] at hown
    exact owner_terminate (by simpa [NameAction.ends] using hends) hown
  | terminates q =>
    obtain ⟨-, rfl⟩ := hst
    exact owner_terminate (by simpa [NameAction.ends] using hends) h

/-- Along a run without the end of its owner a name is kept. -/
theorem owner_run {n : Term} {p : Pid} {w w' : NameTable} {tr : List (NameTable × NameAction)}
    (hrun : (names env).Run w tr w') (hends : ∀ e ∈ tr, e.2.ends p = false)
    (h : w.owner n = some p) : w'.owner n = some p := by
  induction hrun with
  | nil => exact h
  | @snoc w1 w2 tr a _ hst ih =>
    exact owner_step hst (hends (w1, a) (by simp))
      (ih fun e he => hends e (List.mem_append_left _ he))

/-- What a `register` is answered, and what it leaves. -/
theorem register_step {w w' : NameTable} {p : Pid} {name reply : Term} {s : ProcState}
    (hst : (names env).step w (.answered p .register [name] s reply) w') :
    reply = .ok ∧ w' = w.register p name := by
  obtain ⟨-, -, s', host, hrun, hdel, rfl⟩ := hst
  cases hrun
  cases hdel
  exact ⟨rfl, rfl⟩

/-- What a `whereis` is answered. -/
theorem whereis_step {w w' : NameTable} {p : Pid} {name reply : Term} {s : ProcState}
    (hst : (names env).step w (.answered p .whereis [name] s reply) w') :
    reply = ((w.owner name).map (nameHandle env)).getD .null ∧ w' = w := by
  obtain ⟨-, -, s', host, hrun, hdel, rfl⟩ := hst
  have hanswer : (handleInfo (nameOtp env p) (.hostCall .whereis [name]) s).run hostOp
      (asked w .whereis) = (.ok s, ⟨w, [.whereis], none,
        [⟨some .whereis, ((w.owner name).map (nameHandle env)).getD .null⟩]⟩) := by
    have hlookup : hostOp (.otp ((nameOtp env p).lookup name)) (asked w .whereis) =
        (.ok (w.owner name), asked w .whereis) := rfl
    rw [handleInfo_hostCall (by decide), dispatchHostCall, Callback.otp, Program.run_bind,
      Program.run_lift_ok hlookup]
    cases w.owner name with
    | none => rfl
    | some q => rfl
  rw [hanswer] at hrun
  cases hrun
  cases hdel
  exact ⟨rfl, rfl⟩

/-! ## Runs -/

/-- A `register` of a free name, or of the caller's own, obtains it. -/
theorem owner_register_of_free {w : NameTable} {p : Pid} {name : Term}
    (h : w.owner name = none ∨ w.owner name = some p) :
    (w.register p name).owner name = some p := by
  rcases h with h | h
  · exact owner_register_self h
  · exact owner_register h

/-- In every run in which a `register` is only called for a name that is free or the caller's own,
who is answered `:ok` owns the name until it ends. -/
theorem names_honoured {w w' : NameTable} {tr : List (NameTable × NameAction)}
    (hrun : (names env).Run w tr w') (hfree : ∀ e ∈ tr, registersFree e.1 e.2) :
    NamesHonoured env tr where
  owns := by
    rintro before between after w1 w2 p q s s' name reply rfl hends
    have hown := owner_register_of_free (hfree (w1, .answered p .register [name] s .ok) (by simp))
    rw [List.append_assoc, List.cons_append] at hrun
    obtain ⟨-, u, hreg, hrest⟩ := hrun.split
    obtain ⟨-, rfl⟩ := register_step hreg
    obtain ⟨hbetween, v, hwhere, -⟩ := hrest.split
    have hkept : w2.owner name = some p := owner_run hbetween hends hown
    have hanswer := (whereis_step hwhere).1
    rw [hkept] at hanswer
    exact hanswer
  answers w1 p s name reply hmem := .inl (owner_register_of_free (hfree _ hmem))

/-- A `register` that is called for a name of another process is answered with `:ok` all the same.
-/
theorem names_dishonoured {w w' : NameTable} {p q : Pid} {s : ProcState} {name reply : Term}
    (hst : (names env).step w (.answered p .register [name] s reply) w')
    (hown : w.owner name = some q) (hne : q ≠ p) :
    ∃ tr, (names env).Run w tr w' ∧ ¬ NamesHonoured env tr := by
  obtain ⟨rfl, rfl⟩ := register_step hst
  refine ⟨[] ++ [(w, .answered p .register [name] s .ok)], (Lts.Run.nil w).snoc hst, fun h => ?_⟩
  rcases h.answers w p s name .ok (by simp) with hobtained | ⟨reason, herr⟩
  · rw [owner_register hown, Option.some.injEq] at hobtained
    exact hne hobtained
  · cases herr

end Steps

/-! ## Two processes and one name -/

/-- A node on which every `init` succeeds. -/
def plainEnv : NameEnv where
  lib := loneOtp.still
  childInit _ _ := .ok ()

/-- The processes 0 and 1, and no names. -/
def twoProcs : NameTable := ⟨[], [0, 1], 2, []⟩

/-- The state of a process that has nothing to do. -/
def idleProc : ProcState := initialState loneOtp ⟨none, none, none⟩

/-- The name `a` as JavaScript passes it. -/
def nameA : Term := .binary (bytes "a")

theorem first_registers : (names plainEnv).step twoProcs
    (.answered 0 .register [nameA] idleProc .ok) (twoProcs.register 0 nameA) :=
  ⟨rfl, ⟨by decide, by decide⟩, _, _, rfl, rfl, rfl⟩

/-- A run in which one process registers a name and the other looks it up. -/
theorem lookup_honoured :
    NamesHonoured plainEnv ([] ++ [(twoProcs, .answered 0 .register [nameA] idleProc .ok)] ++
      [(twoProcs.register 0 nameA,
        .answered 1 .whereis [nameA] idleProc (nameHandle plainEnv 0))]) :=
  names_honoured (((Lts.Run.nil twoProcs).snoc first_registers).snoc
      (show (names plainEnv).step _ _ (twoProcs.register 0 nameA) from
        ⟨rfl, ⟨by decide, by decide⟩, _, _, rfl, rfl, rfl⟩))
    (by
      intro e he
      rcases List.mem_append.mp he with he | he
      · obtain rfl : e = _ := by simpa using he
        exact .inl (by decide)
      · obtain rfl : e = _ := by simpa using he
        trivial)

/-- Both processes register the name and are answered `:ok`, and what the second one then finds is
the first. -/
theorem second_register_lost :
    (names plainEnv).init twoProcs ∧
    ∃ tr w, (names plainEnv).Run twoProcs tr w ∧
      tr.map Prod.snd = [.answered 0 .register [nameA] idleProc .ok,
        .answered 1 .register [nameA] idleProc .ok,
        .answered 1 .whereis [nameA] idleProc (nameHandle plainEnv 0)] ∧
      ¬ NamesHonoured plainEnv tr := by
  have hsecond : (names plainEnv).step (twoProcs.register 0 nameA)
      (.answered 1 .register [nameA] idleProc .ok) (twoProcs.register 0 nameA) :=
    ⟨rfl, ⟨by decide, by decide⟩, _, _, rfl, rfl, rfl⟩
  have hlookup : (names plainEnv).step (twoProcs.register 0 nameA)
      (.answered 1 .whereis [nameA] idleProc (nameHandle plainEnv 0)) (twoProcs.register 0 nameA) :=
    ⟨rfl, ⟨by decide, by decide⟩, _, _, rfl, rfl, rfl⟩
  refine ⟨⟨rfl, rfl, by decide⟩, _, _,
    (((Lts.Run.nil twoProcs).snoc first_registers).snoc hsecond).snoc hlookup, rfl, fun h => ?_⟩
  have hfound := h.owns [(twoProcs, .answered 0 .register [nameA] idleProc .ok)] [] []
    (twoProcs.register 0 nameA) (twoProcs.register 0 nameA) 1 1 idleProc idleProc nameA
    (nameHandle plainEnv 0) rfl (by simp)
  have hdiff : nameHandle plainEnv 0 ≠ nameHandle plainEnv 1 := by decide
  exact hdiff hfound

end BeamJS
