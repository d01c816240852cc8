import BeamJS.Core.Isolation

/-!
# Proofs: what a termination takes with it

Every link was asked for, or joins an agent, task or supervisor to the process that started it and
to nothing else. An exit therefore stays within what is connected, as long as the supervisor does
not give up.
-/

namespace BeamJS

open Lib Relation

namespace Vm

variable {w w' : Vm} {p q : Pid}

/-! ## Connections -/

theorem Connected.mono (h : w.asked ⊆ w'.asked) (hpq : w.Connected p q) : w'.Connected p q :=
  ReflTransGen.mono (fun _ _ hab => Or.imp (@h _) (@h _) hab) _ _ hpq

theorem Connected.symm (h : w.Connected p q) : w.Connected q p := by
  induction h with
  | refl => exact .refl
  | tail _ hbc ih => exact .head hbc.symm ih

theorem connected_of_asked (h : (p, q) ∈ w.asked) : w.Connected p q := .single (.inl h)

/-- The helper is linked to its parent alone, and nobody has asked for that. -/
structure Private (w : Vm) (h : Helper) : Prop where
  linked : ∀ l ∈ w.links, (l.1 = h.pid → l.2 = h.parent) ∧ (l.2 = h.pid → l.1 = h.parent)
  unasked : ∀ l ∈ w.asked, l.1 ≠ h.pid ∧ l.2 ≠ h.pid

/-- No chain leads to a private helper. -/
theorem Private.eq_of_connected {h : Helper} (hh : w.Private h) (hp : w.Connected p h.pid) :
    p = h.pid := by
  rcases hp.cases_tail with heq | ⟨b, -, hb | hb⟩
  · exact heq.symm
  · exact absurd rfl (hh.unasked _ hb).2
  · exact absurd rfl (hh.unasked _ hb).1

/-- A link between other processes leaves a helper private. -/
theorem Private.of_added {h : Helper} (hh : w.Private h) {a b : Pid} (ha : a ≠ h.pid)
    (hb : b ≠ h.pid)
    (hlinks : ∀ l ∈ w'.links, l = (a, b) ∨ l ∈ w.links)
    (hasked : ∀ l ∈ w'.asked, l = (a, b) ∨ l ∈ w.asked) : w'.Private h := by
  constructor
  · intro l hl
    rcases hlinks l hl with rfl | hl
    · exact ⟨fun h => absurd h ha, fun h => absurd h hb⟩
    · exact hh.linked l hl
  · intro l hl
    rcases hasked l hl with rfl | hl
    · exact ⟨ha, hb⟩
    · exact hh.unasked l hl

/-! ## The invariant -/

/-- Pids are not used twice, and every link is accounted for. -/
structure Sound (w : Vm) : Prop where
  apart : ∀ h ∈ w.helpers, h.pid ∉ w.jsProcesses
  alive_lt : ∀ p ∈ w.alive, p < w.next
  links_lt : ∀ l ∈ w.links, l.1 < w.next ∧ l.2 < w.next
  asked_lt : ∀ l ∈ w.asked, l.1 < w.next ∧ l.2 < w.next
  accounted : ∀ l ∈ w.links, w.Connected l.1 l.2 ∨
    ∃ h ∈ w.helpers, l = (h.parent, h.pid) ∧ w.Private h

theorem sound_start (roots : ℕ) : (start roots).Sound where
  apart := nofun
  alive_lt p hp := by simpa [alive, jsProcesses, start] using hp
  links_lt := nofun
  asked_lt := nofun
  accounted := nofun

theorem helper_alive {h : Helper} (hh : h ∈ w.helpers) : h.pid ∈ w.alive :=
  List.mem_append_right _ (List.mem_map_of_mem hh)

theorem js_alive (hp : p ∈ w.jsProcesses) : p ∈ w.alive := List.mem_append_left _ hp

/-! ### The links of a step -/

/-- A link that was asked for, which touches no private helper or is the one to its parent. -/
theorem Sound.accounted_of_asked (hw : w.Sound) {a b : Pid} (hlinks : w'.links = (a, b) :: w.links)
    (hasked : w'.asked = (a, b) :: w.asked) (hhelpers : w.helpers ⊆ w'.helpers)
    (hprivate : ∀ h ∈ w.helpers, w.Private h →
      (a ≠ h.pid ∧ b ≠ h.pid) ∨ (h.parent, h.pid) = (a, b)) :
    ∀ l ∈ w'.links, w'.Connected l.1 l.2 ∨
      ∃ h ∈ w'.helpers, l = (h.parent, h.pid) ∧ w'.Private h := by
  have hnew : w'.Connected a b := connected_of_asked (by simp [hasked])
  have hmono : w.asked ⊆ w'.asked := by simp [hasked]
  intro l hl
  rcases List.mem_cons.mp (hlinks ▸ hl) with rfl | hl
  · exact .inl hnew
  · rcases hw.accounted l hl with hconn | ⟨h, hh, rfl, hpriv⟩
    · exact .inl (hconn.mono hmono)
    · rcases hprivate h hh hpriv with ⟨ha, hb⟩ | heq
      · refine .inr ⟨h, hhelpers hh, rfl, hpriv.of_added ha hb ?_ ?_⟩
        · simp [hlinks]
        · simp [hasked]
      · rw [heq]
        exact .inl hnew

/-- The link of a new helper to its parent, for which nobody has asked. -/
theorem Sound.accounted_of_helper (hw : w.Sound) {h : Helper} (hparent : h.parent ∈ w.jsProcesses)
    (hpid : h.pid = w.next) (hlinks : w'.links = (h.parent, h.pid) :: w.links)
    (hasked : w'.asked = w.asked) (hhelpers : w'.helpers = h :: w.helpers) :
    ∀ l ∈ w'.links, w'.Connected l.1 l.2 ∨
      ∃ h ∈ w'.helpers, l = (h.parent, h.pid) ∧ w'.Private h := by
  have hlt : h.parent < h.pid := hpid ▸ hw.alive_lt _ (js_alive hparent)
  intro l hl
  rcases List.mem_cons.mp (hlinks ▸ hl) with rfl | hl
  · -- no link and no request knows the new pid yet
    refine .inr ⟨h, by simp [hhelpers], rfl, ?_, ?_⟩
    · intro l hl
      rcases List.mem_cons.mp (hlinks ▸ hl) with rfl | hl
      · exact ⟨fun heq => absurd heq (Nat.ne_of_lt hlt), fun _ => rfl⟩
      · have hold : l.1 < h.pid ∧ l.2 < h.pid := hpid ▸ hw.links_lt l hl
        exact ⟨fun heq => absurd heq (Nat.ne_of_lt hold.1),
          fun heq => absurd heq (Nat.ne_of_lt hold.2)⟩
    · intro l hl
      have hold : l.1 < h.pid ∧ l.2 < h.pid := hpid ▸ hw.asked_lt l (hasked ▸ hl)
      exact ⟨Nat.ne_of_lt hold.1, Nat.ne_of_lt hold.2⟩
  · rcases hw.accounted l hl with hconn | ⟨h', hh', rfl, hpriv⟩
    · exact .inl (hconn.mono (by simp [hasked]))
    · have hne : h.parent ≠ h'.pid := fun heq => hw.apart h' hh' (heq ▸ hparent)
      have hold : h'.pid < h.pid := hpid ▸ hw.alive_lt h'.pid (helper_alive hh')
      refine .inr ⟨h', by simp [hhelpers, hh'], rfl, hpriv.of_added hne (Nat.ne_of_gt hold) ?_ ?_⟩
      · simp [hlinks]
      · intro l hl
        exact .inr (hasked ▸ hl)

/-- Some processes end. -/
theorem Sound.without (hw : w.Sound) (dead : List Pid) : (w.without dead).Sound where
  apart h hh := by
    have hold := hw.apart h (List.mem_filter.mp hh).1
    simp only [jsProcesses, Vm.without, List.mem_append, List.mem_filter] at hold ⊢
    tauto
  alive_lt p hp := by
    refine hw.alive_lt p ?_
    simp only [alive, jsProcesses, Vm.without, List.mem_append, List.mem_filter, List.mem_map] at hp ⊢
    rcases hp with (hp | hp) | ⟨h, hh, rfl⟩
    · exact .inl (.inl hp.1)
    · exact .inl (.inr hp.1)
    · exact .inr ⟨h, hh.1, rfl⟩
  links_lt l hl := hw.links_lt l (List.mem_filter.mp hl).1
  asked_lt := hw.asked_lt
  accounted l hl := by
    obtain ⟨hl, hdead⟩ := List.mem_filter.mp hl
    rcases hw.accounted l hl with hconn | ⟨h, hh, rfl, hpriv⟩
    · exact .inl hconn
    · have hpid : h.pid ∉ dead := by
        simp only [Bool.and_eq_true, decide_eq_true_eq] at hdead
        exact hdead.2
      refine .inr ⟨h, List.mem_filter.mpr ⟨hh, by simpa using hpid⟩, rfl, ?_, hpriv.unasked⟩
      exact fun l hl => hpriv.linked l (List.mem_filter.mp hl).1

/-! ### The steps -/

/-- The books of the supervisor play no part. -/
theorem Sound.books (hw : w.Sound) (exits : List Pid) (restarts : List ℕ) (clock : ℕ) :
    Sound { w with exits, restarts, clock } where
  apart := hw.apart
  alive_lt := hw.alive_lt
  links_lt := hw.links_lt
  asked_lt := hw.asked_lt
  accounted l hl := by
    rcases hw.accounted l hl with hconn | ⟨h, hh, rfl, hpriv⟩
    · exact .inl hconn
    · exact .inr ⟨h, hh, rfl, hpriv.linked, hpriv.unasked⟩

/-- A JS process more under the supervisor, without a link. -/
theorem Sound.addChild (hw : w.Sound) :
    Sound { w with next := w.next + 1, children := w.children ++ [w.next] } where
  apart h hh hjs := by
    have hlt := hw.alive_lt h.pid (helper_alive hh)
    simp only [jsProcesses, ← List.append_assoc, List.mem_append, List.mem_singleton] at hjs
    rcases hjs with hold | hnew
    · exact hw.apart h hh (List.mem_append.mpr hold)
    · exact absurd hnew (Nat.ne_of_lt hlt)
  alive_lt p hp := by
    simp only [alive, jsProcesses, List.mem_append, List.mem_singleton] at hp
    rcases hp with (hp | hp | rfl) | hp
    · exact Nat.lt_succ_of_lt (hw.alive_lt p (by simp [alive, jsProcesses, hp]))
    · exact Nat.lt_succ_of_lt (hw.alive_lt p (by simp [alive, jsProcesses, hp]))
    · exact Nat.lt_succ_self _
    · exact Nat.lt_succ_of_lt (hw.alive_lt p (List.mem_append_right _ hp))
  links_lt l hl := (hw.links_lt l hl).imp Nat.lt_succ_of_lt Nat.lt_succ_of_lt
  asked_lt l hl := (hw.asked_lt l hl).imp Nat.lt_succ_of_lt Nat.lt_succ_of_lt
  accounted l hl := by
    rcases hw.accounted l hl with hconn | ⟨h, hh, rfl, hpriv⟩
    · exact .inl hconn
    · exact .inr ⟨h, hh, rfl, hpriv.linked, hpriv.unasked⟩

/-- A link between processes that are there. -/
theorem Sound.addLink (hw : w.Sound) {a b : Pid} (ha : a < w.next) (hb : b < w.next)
    (hprivate : ∀ h ∈ w.helpers, w.Private h →
      (a ≠ h.pid ∧ b ≠ h.pid) ∨ (h.parent, h.pid) = (a, b)) :
    Sound { w with links := (a, b) :: w.links, asked := (a, b) :: w.asked } where
  apart := hw.apart
  alive_lt := hw.alive_lt
  links_lt l hl := by
    rcases List.mem_cons.mp hl with rfl | hl
    · exact ⟨ha, hb⟩
    · exact hw.links_lt l hl
  asked_lt l hl := by
    rcases List.mem_cons.mp hl with rfl | hl
    · exact ⟨ha, hb⟩
    · exact hw.asked_lt l hl
  accounted := hw.accounted_of_asked rfl rfl (List.Subset.refl _) hprivate

/-- A helper more, with the link to its parent, be it asked for or not. -/
theorem Sound.addHelper (hw : w.Sound) {caller : Pid} (hcaller : caller ∈ w.jsProcesses)
    (traps link : Bool) :
    Sound { w with
      next := w.next + 1, helpers := ⟨w.next, caller, traps⟩ :: w.helpers
      links := (caller, w.next) :: w.links
      asked := if link then (caller, w.next) :: w.asked else w.asked } where
  apart h hh hjs := by
    rcases List.mem_cons.mp hh with rfl | hh
    · exact Nat.lt_irrefl _ (hw.alive_lt _ (js_alive hjs))
    · exact hw.apart h hh hjs
  alive_lt p hp := by
    simp only [alive, List.map_cons, List.mem_append, List.mem_cons] at hp
    rcases hp with hp | rfl | hp
    · exact Nat.lt_succ_of_lt (hw.alive_lt p (js_alive hp))
    · exact Nat.lt_succ_self _
    · exact Nat.lt_succ_of_lt (hw.alive_lt p (List.mem_append_right _ hp))
  links_lt l hl := by
    rcases List.mem_cons.mp hl with rfl | hl
    · exact ⟨Nat.lt_succ_of_lt (hw.alive_lt _ (js_alive hcaller)), Nat.lt_succ_self _⟩
    · exact (hw.links_lt l hl).imp Nat.lt_succ_of_lt Nat.lt_succ_of_lt
  asked_lt l hl := by
    have hcases : l = (caller, w.next) ∨ l ∈ w.asked := by
      cases link with
      | true => exact List.mem_cons.mp hl
      | false => exact .inr hl
    rcases hcases with rfl | hl
    · exact ⟨Nat.lt_succ_of_lt (hw.alive_lt _ (js_alive hcaller)), Nat.lt_succ_self _⟩
    · exact (hw.asked_lt l hl).imp Nat.lt_succ_of_lt Nat.lt_succ_of_lt
  accounted := by
    cases link with
    | true =>
      refine hw.accounted_of_asked rfl rfl (List.subset_cons_self _ _) fun h hh _ => .inl ⟨?_, ?_⟩
      · rintro rfl
        exact hw.apart h hh hcaller
      · exact Nat.ne_of_gt (hw.alive_lt h.pid (helper_alive hh))
    | false =>
      exact hw.accounted_of_helper (h := ⟨w.next, caller, traps⟩) hcaller rfl rfl rfl rfl

/-- Every step that keeps the processes apart keeps the invariant. -/
theorem Sound.step (hw : w.Sound) {act : VmAct} (hact : KeepsApart w act)
    (hstep : w.step act = some w') : w'.Sound := by
  cases act with
  | spawn =>
    cases hstep
    exact hw.addChild
  | spawnLink caller =>
    simp only [Vm.step, Option.ite_none_right_eq_some, Option.some.injEq] at hstep
    obtain ⟨hcaller, rfl⟩ := hstep
    have hlt := hw.alive_lt caller (js_alive hcaller)
    refine hw.addChild.addLink (Nat.lt_succ_of_lt hlt) (Nat.lt_succ_self _) fun h hh _ => ?_
    refine .inl ⟨?_, Nat.ne_of_gt (hw.alive_lt h.pid (helper_alive hh))⟩
    rintro rfl
    exact hw.apart h hh hcaller
  | link caller target =>
    simp only [Vm.step, Option.ite_none_right_eq_some, Option.some.injEq] at hstep
    obtain ⟨⟨hcaller, htarget⟩, rfl⟩ := hstep
    refine hw.addLink (hw.alive_lt _ (js_alive hcaller)) (hw.alive_lt _ htarget) fun h hh hpriv => ?_
    by_cases heq : target = h.pid
    · subst heq
      rcases hact h hh rfl with rfl | hasked
      · exact .inr rfl
      · exact absurd rfl (hpriv.unasked _ hasked).2
    · refine .inl ⟨?_, heq⟩
      rintro rfl
      exact hw.apart h hh hcaller
  | startLinked caller =>
    simp only [Vm.step, Option.ite_none_right_eq_some, Option.some.injEq] at hstep
    obtain ⟨hcaller, rfl⟩ := hstep
    exact hw.addHelper hcaller false false
  | startSupervisor caller link =>
    simp only [Vm.step, Option.ite_none_right_eq_some, Option.some.injEq] at hstep
    obtain ⟨hcaller, rfl⟩ := hstep
    exact hw.addHelper hcaller true link
  | terminate p reason =>
    simp only [Vm.step, Option.ite_none_right_eq_some, Option.some.injEq] at hstep
    obtain ⟨-, rfl⟩ := hstep
    exact (hw.without _).books _ _ _
  | handleExit now up =>
    simp only [Vm.step] at hstep
    cases hexits : w.exits with
    | nil => simp [hexits] at hstep
    | cons c exits =>
      simp only [hexits, Option.ite_none_right_eq_some, Option.some.injEq] at hstep
      obtain ⟨-, rfl⟩ := hstep
      have hcount : (w.countRestarts now).length ≤ maxRestarts := hact
      unfold Vm.handleExit
      rw [if_pos hcount]
      cases up with
      | true => exact hw.addChild.books _ _ _
      | false => exact hw.books _ _ _

/-! ## Terminations -/

/-- An exit runs along links. -/
theorem link_of_takes {reason : ExitReason} (h : q ∈ w.takes reason p) :
    (p, q) ∈ w.links ∨ (q, p) ∈ w.links := by
  have hlink := (Bool.and_eq_true _ _ ▸ (List.mem_filter.mp h).2 : _ ∧ _).1
  simpa using hlink

/-- What ends with a JS process is connected to it, or belongs to a process that is. -/
theorem ending_connected (hw : w.Sound) {reason : ExitReason} (hp : p ∈ w.jsProcesses) :
    ∀ q ∈ w.ending reason [p], w.Connected p q ∨
      ∃ h ∈ w.helpers, w.Private h ∧ q = h.pid ∧ w.Connected p h.parent := by
  refine spread_induction ?_ fun a b ha hab => ?_
  · intro q hq
    obtain rfl := List.mem_singleton.mp hq
    exact .inl .refl
  · -- the link that the exit of `a` runs along
    obtain ⟨l, hl, hends⟩ : ∃ l ∈ w.links, l = (a, b) ∨ l = (b, a) := by
      rcases link_of_takes hab with h | h
      · exact ⟨_, h, .inl rfl⟩
      · exact ⟨_, h, .inr rfl⟩
    rcases ha with hconn | ⟨h, hh, hpriv, rfl, hparent⟩
    · rcases hw.accounted l hl with hlink | ⟨h, hh, rfl, hpriv⟩
      · rcases hends with rfl | rfl
        · exact .inl (hconn.trans hlink)
        · exact .inl (hconn.trans hlink.symm)
      · rcases hends with heq | heq
        · obtain ⟨rfl, rfl⟩ := Prod.mk.inj heq
          exact .inr ⟨h, hh, hpriv, rfl, hconn⟩
        · -- nothing that is connected to `p` is a private helper
          obtain ⟨rfl, rfl⟩ := Prod.mk.inj heq
          exact absurd (hpriv.eq_of_connected hconn ▸ hp) (hw.apart h hh)
    · -- a private helper is linked to its parent alone
      rcases hends with rfl | rfl
      · obtain rfl : b = h.parent := (hpriv.linked _ hl).1 rfl
        exact .inl hparent
      · obtain rfl : b = h.parent := (hpriv.linked _ hl).2 rfl
        exact .inl hparent

/-- A step that keeps the processes apart ends nothing that is not connected. -/
theorem isolated_of_sound (hw : w.Sound) {act : VmAct} (hact : KeepsApart w act) :
    Isolated w act := by
  intro w' hstep p hp q hq hgone
  cases act with
  | terminate p' reason =>
    simp only [terminating, Option.ite_none_right_eq_some, Option.some.injEq] at hp
    obtain ⟨hjs, rfl⟩ := hp
    simp only [Vm.step, Option.ite_none_right_eq_some, Option.some.injEq] at hstep
    obtain ⟨-, rfl⟩ := hstep
    have hdead : q ∈ w.ending reason [p'] := by
      by_contra hlives
      refine hgone ?_
      simp only [jsProcesses, Vm.without, List.mem_append, List.mem_filter] at hq ⊢
      exact hq.imp (fun h => ⟨h, by simpa using hlives⟩) fun h => ⟨h, by simpa using hlives⟩
    rcases ending_connected hw hjs q hdead with hconn | ⟨h, hh, -, rfl, -⟩
    · exact hconn
    · exact absurd hq (hw.apart h hh)
  | handleExit now up =>
    simp only [Vm.step] at hstep
    cases hexits : w.exits with
    | nil => simp [hexits] at hstep
    | cons c exits =>
      simp only [hexits, Option.ite_none_right_eq_some, Option.some.injEq] at hstep
      obtain ⟨-, rfl⟩ := hstep
      have hcount : (w.countRestarts now).length ≤ maxRestarts := hact
      unfold Vm.handleExit at hgone
      rw [if_pos hcount] at hgone
      -- below the limit the supervisor only adds processes
      refine absurd ?_ hgone
      cases up with
      | true =>
        simp only [jsProcesses, List.mem_append, if_true] at hq ⊢
        exact hq.imp_right .inl
      | false => exact hq
  | spawn | spawnLink _ | link _ _ | startLinked _ | startSupervisor _ _ => cases hp

end Vm

/-- In a run whose steps all keep the processes apart, no termination of a JS process ends one that
is not connected to it. -/
theorem isolation {w w' : Vm} {tr : List (Vm × VmAct)} (hinit : vmSystem.init w)
    (hrun : vmSystem.Run w tr w') (hapart : ∀ s ∈ tr, KeepsApart s.1 s.2) :
    ∀ s ∈ tr, Isolated s.1 s.2 := by
  have hstart : w.Sound := by
    obtain ⟨roots, rfl⟩ := hinit
    exact Vm.sound_start roots
  have hkept : ∀ v act v', v.Sound → (vmSystem.restrict KeepsApart).step v act v' → v'.Sound :=
    fun v act v' hv hstep => hv.step hstep.2 hstep.1
  intro s hs
  obtain ⟨hsound, -⟩ := (hrun.restrict hapart).step_of_mem hstart hkept s hs
  exact Vm.isolated_of_sound hsound (hapart s hs)

/-- The state after a root process has spawned another one. -/
def withChild : Vm := { Vm.start 1 with next := 2, children := [1] }

/-- A process is spawned, and crashes. -/
theorem isolation_spawned : Isolated withChild (.terminate 1 (.abnormal .other)) := by
  have hspawn : vmSystem.step (Vm.start 1) .spawn withChild := rfl
  have hcrash : vmSystem.step withChild (.terminate 1 (.abnormal .other))
      { Vm.start 1 with next := 2, exits := [1] } := by
    show withChild.step _ = _
    decide
  have hrun := ((Lts.Run.nil (Vm.start 1)).snoc hspawn).snoc hcrash
  exact isolation ⟨1, rfl⟩ hrun (by simp [KeepsApart]) (withChild, _) (by simp)

/-! ## Where isolation ends -/

/-- Two processes are spawned, and one of them and what is restarted in its place crash within a
second. -/
def crashLoop : List VmAct :=
  [.spawn, .spawn, .terminate 0 (.abnormal .other), .handleExit 0 true,
    .terminate 2 (.abnormal .other), .handleExit 0 true, .terminate 3 (.abnormal .other),
    .handleExit 0 true, .terminate 4 (.abnormal .other)]

/-- Before the supervisor handles the fourth crash. -/
def afterCrashLoop : Vm :=
  { Vm.start 0 with next := 5, children := [1], exits := [4], restarts := [0, 0, 0] }

/-- A process starts an agent, and another one links to it. -/
def sharedAgent : List VmAct := [.startLinked 0, .link 1 2]

def withSharedAgent : Vm :=
  { Vm.start 2 with
    next := 3, helpers := [⟨2, 0, false⟩], links := [(1, 2), (0, 2)], asked := [(1, 2)] }

/-- A chain starts with a link that was asked for. -/
theorem Vm.Connected.exists_asked {w : Vm} {p q : Pid} (h : w.Connected p q) (hpq : p ≠ q) :
    ∃ l ∈ w.asked, l.1 = p ∨ l.2 = p := by
  rcases h.cases_head with rfl | ⟨b, hb | hb, -⟩
  · exact absurd rfl hpq
  · exact ⟨_, hb, .inl rfl⟩
  · exact ⟨_, hb, .inr rfl⟩

theorem vmReachable_of_exec (acts : List VmAct) (roots : ℕ) {w : Vm}
    (h : Lts.exec (fun act v => v.step act) acts (Vm.start roots) = some w) :
    vmSystem.Reachable w :=
  .of_exec (fun _ _ _ => id) ⟨roots, rfl⟩ h

/-- A process that crashes four times takes every other process with it, and so does one whose agent
another process is linked to. -/
theorem unconnected_process_ends :
    (vmSystem.Reachable afterCrashLoop ∧ ¬ Isolated afterCrashLoop (.handleExit 0 true)) ∧
      (vmSystem.Reachable withSharedAgent ∧
        ¬ Isolated withSharedAgent (.terminate 0 (.abnormal .other))) := by
  refine ⟨⟨vmReachable_of_exec crashLoop 0 (by decide), fun h => ?_⟩,
    ⟨vmReachable_of_exec sharedAgent 2 (by decide), fun h => ?_⟩⟩
  · have hconn := h _ rfl 4 rfl 1 (by decide) (by decide)
    obtain ⟨l, hl, -⟩ := hconn.exists_asked (by decide)
    cases hl
  · have hconn := h _ rfl 0 rfl 1 (by decide) (by decide)
    obtain ⟨l, hl, hzero⟩ := hconn.exists_asked (by decide)
    obtain rfl : l = (1, 2) := List.mem_singleton.mp hl
    revert hzero
    decide

end BeamJS
