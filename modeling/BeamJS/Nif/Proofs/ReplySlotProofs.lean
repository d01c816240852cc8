import BeamJS.Nif.ReplySlot

/-!
# Proofs: the reply slot

A program that makes no request while a loader is open goes through its requests one by one, and the
slot is free and empty in between. One nested request is enough to lock the mutex twice.
-/

namespace BeamJS

open Lib

variable {E G : Type} {next : E → Next E G} {e0 : E}

/-! ## A request on its way -/

/-- How far the request of the number `i` has come. -/
inductive Stage where
  | sent | received
  | answered (reply : Term)

namespace Stage

def inbox (i : ℕ) : Stage → List ℕ
  | .sent => [i]
  | _ => []

def answering (i : ℕ) : Stage → Option ℕ
  | .received => some i
  | _ => none

def slot (i : ℕ) (holder : Holder) : Stage → Slot (ℕ × Term)
  | .answered reply => ⟨holder, true, some (i, reply), true⟩
  | _ => ⟨holder, false, none, false⟩

end Stage

/-- The exchange while the thread waits for the reply to the request `i`. -/
def waitingAt (phase : Phase E) (i : ℕ) (holder : Holder) (stage : Stage) : Exchange E :=
  ⟨⟨phase, 0, stage.slot i holder⟩, stage.inbox i, stage.answering i, i + 1⟩

/-- The exchange while the thread runs JavaScript. -/
def runningAt (e : E) (sent : ℕ) : Exchange E := ⟨⟨.running e, 0, .empty⟩, [], none, sent⟩

/-- The exchange while a loader compiles or runs a module. The loader has read its reply and holds
the lock. -/
def loadingAt (e : E) (v : ℕ × Term) (sent : ℕ) : Exchange E :=
  ⟨⟨.running e, 1, ⟨.evaluation, true, some v, false⟩⟩, [], none, sent⟩

/-- The exchange is in the play `p`, and no request is on its way. -/
inductive Rests : Play E → Exchange E → Prop
  | running (e : E) (sent : ℕ) : Rests ⟨e, false⟩ (runningAt e sent)
  | loading (e : E) (v : ℕ × Term) (sent : ℕ) : Rests ⟨e, true⟩ (loadingAt e v sent)

/-- The exchange follows the play `p`: it rests there, or waits for a reply to the request that `p`
makes next. -/
inductive Mirrors (next : E → Next E G) : Play E → Exchange E → Prop
  | rests {p : Play E} {x : Exchange E} (h : Rests p x) : Mirrors next p x
  | blocked {e : E} {r : HostRequest E} {phase : Phase E} {holder : Holder} (i : ℕ) (stage : Stage)
      (hr : next e = .request r) (hphase : phase = .locking r ∨ phase = .sleeping r)
      (hholder : holder = .free ∨ holder = .owner ∧ stage = .received) :
      Mirrors next ⟨e, false⟩ (waitingAt phase i holder stage)
  | checking {e : E} {r : HostRequest E} (i : ℕ) (stage : Stage) (hr : next e = .request r) :
      Mirrors next ⟨e, false⟩ (waitingAt (.checking r) i .evaluation stage)

/-- The protocol holds in every exchange that follows a play. -/
theorem Mirrors.slotProtocol {p : Play E} {x : Exchange E} (h : Mirrors next p x) :
    SlotProtocol x := by
  cases h with
  | rests h =>
    cases h <;>
    exact ⟨fun r h => (by cases h), fun r h => (by cases h), fun h => (by cases h)⟩
  | @blocked e r phase holder i stage hr hphase hholder =>
    refine ⟨fun r _ => ?_, fun r' hc => ?_, fun ho => ?_⟩
    · rcases hholder with rfl | ⟨rfl, rfl⟩
      · cases stage <;> simp [waitingAt, Stage.slot]
      · simp [waitingAt, Stage.slot]
    · rcases hphase with rfl | rfl <;> cases hc
    · rcases hholder with rfl | ⟨rfl, rfl⟩
      · cases stage <;> cases ho
      · simp [waitingAt, Stage.slot]
  | @checking e r i stage hr =>
    refine ⟨fun r' hc => (by cases hc), fun r' _ hready => ?_, fun ho => ?_⟩
    · cases stage with
      | answered reply => exact ⟨i, reply, rfl, rfl⟩
      | sent | received => cases hready
    · cases stage <;> cases ho

/-! ## The exchange follows the plays -/

theorem playStep_answer {e : E} {r : HostRequest E} (hr : next e = .request r) (reply : Term) :
    playStep next (.answer reply) ⟨e, false⟩ = some ⟨(r.answered reply).1, (r.answered reply).2⟩ := by
  simp [playStep, hr]

/-- The thread reads its reply and goes on. -/
theorem rests_consume (r : HostRequest E) (i : ℕ) (reply : Term) :
    Rests ⟨(r.answered reply).1, (r.answered reply).2⟩
      ⟨consume Prod.snd ⟨.checking r, 0, ⟨.evaluation, true, some (i, reply), true⟩⟩ r (i, reply),
        [], none, i + 1⟩ := by
  rcases hans : r.answered reply with ⟨e, loading⟩
  rw [consume, hans]
  cases loading
  · exact .running e (i + 1)
  · exact .loading e (i, reply) (i + 1)

section Thread

variable {e e' : E} (v : ℕ × Term) (sent : ℕ)

theorem exchangeStep_compute (hn : next e = .compute e') :
    exchangeStep next .thread (runningAt e sent) = some (runningAt e' sent) := by
  simp [exchangeStep, runningAt, threadStep, requestOf, hn]

theorem exchangeStep_request {r : HostRequest E} (hn : next e = .request r) :
    exchangeStep next .thread (runningAt e sent) =
      some (waitingAt (.locking r) sent .free .sent) := by
  simp [exchangeStep, runningAt, waitingAt, threadStep, requestOf, Slot.empty, Stage.slot,
    Stage.inbox, Stage.answering, hn]

theorem exchangeStep_compute_loading (hn : next e = .compute e') :
    exchangeStep next .thread (loadingAt e v sent) = some (loadingAt e' v sent) := by
  simp [exchangeStep, loadingAt, threadStep, requestOf, hn]

theorem exchangeStep_loaded (hn : next e = .loaded e') :
    exchangeStep next .thread (loadingAt e v sent) = some (runningAt e' sent) := by
  simp [exchangeStep, loadingAt, runningAt, threadStep, requestOf, hn]

end Thread

/-- The thread runs JavaScript. -/
theorem mirrors_step_running {e : E} {sent : ℕ} {y : Exchange E} {act : ExchangeAct}
    (hst : exchangeStep next act (runningAt e sent) = some y) :
    Mirrors next ⟨e, false⟩ y ∨ ∃ a q, playStep next a ⟨e, false⟩ = some q ∧ Mirrors next q y := by
  cases act with
  | thread =>
    cases hn : next e with
    | compute e' =>
      cases (exchangeStep_compute sent hn).symm.trans hst
      exact .inr ⟨.go, ⟨e', false⟩, by simp [playStep, hn], .rests (.running e' sent)⟩
    | request r =>
      cases (exchangeStep_request sent hn).symm.trans hst
      exact .inl (.blocked sent .sent hn (.inl rfl) (.inl rfl))
    | loaded e' => simp [exchangeStep, runningAt, threadStep, hn] at hst
    | done result globals => simp [exchangeStep, runningAt, threadStep, hn] at hst
  | receive | lock | deliver => simp [exchangeStep, runningAt] at hst

/-- The thread runs JavaScript inside a loader, and makes no request there. -/
theorem mirrors_step_loading {e : E} {v : ℕ × Term} {sent : ℕ} {y : Exchange E} {act : ExchangeAct}
    (hflat : ¬ Nested next ⟨e, true⟩) (hst : exchangeStep next act (loadingAt e v sent) = some y) :
    ∃ a q, playStep next a ⟨e, true⟩ = some q ∧ Mirrors next q y := by
  cases act with
  | thread =>
    cases hn : next e with
    | compute e' =>
      cases (exchangeStep_compute_loading v sent hn).symm.trans hst
      exact ⟨.go, ⟨e', true⟩, by simp [playStep, hn], .rests (.loading e' v sent)⟩
    | request r => exact absurd ⟨rfl, r, hn⟩ hflat
    | loaded e' =>
      cases (exchangeStep_loaded v sent hn).symm.trans hst
      exact ⟨.go, ⟨e', false⟩, by simp [playStep, hn], .rests (.running e' sent)⟩
    | done result globals => simp [exchangeStep, loadingAt, threadStep, hn] at hst
  | receive | lock | deliver => simp [exchangeStep, loadingAt] at hst

/-- The thread waits and the owner may act. -/
theorem mirrors_step_blocked {e : E} {r : HostRequest E} {phase : Phase E} {holder : Holder} {i : ℕ}
    {stage : Stage} {y : Exchange E} {act : ExchangeAct} (hr : next e = .request r)
    (hphase : phase = .locking r ∨ phase = .sleeping r)
    (hholder : holder = .free ∨ holder = .owner ∧ stage = .received)
    (hst : exchangeStep next act (waitingAt phase i holder stage) = some y) :
    Mirrors next ⟨e, false⟩ y := by
  cases act with
  | thread =>
    have hreq : requestOf next (waitingAt phase i holder stage).eval = none := by
      rcases hphase with rfl | rfl <;> rfl
    have hlock : threadStep next Prod.snd (waitingAt phase i holder stage).eval =
        if holder = .free then some (waitingAt (.checking r) i .evaluation stage).eval else none := by
      rcases hphase with rfl | rfl <;> cases stage <;> rfl
    rw [exchangeStep, hlock] at hst
    rcases hholder with rfl | ⟨rfl, _⟩
    · simp only [if_true, Option.map_some, hreq, Option.isSome_none, Option.some.injEq] at hst
      subst hst
      exact .checking i stage hr
    · simp at hst
  | receive =>
    cases stage with
    | sent =>
      have hnext : exchangeStep next .receive (waitingAt phase i holder .sent) =
          some (waitingAt phase i holder .received) := rfl
      cases hnext.symm.trans hst
      rcases hholder with rfl | ⟨_, hc⟩
      · exact .blocked i .received hr hphase (.inl rfl)
      · cases hc
    | received | answered => simp [exchangeStep, waitingAt, Stage.inbox, Stage.answering] at hst
  | lock =>
    cases stage with
    | received =>
      rcases hholder with rfl | ⟨rfl, _⟩
      · have hnext : exchangeStep next .lock (waitingAt phase i .free .received) =
            some (waitingAt phase i .owner .received) := rfl
        cases hnext.symm.trans hst
        exact .blocked i .received hr hphase (.inr ⟨rfl, rfl⟩)
      · simp [exchangeStep, waitingAt, Stage.answering, Stage.slot] at hst
    | sent | answered => simp [exchangeStep, waitingAt, Stage.answering] at hst
  | deliver reply =>
    cases stage with
    | received =>
      rcases hholder with rfl | ⟨rfl, _⟩
      · simp [exchangeStep, waitingAt, Stage.answering, Stage.slot] at hst
      · have hnext : exchangeStep next (.deliver reply) (waitingAt phase i .owner .received) =
            some (waitingAt phase i .free (.answered reply)) := rfl
        cases hnext.symm.trans hst
        exact .blocked i (.answered reply) hr hphase (.inl rfl)
    | sent | answered => simp [exchangeStep, waitingAt, Stage.answering] at hst

/-- The thread looks at the flag, with the lock. -/
theorem mirrors_step_checking {e : E} {r : HostRequest E} {i : ℕ} {stage : Stage} {y : Exchange E}
    {act : ExchangeAct} (hr : next e = .request r)
    (hst : exchangeStep next act (waitingAt (.checking r) i .evaluation stage) = some y) :
    Mirrors next ⟨e, false⟩ y ∨ ∃ a q, playStep next a ⟨e, false⟩ = some q ∧ Mirrors next q y := by
  cases act with
  | thread =>
    cases stage with
    | sent =>
      have hnext : exchangeStep next .thread (waitingAt (.checking r) i .evaluation .sent) =
          some (waitingAt (.sleeping r) i .free .sent) := rfl
      cases hnext.symm.trans hst
      exact .inl (.blocked i .sent hr (.inr rfl) (.inl rfl))
    | received =>
      have hnext : exchangeStep next .thread (waitingAt (.checking r) i .evaluation .received) =
          some (waitingAt (.sleeping r) i .free .received) := rfl
      cases hnext.symm.trans hst
      exact .inl (.blocked i .received hr (.inr rfl) (.inl rfl))
    | answered reply =>
      simp [exchangeStep, waitingAt, threadStep, requestOf, Stage.slot] at hst
      subst hst
      exact .inr ⟨.answer reply, _, playStep_answer hr reply, .rests (rests_consume r i reply)⟩
  | receive =>
    cases stage with
    | sent =>
      have hnext : exchangeStep next .receive (waitingAt (.checking r) i .evaluation .sent) =
          some (waitingAt (.checking r) i .evaluation .received) := rfl
      cases hnext.symm.trans hst
      exact .inl (.checking i .received hr)
    | received | answered => simp [exchangeStep, waitingAt, Stage.inbox, Stage.answering] at hst
  | lock | deliver => cases stage <;> simp [exchangeStep, waitingAt, Stage.answering, Stage.slot] at hst

/-- A step of the exchange is a step of the play or leaves it where it is, as long as no request is
nested. -/
theorem mirrors_step {p : Play E} {x y : Exchange E} {act : ExchangeAct}
    (hflat : ¬ Nested next p) (h : Mirrors next p x) (hst : exchangeStep next act x = some y) :
    Mirrors next p y ∨ ∃ a q, playStep next a p = some q ∧ Mirrors next q y := by
  cases h with
  | rests h =>
    cases h with
    | running e sent => exact mirrors_step_running hst
    | loading e v sent => exact .inr (mirrors_step_loading hflat hst)
  | blocked i stage hr hphase hholder => exact .inl (mirrors_step_blocked hr hphase hholder hst)
  | checking i stage hr => exact mirrors_step_checking hr hst

/-- What the exchange reaches follows a play, if the program nests no request. -/
theorem exists_mirrors (hflat : ∀ p, (plays next e0).Reachable p → ¬ Nested next p) {x : Exchange E}
    (h : (exchange next e0).Reachable x) : ∃ p, (plays next e0).Reachable p ∧ Mirrors next p x := by
  refine Lts.Reachable.simulate (R := fun x p => Mirrors next p x) ?_ ?_ h
  · rintro x rfl
    exact ⟨⟨e0, false⟩, rfl, .rests (.running e0 0)⟩
  · intro x act y p hst hp hmir
    rcases mirrors_step (hflat p hp) hmir hst with hmir | ⟨a, q, hq, hmir⟩
    · exact ⟨p, hp, hmir⟩
    · exact ⟨q, hp.step hq, hmir⟩

/-! ## Every play happens -/

/-- A request and its reply, from rest to rest. -/
theorem rests_answer {e : E} {r : HostRequest E} (hr : next e = .request r) (reply : Term)
    (sent : ℕ)
    (hx : (exchange next e0).Reachable (runningAt e sent)) :
    ∃ y, (exchange next e0).Reachable y ∧
      Rests ⟨(r.answered reply).1, (r.answered reply).2⟩ y := by
  have h1 : (exchange next e0).Reachable (waitingAt (.locking r) sent .free .sent) :=
    hx.step (a := .thread) (exchangeStep_request sent hr)
  have h2 : (exchange next e0).Reachable (waitingAt (.locking r) sent .free .received) :=
    h1.step (a := .receive) rfl
  have h3 : (exchange next e0).Reachable (waitingAt (.locking r) sent .owner .received) :=
    h2.step (a := .lock) rfl
  have h4 : (exchange next e0).Reachable (waitingAt (.locking r) sent .free (.answered reply)) :=
    h3.step (a := .deliver reply) rfl
  have h5 : (exchange next e0).Reachable (waitingAt (.checking r) sent .evaluation (.answered reply)) :=
    h4.step (a := .thread) rfl
  exact ⟨_, h5.step (a := .thread) rfl, rests_consume r sent reply⟩

/-- Every play is reached by the exchange. -/
theorem exists_rests {p : Play E} (h : (plays next e0).Reachable p) :
    ∃ x, (exchange next e0).Reachable x ∧ Rests p x := by
  refine Lts.Reachable.simulate (R := Rests) ?_ ?_ h
  · rintro p rfl
    exact ⟨Exchange.start e0, rfl, .running e0 0⟩
  · intro p act q x hst hx hrests
    replace hst : playStep next act p = some q := hst
    cases hrests with
    | running e sent =>
      cases hn : next e with
      | compute e' =>
        cases act <;> simp [playStep, hn] at hst
        subst hst
        exact ⟨_, hx.step (a := .thread) (exchangeStep_compute sent hn), .running e' sent⟩
      | request r =>
        cases act with
        | go => simp [playStep, hn] at hst
        | answer reply =>
          rw [playStep_answer hn] at hst
          cases hst
          exact rests_answer hn reply sent hx
      | loaded e' => cases act <;> simp [playStep, hn] at hst
      | done result globals => cases act <;> simp [playStep, hn] at hst
    | loading e v sent =>
      cases hn : next e with
      | compute e' =>
        cases act <;> simp [playStep, hn] at hst
        subst hst
        exact ⟨_, hx.step (a := .thread) (exchangeStep_compute_loading v sent hn),
          .loading e' v sent⟩
      | request r => cases act <;> simp [playStep, hn] at hst
      | loaded e' =>
        cases act <;> simp [playStep, hn] at hst
        subst hst
        exact ⟨_, hx.step (a := .thread) (exchangeStep_loaded v sent hn), .running e' sent⟩
      | done result globals => cases act <;> simp [playStep, hn] at hst

/-! ## The protocol -/

/-- A nested request locks the mutex that the loader holds. -/
theorem relocks_of_nested {p : Play E} {x : Exchange E} (hnested : Nested next p) (h : Rests p x)
    (hx : (exchange next e0).Reachable x) :
    ∃ y, (exchange next e0).Reachable y ∧ ¬ SlotProtocol y := by
  obtain ⟨hp, r, hr⟩ := hnested
  cases h with
  | running e sent => cases hp
  | loading e v sent =>
    refine ⟨⟨⟨.locking r, 1, ⟨.evaluation, true, some v, false⟩⟩, [sent], none, sent + 1⟩,
      hx.step (a := .thread) ?_, fun hslot => hslot.no_relock r rfl rfl⟩
    simp [exchange, exchangeStep, loadingAt, threadStep, requestOf, hr]

/-- The slot protocol holds throughout exactly for the programs that nest no request in the loading
of a module. -/
theorem slotProtocol_iff_flat (next : E → Next E G) (e0 : E) :
    (∀ x, (exchange next e0).Reachable x → SlotProtocol x) ↔
      ∀ p, (plays next e0).Reachable p → ¬ Nested next p := by
  constructor
  · intro hslot p hp hnested
    obtain ⟨x, hx, hrests⟩ := exists_rests hp
    obtain ⟨y, hy, hno⟩ := relocks_of_nested hnested hrests hx
    exact hno (hslot y hy)
  · intro hflat x hx
    obtain ⟨p, _, hmir⟩ := exists_mirrors hflat hx
    exact hmir.slotProtocol

/-- The points of `import "./m.js"`, where the body of `m.js` is `__beamjs_self()`. -/
inductive ImportSelf where
  | importing | body | called | imported

def importSelf : ImportSelf → Next ImportSelf Unit
  | .importing => .request (.loadModule (bytes "./m.js") (fun _ => .body) .imported)
  | .body => .request (.hostCall .self [] fun _ => .called)
  | .called => .loaded .imported
  | .imported => .done (.ok (.tuple [.atom "ok", .map []])) ()

/-- A module whose body calls the host makes the thread lock the mutex that it holds. -/
theorem import_self_relocks :
    ∃ x, (exchange importSelf .importing).Reachable x ∧ ¬ SlotProtocol x := by
  have hstart : (exchange importSelf .importing).Reachable (runningAt .importing 0) := .of_init rfl
  obtain ⟨x, hx, hrests⟩ :=
    rests_answer rfl (.tuple [.atom "ok", .binary (bytes "__beamjs_self()")]) 0 hstart
  exact relocks_of_nested ⟨rfl, _, rfl⟩ hrests hx

end BeamJS
