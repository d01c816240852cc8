import BeamJS.Cli.Repl
import BeamJS.Core.Proofs.SessionsProofs

/-!
# Proofs: the sessions of a virtual machine

The REPL is the one caller that creates a context after its first. It destroys the old one before,
so that it too holds one at a time.
-/

namespace BeamJS

open Lib

variable {W G : Type}

namespace Repl

variable {con : Terminal W} {h : ℕ} {next : SessionProgram W} {Q : Option ℕ → Prop}
  {held : Option ℕ}

theorem holding_put (write : Bytes → W → W) (text : Bytes) (hnext : Holding Q held next) :
    Holding Q held (put write text next) :=
  ⟨trivial, fun _ => hnext⟩

theorem holding_puts (text : Bytes) (hnext : Holding Q held next) :
    Holding Q held (puts con text next) :=
  holding_put _ _ hnext

theorem holding_putsError (text : Except Term Bytes) (hnext : Holding Q held next) :
    Holding Q held (putsError con text next) := by
  cases text with
  | ok text => exact holding_put _ _ hnext
  | error e => trivial

theorem holding_report (result : Term) (hnext : Holding Q held next) :
    Holding Q held (report con result next) := by
  unfold report
  split
  · exact hnext
  · exact hnext
  · split
    · exact holding_puts _ hnext
    · trivial
  · refine holding_putsError _ ?_
    split
    · exact hnext
    · exact hnext
    · exact holding_putsError _ hnext
  · exact holding_putsError _ hnext
  · trivial

theorem holding_loop (inputs : List ReplInput) (lineNum : ℕ) :
    Holding (fun _ => True) (some h) (loop con h lineNum inputs) := by
  induction inputs generalizing h lineNum with
  | nil => exact holding_put _ _ trivial
  | cons input inputs ih =>
    unfold loop
    refine holding_put _ _ ?_
    cases input with
    | eof | error => exact holding_puts _ trivial
    | line text =>
      dsimp only
      split_ifs
      · exact ih _
      · exact holding_puts _ trivial
      · exact holding_puts _ (ih _)
      · exact holding_destroyContext (holding_newContext fun h => holding_puts _ (ih _))
      · refine ⟨rfl, fun r => ?_⟩
        cases r with
        | ok result => exact holding_report _ (ih _)
        | error e => trivial

theorem holding_start (inputs : List ReplInput) :
    Holding (fun _ => True) none (start con inputs) :=
  holding_newContext fun _ => holding_puts _ (holding_puts _ (holding_loop inputs 1))

/-! ## What it evaluates -/

variable {engine : Runtime G} {inputs : List ReplInput}

/-- The REPL evaluates a line in what the lines before it have made of the engine, and makes no
other use of its context but to destroy it. -/
def Evaluates (con : Terminal W) (engine : Runtime G) (inputs : List ReplInput) (u : ContextUse)
    (s : BeamjsContext × G) : Prop :=
  s.1.hostReplyReady = false ∧
    match u with
    | .eval source filename => ∃ done text rest, inputs = done ++ .line text :: rest ∧
        source = con.trim text ∧
        filename = bytes ("<repl:" ++ toString (replay con engine done).1 ++ ">") ∧
        s.2 = (replay con engine done).2
    | .destroy => ∃ done text rest, inputs = done ++ .line text :: rest ∧
        con.trim text = bytes ".clear"
    | .setGlobal _ _ | .deliver _ => False

theorem hostReplyReady_useEngine (c : BeamjsContext) (p : EnginePtr) (run : EngineRun) :
    (c.useEngine p run).1.hostReplyReady = c.hostReplyReady := by
  cases p with
  | null => rfl
  | live => cases run <;> rfl

/-- The context after an evaluation. -/
theorem use_eval {source filename : Bytes} {s s' : BeamjsContext × G}
    {a : Option (Except Term Term)}
    (hu : (contexts engine).use (.eval source filename) s = some (s', a)) :
    s'.1.hostReplyReady = s.1.hostReplyReady ∧ s'.2 = (engine.eval source filename s.2).2 := by
  obtain ⟨b, -, hres⟩ := Option.map_eq_some_iff.mp hu
  cases hres
  refine ⟨?_, rfl⟩
  simp only [BeamjsContext.withText, inspectIolist]
  split
  · rfl
  · exact hostReplyReady_useEngine ..

/-- A call that waits gets no reply, and never goes on. -/
theorem Evaluates.suspended {u : ContextUse} {s s' : BeamjsContext × G}
    (h : Evaluates con engine inputs u s) (hu : (contexts engine).use u s = some (s', none)) :
    (contexts engine).resume s' = none := by
  obtain ⟨hready, hkind⟩ := h
  cases u with
  | eval source filename =>
    have hready' := (use_eval hu).1.trans hready
    rcases s' with ⟨⟨rt, ctx, ready, waiting⟩, g⟩
    obtain rfl : ready = false := hready'
    cases waiting <;> rfl
  | destroy => cases hu
  | setGlobal | deliver => exact hkind.elim

variable {Pre : ContextUse → BeamjsContext × G → Prop} {cell : Option (ℕ × BeamjsContext × G)}

theorem meets_put (write : Bytes → W → W) (text : Bytes)
    (hnext : Meets (contexts engine) Pre cell next) :
    Meets (contexts engine) Pre cell (put write text next) := by
  refine ⟨trivial, ?_⟩
  rintro b cell' rfl
  exact hnext

theorem meets_putsError (text : Except Term Bytes) (hnext : Meets (contexts engine) Pre cell next) :
    Meets (contexts engine) Pre cell (putsError con text next) := by
  cases text with
  | ok text => exact meets_put _ _ hnext
  | error e => trivial

theorem meets_report (result : Term) (hnext : Meets (contexts engine) Pre cell next) :
    Meets (contexts engine) Pre cell (report con result next) := by
  unfold report
  split
  · exact hnext
  · exact hnext
  · split
    · exact meets_put _ _ hnext
    · trivial
  · refine meets_putsError _ ?_
    split
    · exact hnext
    · exact hnext
    · exact meets_putsError _ hnext
  · exact meets_putsError _ hnext
  · trivial

theorem meets_newContext {body : ℕ → SessionProgram W}
    (hbody : ∀ h, Meets (contexts engine) Pre (some (h, .new, engine.fresh)) (body h)) :
    Meets (contexts engine) Pre none (newContext body) := by
  refine ⟨trivial, fun b cell' hleads => ?_⟩
  cases b with
  | some h =>
    obtain rfl : cell' = some (h, .new, engine.fresh) := hleads
    exact hbody h
  | none => trivial

theorem replay_snoc (con : Terminal W) (engine : Runtime G) (done : List ReplInput)
    (input : ReplInput) : replay con engine (done ++ [input]) =
      replayInput con engine (replay con engine done) input := by
  rw [replay, List.foldl_append]
  rfl

/-- The commands other than `.clear`. -/
abbrev PlainCommand (input : Bytes) : Prop :=
  input = [] ∨ input = bytes ".exit" ∨ input = bytes ".quit" ∨ input = bytes ".help"

theorem not_plain {input : Bytes} (hblank : input ≠ [])
    (hexit : ¬ (input = bytes ".exit" ∨ input = bytes ".quit")) (hhelp : input ≠ bytes ".help") :
    ¬ PlainCommand input := by
  rintro (h | h | h | h)
  · exact hblank h
  · exact hexit (.inl h)
  · exact hexit (.inr h)
  · exact hhelp h

theorem replayInput_plain {text : Bytes} (st : ℕ × G) (hplain : PlainCommand (con.trim text)) :
    replayInput con engine st (.line text) = st := by
  rw [replayInput]
  exact if_pos hplain

theorem replayInput_clear {text : Bytes} (st : ℕ × G) (hplain : ¬ PlainCommand (con.trim text))
    (hclear : con.trim text = bytes ".clear") :
    replayInput con engine st (.line text) = (1, engine.fresh) := by
  rw [replayInput]
  exact (if_neg hplain).trans (if_pos hclear)

theorem replayInput_eval {text : Bytes} (st : ℕ × G) (hplain : ¬ PlainCommand (con.trim text))
    (hclear : con.trim text ≠ bytes ".clear") :
    replayInput con engine st (.line text) =
      (st.1 + 1, (engine.eval (con.trim text)
        (bytes ("<repl:" ++ toString st.1 ++ ">")) st.2).2) := by
  rw [replayInput]
  exact (if_neg hplain).trans (if_neg hclear)

/-- The loop, in the context that the inputs up to now have made. -/
theorem meets_loop {lineNum : ℕ} {s : BeamjsContext × G} {done rest : List ReplInput}
    (hinputs : inputs = done ++ rest) (hready : s.1.hostReplyReady = false)
    (hdone : replay con engine done = (lineNum, s.2)) :
    Meets (contexts engine) (Evaluates con engine inputs) (some (h, s))
      (loop con h lineNum rest) := by
  induction rest generalizing h lineNum s done with
  | nil => exact meets_put _ _ trivial
  | cons input rest ih =>
    have hinputs' : inputs = (done ++ [input]) ++ rest := by simpa using hinputs
    unfold loop
    refine meets_put _ _ ?_
    cases input with
    | eof | error => exact meets_put _ _ trivial
    | line text =>
      have hreplay := replay_snoc con engine done (.line text)
      rw [hdone] at hreplay
      dsimp only
      split_ifs with hblank hexit hhelp hclear
      · refine ih hinputs' hready ?_
        rw [hreplay, replayInput_plain _ (.inl hblank)]
      · exact meets_put _ _ trivial
      · refine meets_put _ _ (ih hinputs' hready ?_)
        rw [hreplay, replayInput_plain _ (.inr (.inr (.inr hhelp)))]
      · refine ⟨?_, ?_⟩
        · rintro t ht
          cases ht
          exact ⟨hready, done, text, rest, hinputs, hclear⟩
        · rintro b cell' ⟨t, t', -, -, rfl⟩
          refine meets_newContext fun h' => meets_put _ _ (ih hinputs' rfl ?_)
          rw [hreplay, replayInput_clear _ (not_plain hblank hexit hhelp) hclear]
      · refine ⟨?_, ?_⟩
        · rintro t ht
          cases ht
          exact ⟨hready, done, text, rest, hinputs, rfl, by rw [hdone], by rw [hdone]⟩
        · rintro b cell' ⟨t, t', ht, hu, rfl⟩
          cases ht
          obtain ⟨hready', hengine⟩ := use_eval hu
          cases b with
          | ok result =>
            refine meets_report _ (ih hinputs' (hready'.trans hready) ?_)
            rw [hreplay, hengine, replayInput_eval _ (not_plain hblank hexit hhelp) hclear]
          | error e => trivial

theorem meets_start :
    Meets (contexts engine) (Evaluates con engine inputs) none (start con inputs) :=
  meets_newContext fun _ =>
    meets_put _ _ (meets_put _ _ (meets_loop (List.nil_append inputs).symm rfl rfl))

end Repl

/-! ## The sessions -/

/-- What a session holds when it returns. -/
def Session.leaves (session : Session) (held : Option ℕ) : Prop :=
  session.isTemporary = true → held = none

/-- Every session is in custody. -/
theorem holding_session (sys : Otp W) (con : Terminal W) (session : Session) :
    Holding session.leaves none (session.program sys con) := by
  have hlasting : ∀ {p : SessionProgram W}, session.isTemporary = false →
      Holding (fun _ => True) none p → Holding session.leaves none p := by
    intro p hsession hp
    refine InCustody.mono (fun held _ h => ?_) hp
    cases hsession.symm.trans h
  cases session with
  | process opts messages => exact hlasting rfl (holding_processSession sys opts messages)
  | evalSync source filename =>
    exact InCustody.mono (fun _ h _ => h) (holding_evalSyncSession source filename)
  | task source => exact InCustody.mono (fun _ h _ => h) (holding_taskSession source)
  | agentUpdate fnSource current =>
    exact InCustody.mono (fun _ h _ => h) (holding_agentUpdateSession fnSource current)
  | repl inputs => exact hlasting rfl (Repl.holding_start inputs)

/-- Any number of sessions in one virtual machine, in any interleaving and with any engine: no call
of the NIF uses an engine that is gone, every engine that is there has a session of its own that
holds it, a temporary evaluation that has returned holds none, and each session is where it could
have come to alone, with an engine that no other session has touched. -/
theorem sessions_keep_apart (engine : Runtime G) (sys : Otp W) (con : Terminal W)
    (sessions : ℕ → Session) (world : W)
    {x : Pool ℕ ContextUse (Except Term Term) (BeamjsContext × G) W Term Term}
    (hx : (sessionsOf engine sys con sessions world).Reachable x) :
    (∀ i run act, nifActOf run (x.clients i) = some act → EngineSafe (handlesOf x) act) ∧
    ∃ holds : ℕ → Option (ℕ × BeamjsContext × G),
      (∀ i h s, holds i = some (h, s) → x.table[h]? = some s) ∧
      (∀ i j h s t, holds i = some (h, s) → holds j = some (h, t) → i = j) ∧
      (∀ h c g, x.table[h]? = some (c, g) → c.ctx = .live → ∃ i, holds i = some (h, c, g)) ∧
      (∀ i t, (sessions i).isTemporary = true → x.clients i = .runs (.ret t) → holds i = none) ∧
      ∀ i, (alone (contexts engine) ((sessions i).program sys con)).Reachable
        ⟨x.clients i, holds i⟩ := by
  obtain ⟨holds, hapart⟩ := Pool.apart (Q := fun i => (sessions i).leaves)
    (fun i => holding_session sys con (sessions i)) hx
  refine ⟨fun i run act hact => engineSafe_of_apart hapart hact, holds, hapart.table,
    hapart.distinct, fun h c g hc hlive => ?_, fun i t htemp hret => ?_, hapart.alone⟩
  · rcases hapart.held h (c, g) hc with hclosed | hheld
    · cases hlive.symm.trans hclosed
    · exact hheld
  · have hcustody := hapart.custody i
    rw [hret] at hcustody
    exact Option.map_eq_none_iff.mp (hcustody htemp)

/-- An engine in which every evaluation returns `undefined`. -/
def quietRuntime : Runtime Unit where
  fresh := ()
  eval _ _ g := (.ends (.returns (.tuple [.ok, .atom "undefined"])), g)
  setGlobal _ _ g := (.ends (.returns .ok), g)
  wake g := (.ends (.returns .ok), g)

/-- A terminal that shows nothing. -/
def blankTerminal : Terminal Unit where
  stdout _ w := w
  stderr _ w := w
  trim b := b
  interpolate _ := .ok []
  inspect _ := []
  otpRelease := bytes "26"

/-- Two evaluations, of which the first is over and the second has its context. -/
def twoEvaluations :
    Option (Pool ℕ ContextUse (Except Term Term) (BeamjsContext × Unit) Unit Term Term) :=
  Lts.exec (fun act x => x.step (contexts quietRuntime) act) [.step 0, .step 1, .step 0, .step 0]
    ⟨fun _ => .runs (evalSyncSession [] []), [], ()⟩

theorem sessions_keep_apart_two :
    ∃ x, (sessionsOf quietRuntime loneOtp blankTerminal (fun _ => .evalSync [] []) ()).Reachable x ∧
      (handlesOf x).map BeamjsContext.ctx = [.null, .live] ∧
      ∀ i run act, nifActOf run (x.clients i) = some act → EngineSafe (handlesOf x) act := by
  have hends : twoEvaluations.map (fun x => (handlesOf x).map BeamjsContext.ctx) =
      some [.null, .live] := by
    simp only [twoEvaluations, evalSyncSession, evalSync, Callback.eval, Program.lift, Callback.on]
    rfl
  obtain ⟨x, hx, hctx⟩ := Option.map_eq_some_iff.mp hends
  have hreach : Lts.Reachable
      (sessionsOf quietRuntime loneOtp blankTerminal (fun _ => .evalSync [] []) ()) x :=
    .of_exec (fun _ _ _ h => h) rfl hx
  exact ⟨x, hreach, hctx,
    (sessions_keep_apart quietRuntime loneOtp blankTerminal (fun _ => .evalSync [] []) () hreach).1⟩

/-- Whatever else runs in the virtual machine, and whatever the engine does: a REPL evaluates its
lines in order and under their numbers, in a context that has seen exactly the lines since the last
`.clear`, and makes no other call on it but to destroy it at a `.clear`. -/
theorem repl_evaluates (engine : Runtime G) (sys : Otp W) (con : Terminal W)
    (sessions : ℕ → Session) (world : W)
    {x : Pool ℕ ContextUse (Except Term Term) (BeamjsContext × G) W Term Term}
    (hx : (sessionsOf engine sys con sessions world).Reachable x) {i : ℕ} {inputs : List ReplInput}
    (hi : sessions i = .repl inputs) {h : ℕ} {u : ContextUse}
    (hu : useOf (x.clients i) = some (h, u)) :
    ∃ c g, x.table[h]? = some (c, g) ∧ Repl.Evaluates con engine inputs u (c, g) := by
  obtain ⟨next, hnext⟩ := useOf_eq_some hu
  obtain ⟨holds, hapart⟩ := Pool.apart (Q := fun i => (sessions i).leaves)
    (fun i => holding_session sys con (sessions i)) hx
  have hcustody := hapart.custody i
  have halone := hapart.alone i
  rw [hnext] at hcustody halone
  obtain ⟨⟨c, g⟩, hcell, htable⟩ := hapart.holds hcustody.1
  refine ⟨c, g, htable, ?_⟩
  rw [hi] at halone
  obtain ⟨hmeets, -⟩ := meets_of_alone (fun u s s' hu => hu.suspended) Repl.meets_start halone
  exact (hmeets _ rfl).1 (c, g) hcell

/-- A REPL that has read its first line. -/
def oneLine : Option (Pool ℕ ContextUse (Except Term Term) (BeamjsContext × Unit) Unit Term Term) :=
  Lts.exec (fun act x => x.step (contexts quietRuntime) act) [.step 0, .step 0, .step 0, .step 0]
    ⟨fun _ => .runs (Repl.start blankTerminal [.line (bytes "x")]), [], ()⟩

theorem repl_evaluates_oneLine :
    ∃ x u, (sessionsOf quietRuntime loneOtp blankTerminal (fun _ => .repl [.line (bytes "x")])
        ()).Reachable x ∧
      useOf (x.clients 0) = some (0, u) ∧
      ∃ c g, x.table[0]? = some (c, g) ∧
        Repl.Evaluates blankTerminal quietRuntime [.line (bytes "x")] u (c, g) := by
  have hends : oneLine.map (fun x => (useOf (x.clients 0)).map Prod.fst) = some (some 0) := rfl
  obtain ⟨x, hx, huse⟩ := Option.map_eq_some_iff.mp hends
  obtain ⟨⟨h, u⟩, hu, rfl⟩ := Option.map_eq_some_iff.mp huse
  have hreach : Lts.Reachable (sessionsOf quietRuntime loneOtp blankTerminal
      (fun _ => .repl [.line (bytes "x")]) ()) x := .of_exec (fun _ _ _ h => h) rfl hx
  exact ⟨x, u, hreach, hu, repl_evaluates quietRuntime loneOtp blankTerminal
    (fun _ => .repl [.line (bytes "x")]) () hreach rfl hu⟩

end BeamJS
