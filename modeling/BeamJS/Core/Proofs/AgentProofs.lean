import BeamJS.Core.Agent
import BeamJS.Core.Proofs.HostFailureProofs
import BeamJS.Nif.Proofs.EvalProofs
import BeamJS.Nif.Proofs.TransportProofs

/-!
# Proofs: agents are cells, as far as they keep to the condition

An operation takes effect when the agent serves its request. What one request does is worked out
first, and a run then extends a linearization of its history step by step.
-/

namespace BeamJS

open Lib JsValue

variable {host : AgentHost}

/-! ## One update -/

theorem updated_returns {fnSource : Bytes} {current new : Term}
    (h : nifEval host.maps (host.program fnSource (host.copy current)) =
      .returns (.tuple [.atom "ok", new])) :
    host.updated (.binary fnSource) current = .ok new := by
  rw [AgentHost.program, AgentHost.copy] at h
  simp only [AgentHost.updated, host.interpolate_binary, agentUpdateBody, Callback.setGlobal,
    Callback.eval, Program.lift, Program.perform_bind, Program.ret_bind, Program.run,
    AgentHost.tempOp, if_true, h]
  rfl

theorem updated_throws {fnSource : Bytes} {current reason : Term}
    (h : nifEval host.maps (host.program fnSource (host.copy current)) =
      .returns (.errorTuple reason)) :
    host.updated (.binary fnSource) current = .ok current := by
  rw [AgentHost.program, AgentHost.copy] at h
  simp only [AgentHost.updated, host.interpolate_binary, agentUpdateBody, Callback.setGlobal,
    Callback.eval, Program.lift, Program.perform_bind, Program.ret_bind, Program.run,
    AgentHost.tempOp, if_true, h]
  rfl

/-- Under the condition the agent ends with the result of the function, or as it was. -/
theorem updated_of_applies {fn : PureFn} {t : Term} {origin : JsValue}
    (h : host.Applies fn t origin) :
    (∃ v, fn.apply (host.copy t) = .ok (.tree v) ∧ isPlainData v = true ∧
      jsEval (host.program (toCStringLen fn.text) (host.copy t)) = .ok (.tree v) ∧
      host.updated (.binary (toCStringLen fn.text)) t = .ok (termOf host.maps v)) ∨
    (∃ exc, fn.apply (host.copy t) = .error exc ∧
      jsEval (host.program (toCStringLen fn.text) (host.copy t)) = .error exc ∧
      host.updated (.binary (toCStringLen fn.text)) t = .ok t) := by
  obtain ⟨-, hprogram, hend⟩ := h
  have heval : jsEval (host.program (toCStringLen fn.text) (host.copy t)) =
      fn.apply (host.copy t) := by
    rw [hprogram]
    rfl
  cases hfn : fn.apply (host.copy t) with
  | ok v =>
    cases v with
    | tree v =>
      rw [hfn] at hend heval
      refine .inl ⟨v, rfl, hend, heval, updated_returns ?_⟩
      rw [nifEval, heval]
      dsimp only
      rw [EvalValue.toErl, jsValueToErl_plain host.maps hend]
    | cyclic =>
      rw [hfn] at hend
      exact hend.elim
  | error exc =>
    rw [hfn] at hend heval
    obtain ⟨reason, hreason⟩ : ∃ reason, exc.exceptionToErl host.maps =
        .returns (.errorTuple reason) := (exceptionToErl_eq_returns exc).mpr hend
    have hthrown : nifEval host.maps (host.program (toCStringLen fn.text) (host.copy t)) =
        .returns (.errorTuple reason) := by
      rw [nifEval, heval]
      exact hreason
    exact .inr ⟨exc, rfl, heval, updated_throws hthrown⟩

/-! ## One request -/

theorem deserialize_of_reaches {handle : AgentHandle host} (h : handle.reaches = true) :
    ∃ p, deserializePid host.base.pids handle.term = some p ∧ host.isAgent p = true := by
  obtain ⟨p, hp⟩ := Option.isSome_iff_exists.mp h
  exact ⟨p, hp, handle.only p hp⟩

theorem serve_get_rejected {c : AgentCall host} {fn : Option PureFn} (hop : c.op = .get fn)
    (h : c.handle.reaches = false) (agent : Option Term) :
    c.serve agent = (.ok (inspectError host.otp (.atom "invalid_pid"), c.caller), agent) := by
  have hnone : deserializePid host.otp.pids c.handle.term = none :=
    Option.isSome_eq_false_iff.mp h |> Option.isNone_iff_eq_none.mp
  simp only [AgentCall.serve, hop, AgentOp.hostFn, dispatchHostCall, withPid, hnone]
  rfl

theorem serve_update_rejected {c : AgentCall host} {fn : PureFn} (hop : c.op = .update fn)
    (h : c.handle.reaches = false) (agent : Option Term) :
    c.serve agent = (.ok (.errorTuple (.binary (host.otp.inspect (.atom "invalid_pid"))), c.caller),
      agent) := by
  have hnone : deserializePid host.otp.pids c.handle.term = none :=
    Option.isSome_eq_false_iff.mp h |> Option.isNone_iff_eq_none.mp
  simp only [AgentCall.serve, hop, AgentOp.hostFn, dispatchHostCall, withPid, hnone]
  rfl

/-- A handle that is rejected leaves the agent alone, and an update does not succeed. -/
theorem serve_rejected {c : AgentCall host} (h : c.handle.reaches = false) (agent : Option Term) :
    ∃ reply, c.serve agent = (.ok (reply, c.caller), agent) ∧
      ∀ fn, c.op = .update fn → (erlTermToJs c.known reply).1 ≠ updateOk := by
  cases hop : c.op with
  | get fn => exact ⟨_, serve_get_rejected hop h agent, fun fn' hfn => by cases hfn⟩
  | update fn =>
    refine ⟨_, serve_update_rejected hop h agent, fun fn' _ => ?_⟩
    rw [Term.errorTuple, erlTermToJs]
    exact JsValue.noConfusion

/-- A handle that reaches the agent hands the operation to it. -/
theorem serve_get {c : AgentCall host} {fn : Option PureFn} (hop : c.op = .get fn)
    (h : c.handle.reaches = true) (t : Term) : c.serve (some t) = (.ok (t, c.caller), some t) := by
  obtain ⟨p, hp, hagent⟩ := deserialize_of_reaches h
  have hpid : deserializePid host.otp.pids c.handle.term = some p := hp
  have hget : host.otp.agentGet p (some t) = (.ok t, some t) := if_pos hagent
  simp only [AgentCall.serve, hop, AgentOp.hostFn, dispatchHostCall, withPid, hpid]
  exact Program.run_lift_ok hget

theorem serve_update {c : AgentCall host} {fn : PureFn} (hop : c.op = .update fn)
    (h : c.handle.reaches = true) {t new : Term}
    (hnew : host.updated (.binary (toCStringLen fn.text)) t = .ok new) :
    c.serve (some t) = (.ok (.ok, c.caller), some new) := by
  obtain ⟨p, hp, hagent⟩ := deserialize_of_reaches h
  have hpid : deserializePid host.otp.pids c.handle.term = some p := hp
  have hupdate : host.otp.agentUpdate p (.binary (toCStringLen fn.text)) (some t) =
      (.ok (), some new) := by
    refine (if_pos hagent).trans ?_
    rw [hnew]
  simp only [AgentCall.serve, hop, AgentOp.hostFn, AgentOp.fnSource, dispatchHostCall, withPid, hpid]
  exact Program.run_lift_ok hupdate

/-- Whoever asks an agent that is down goes down. -/
theorem serve_down {c : AgentCall host} (h : c.handle.reaches = true) :
    ∃ reason, c.serve none = (.error reason, none) := by
  obtain ⟨p, hp, hagent⟩ := deserialize_of_reaches h
  have hpid : deserializePid host.otp.pids c.handle.term = some p := hp
  refine ⟨.atom "noproc", ?_⟩
  cases hop : c.op with
  | get fn =>
    have hget : host.otp.agentGet p none = (.error (.atom "noproc"), none) := if_pos hagent
    simp only [AgentCall.serve, hop, AgentOp.hostFn, dispatchHostCall, withPid, hpid]
    exact Program.run_lift_error hget
  | update fn =>
    have hupdate (source : Term) :
        host.otp.agentUpdate p source none = (.error (.atom "noproc"), none) := if_pos hagent
    simp only [AgentCall.serve, hop, AgentOp.hostFn, dispatchHostCall, withPid, hpid]
    exact Program.run_lift_error (hupdate _)

/-! ## A request as an operation of the cell -/

/-- The state of the agent is the term of plain data, the state of the cell. -/
structure HoldsState (host : AgentHost) (agent : Option Term) (origin s : JsValue) : Prop where
  same : ∀ t, agent = some t → s = origin
  plain : ∀ t, agent = some t → isPlainData origin = true
  term : ∀ t, agent = some t → jsValueToErl host.maps origin = some t

theorem HoldsState.down {origin s : JsValue} : HoldsState host none origin s := by
  constructor <;> rintro _ ⟨⟩

theorem HoldsState.up {t : Term} {origin : JsValue} (hplain : isPlainData origin = true)
    (hterm : jsValueToErl host.maps origin = some t) : HoldsState host (some t) origin origin := by
  constructor
  · intros; rfl
  · intros; exact hplain
  · rintro _ ⟨⟩
    exact hterm

/-- What is transportable arrives deep-equal. -/
theorem HoldsState.arrives {t : Term} {origin s : JsValue} (h : HoldsState host (some t) origin s)
    {known : Atoms} (htrans : Transportable host.maps known origin) :
    deepEq (erlTermToJs known t).1 origin = true := by
  obtain ⟨t', ht', heq⟩ :=
    (arrives_iff_transportable host.maps known (h.plain t rfl)).mpr htrans
  obtain rfl := Option.some.inj ((h.term t rfl).symm.trans ht')
  exact heq

/-- A request with a reply is one operation of the cell. -/
theorem serve_cell {c : AgentCall host} {agent agent' : Option Term} {origin s : JsValue}
    {reply : Term} {p : ProcState} (hkept : c.Kept agent origin) (h : HoldsState host agent origin s)
    (hserve : c.serve agent = (.ok (reply, p), agent')) :
    ∃ s', Cell s c.op (erlTermToJs c.known reply).1 s' ∧
      HoldsState host agent' (c.originAfter agent origin) s' := by
  unfold AgentCall.Kept at hkept
  cases hreach : c.handle.reaches with
  | false =>
    obtain ⟨reply', hserve', hne⟩ := serve_rejected hreach agent
    rw [hserve'] at hserve
    cases hserve
    have horigin : c.originAfter agent origin = origin := by
      unfold AgentCall.originAfter
      rw [hreach]
      split <;> rfl
    rw [horigin]
    cases hop : c.op with
    | get fn =>
      rw [hop, hreach] at hkept
      cases hkept.1
    | update fn => exact ⟨s, .refused (hne fn hop), h⟩
  | true =>
    cases agent with
    | none =>
      obtain ⟨reason, hdown⟩ := serve_down hreach
      rw [hdown] at hserve
      cases hserve
    | some t =>
      obtain rfl := h.same t rfl
      cases hop : c.op with
      | get fn =>
        rw [hop] at hkept
        obtain ⟨htrans, v, hv, heq⟩ := hkept.2 ⟨t, rfl⟩
        have horigin : c.originAfter (some t) s = s := by
          unfold AgentCall.originAfter
          rw [hop]
        have hrefl : deepEq s s = true := deepEq_refl (isData_of_isPlainData (h.plain t rfl))
        rw [serve_get hop hreach] at hserve
        cases hserve
        rw [horigin]
        exact ⟨s, .get hrefl hv (deepEq_trans (h.arrives htrans) heq), h⟩
      | update fn =>
        rw [hop] at hkept
        have happlies := hkept hreach t rfl
        have hcopy : deepEq (host.copy t) s = true := h.arrives happlies.1
        rcases updated_of_applies happlies with ⟨v, hfn, hplain, heval, hnew⟩ | ⟨exc, hfn, heval, hnew⟩
        · have horigin : c.originAfter (some t) s = v := by
            simp only [AgentCall.originAfter, hop, hreach, heval, if_true]
          rw [serve_update hop hreach hnew] at hserve
          cases hserve
          rw [horigin]
          exact ⟨v, .update hcopy hfn, .up hplain (jsValueToErl_plain host.maps hplain)⟩
        · have horigin : c.originAfter (some t) s = s := by
            simp only [AgentCall.originAfter, hop, hreach, heval, if_true]
          rw [serve_update hop hreach hnew] at hserve
          cases hserve
          rw [horigin]
          exact ⟨s, .throws hcopy hfn, h⟩

theorem step_serve {x : Agents host} {i id : ℕ} {c : AgentCall host} {agent' : Option Term}
    {reply : Term} {p : ProcState} (hget : x.pending[i]? = some (id, c))
    (hserve : c.serve x.agent = (.ok (reply, p), agent')) :
    x.step (.serve i) = some { x with
      agent := agent'
      origin := c.originAfter x.agent x.origin
      pending := x.pending.eraseIdx i
      replies := x.replies ++ [(id, (erlTermToJs c.known reply).1)] } := by
  rw [Agents.step, hget]
  dsimp only
  rw [hserve]

/-- Under the condition only an agent that is down takes a caller down. -/
theorem serve_error {c : AgentCall host} {agent agent' : Option Term} {origin s : JsValue}
    {reason : Term} (hkept : c.Kept agent origin) (h : HoldsState host agent origin s)
    (hserve : c.serve agent = (.error reason, agent')) : agent' = none := by
  unfold AgentCall.Kept at hkept
  cases hreach : c.handle.reaches with
  | false =>
    obtain ⟨reply, hserve', -⟩ := serve_rejected hreach agent
    rw [hserve'] at hserve
    cases hserve
  | true =>
    cases agent with
    | none =>
      obtain ⟨reason', hdown⟩ := serve_down hreach
      rw [hdown] at hserve
      cases hserve
      rfl
    | some t =>
      cases hop : c.op with
      | get fn =>
        rw [serve_get hop hreach] at hserve
        cases hserve
      | update fn =>
        rw [hop] at hkept
        rcases updated_of_applies (hkept hreach t rfl) with ⟨v, -, -, -, hnew⟩ | ⟨exc, -, -, hnew⟩ <;>
        · rw [serve_update hop hreach hnew] at hserve
          cases hserve

/-! ## Runs -/

/-- The history so far has a linearization that ends in the state of the agent. -/
structure AgentInv (v0 : JsValue) (x : Agents host) (order : List (Effect AgentOp JsValue))
    (s : JsValue) : Prop where
  lin : Linearization Cell v0 x.history order s
  holds : HoldsState host x.agent x.origin s
  pending : ∀ p ∈ x.pending, .call p.1 p.2.op ∈ x.history ∧ p.1 ∉ order.map Effect.id
  pendingNodup : (x.pending.map Prod.fst).Nodup
  replies : ∀ p ∈ x.replies, ∃ op, ⟨p.1, op, p.2⟩ ∈ order
  ids : ∀ id op, .call id op ∈ x.history → id < x.history.length

theorem eq_of_agentStart {α : Type} {value t : Term} {name : Option Term}
    {next : Except Term Pid → Callback (Option Term) α}
    (hnext : ∀ result agent, ((next result).run worldOp agent).2 = agent)
    (h : ((Callback.otp (host.otp.agentStart value name) >>= next).run worldOp none).2 = some t) :
    t = value := by
  have hstate : (host.otp.agentStart value name none).2 = some t → t = value := by
    intro hagent
    simp only [AgentHost.otp] at hagent
    split at hagent
    · exact (Option.some.inj hagent).symm
    · cases hagent
    · cases hagent
  cases hstart : host.otp.agentStart value name none with
  | mk result agent =>
    rw [hstart] at hstate
    cases result with
    | error reason =>
      rw [Callback.otp, Program.run_lift_error hstart] at h
      exact hstate h
    | ok result =>
      rw [Callback.otp, Program.run_lift_ok hstart, hnext] at h
      exact hstate h

/-- Started with plain data, the agent holds it. -/
theorem holds_started {v0 : JsValue} (hv0 : isPlainData v0 = true) {t0 opts : Term} {s : ProcState}
    (ht0 : jsValueToErl host.maps v0 = some t0) :
    HoldsState host ((dispatchHostCall host.otp .agentStart [t0, opts] s).run worldOp none).2 v0 v0 := by
  suffices h : ∀ t, ((dispatchHostCall host.otp .agentStart [t0, opts] s).run worldOp none).2 = some t →
      t = t0 by
    exact ⟨fun _ _ => rfl, fun _ _ => hv0, fun t ht => (h t ht).symm ▸ ht0⟩
  intro t ht
  rw [dispatchHostCall] at ht
  cases hname : mapGet (if opts.truthy then opts else host.otp.maps.toMap []) "name" with
  | error reason =>
    rw [hname] at ht
    cases ht
  | ok name =>
    rw [hname] at ht
    simp only [Callback.ofExcept, Program.ret_bind] at ht
    exact eq_of_agentStart (fun result agent => by cases result <;> rfl) ht

theorem agentInv_init {v0 : JsValue} (hv0 : isPlainData v0 = true) {x : Agents host}
    (h : (agentLts host v0).init x) : AgentInv v0 x [] v0 := by
  obtain ⟨⟨t0, opts, s, ht0, hagent⟩, horigin, hpending, hreplies, hhistory⟩ := h
  constructor
  · rw [hhistory]
    exact .nil
  · rw [hagent, horigin]
    exact holds_started hv0 ht0
  · simp [hpending]
  · simp [hpending]
  · simp [hreplies]
  · simp [hhistory]

theorem agentInv_step {v0 : JsValue} {x y : Agents host} {e : AgentEvent host}
    {order : List (Effect AgentOp JsValue)} {s : JsValue} (h : AgentInv v0 x order s)
    (hst : x.step e = some y) (hkept : e.Kept x) : ∃ order s, AgentInv v0 y order s := by
  cases e with
  | call c =>
    cases hst
    have hnew : ∀ op, .call x.history.length op ∉ x.history := fun op hmem =>
      Nat.lt_irrefl _ (h.ids _ _ hmem)
    refine ⟨order, s, h.lin.call c.op hnew, h.holds, ?_, ?_, h.replies, ?_⟩
    · intro p hp
      rcases List.mem_append.mp hp with hp | hp
      · exact ⟨List.mem_append_left _ (h.pending p hp).1, (h.pending p hp).2⟩
      · obtain rfl := List.mem_singleton.mp hp
        refine ⟨by simp, fun hmem => ?_⟩
        obtain ⟨effect, heffect, hid⟩ := List.mem_map.mp hmem
        exact hnew _ (hid ▸ h.lin.called effect heffect)
    · rw [List.map_append, List.map_singleton]
      refine h.pendingNodup.append (List.nodup_singleton _) ?_
      rw [List.disjoint_singleton]
      intro hmem
      obtain ⟨p, hp, hid⟩ := List.mem_map.mp hmem
      exact hnew _ (hid ▸ (h.pending p hp).1)
    · intro id op hmem
      rw [List.length_append, List.length_singleton]
      rcases List.mem_append.mp hmem with hmem | hmem
      · exact (h.ids id op hmem).trans (Nat.lt_succ_self _)
      · simp only [List.mem_singleton, HistoryEvent.call.injEq] at hmem
        omega
  | serve i =>
    simp only [Agents.step] at hst
    cases hget : x.pending[i]? with
    | none =>
      rw [hget] at hst
      cases hst
    | some p =>
      obtain ⟨id, c⟩ := p
      rw [hget] at hst
      dsimp only at hst
      have hc : c.Kept x.agent x.origin := hkept id c hget
      obtain ⟨hcalled, hid⟩ := h.pending (id, c) (List.mem_of_getElem? hget)
      have hpending : ∀ p ∈ x.pending.eraseIdx i, .call p.1 p.2.op ∈ x.history ∧
          p.1 ∉ order.map Effect.id ∧ p.1 ≠ id := by
        intro p hp
        obtain ⟨hp₁, hp₂⟩ := h.pending p (List.mem_of_mem_eraseIdx hp)
        refine ⟨hp₁, hp₂, fun hpid => ?_⟩
        -- the identifiers are distinct, so that `p` would stand at `i`
        obtain ⟨j, hj, hjget⟩ := List.mem_eraseIdx_iff_getElem?.mp hp
        have hlt : j < (x.pending.map Prod.fst).length := by
          rw [List.length_map]
          exact (List.getElem?_eq_some_iff.mp hjget).1
        refine hj ((List.getElem?_inj hlt h.pendingNodup).mp ?_)
        rw [List.getElem?_map, List.getElem?_map, hjget, hget, Option.map_some, Option.map_some, hpid]
      have hnodup : ((x.pending.eraseIdx i).map Prod.fst).Nodup :=
        h.pendingNodup.sublist ((List.eraseIdx_sublist _ _).map _)
      cases hserve : c.serve x.agent with
      | mk result agent' =>
        rw [hserve] at hst
        cases result with
        | error reason =>
          cases hst
          obtain rfl := serve_error hc h.holds hserve
          refine ⟨order, s, h.lin, .down, fun p hp => ?_, hnodup, h.replies, h.ids⟩
          exact ⟨(hpending p hp).1, (hpending p hp).2.1⟩
        | ok result =>
          obtain ⟨reply, p⟩ := result
          cases hst
          obtain ⟨s', hcell, hholds⟩ := serve_cell hc h.holds hserve
          refine ⟨order ++ [⟨id, c.op, (erlTermToJs c.known reply).1⟩], s',
            h.lin.effect hcalled hid hcell, hholds, ?_, hnodup, ?_, h.ids⟩
          · intro p hp
            obtain ⟨hp₁, hp₂, hp₃⟩ := hpending p hp
            exact ⟨hp₁, by simpa using ⟨by simpa using hp₂, hp₃⟩⟩
          · intro p hp
            rcases List.mem_append.mp hp with hp | hp
            · obtain ⟨op, hop⟩ := h.replies p hp
              exact ⟨op, List.mem_append_left _ hop⟩
            · obtain rfl := List.mem_singleton.mp hp
              exact ⟨c.op, by simp⟩
  | ret i =>
    simp only [Agents.step] at hst
    cases hget : x.replies[i]? with
    | none =>
      rw [hget] at hst
      cases hst
    | some p =>
      obtain ⟨id, r⟩ := p
      rw [hget] at hst
      cases hst
      obtain ⟨op, hop⟩ := h.replies (id, r) (List.mem_of_getElem? hget)
      refine ⟨order, s, h.lin.ret hop, h.holds, fun p hp => ?_, h.pendingNodup, fun p hp => ?_, ?_⟩
      · exact ⟨List.mem_append_left _ (h.pending p hp).1, (h.pending p hp).2⟩
      · exact h.replies p (List.mem_of_mem_eraseIdx hp)
      · intro id' op' hmem
        rcases List.mem_append.mp hmem with hmem | hmem
        · rw [List.length_append]
          exact (h.ids id' op' hmem).trans_le (Nat.le_add_right _ _)
        · simp at hmem
  | down =>
    cases hst
    exact ⟨order, s, h.lin, .down, h.pending, h.pendingNodup, h.replies, h.ids⟩

theorem kept_step {v0 : JsValue} {x y : Agents host} {e : AgentEvent host}
    (h : ((agentLts host v0).restrict AgentEvent.Kept).Reachable x) (hst : x.step e = some y)
    (hkept : e.Kept x) : ((agentLts host v0).restrict AgentEvent.Kept).Reachable y :=
  h.step ⟨hst, hkept⟩

/-- In every run whose steps meet the condition, the operations on the agent are those of a cell, in
one order that agrees with time. -/
theorem agent_linearizable (host : AgentHost) {v0 : JsValue} (hv0 : isPlainData v0 = true)
    {x : Agents host} (h : ((agentLts host v0).restrict AgentEvent.Kept).Reachable x) :
    Linearizable Cell v0 x.history := by
  have hinit : ∀ x, ((agentLts host v0).restrict AgentEvent.Kept).init x →
      ∃ order s, AgentInv v0 x order s := fun _ hx => ⟨[], v0, agentInv_init hv0 hx⟩
  have hstep : ∀ x e y, (∃ order s, AgentInv v0 x order s) →
      ((agentLts host v0).restrict AgentEvent.Kept).step x e y → ∃ order s, AgentInv v0 y order s :=
    fun _ _ _ ⟨_, _, hx⟩ hst => agentInv_step hx hst.1 hst.2
  obtain ⟨order, s, hinv⟩ := h.invariant hinit hstep
  exact ⟨order, s, hinv.lin⟩

/-! ## Runs of one machine -/

/-- `s => s + 1`, for small whole numbers. -/
def increment : PureFn where
  text := js "s => s + 1"
  apply
    | .number (.int i) => .ok (.tree (.number (.int (i + 1))))
    | _ => .ok (.tree .undefined)

/-- `s => true`. -/
def always : PureFn where
  text := js "s => true"
  apply _ := .ok (.tree (.bool true))

/-- A machine that knows the text of `increment`. -/
def sampleHost : AgentHost where
  base :=
    { loneOtp with
      agentStart := fun _ _ w => (.ok (.ok 110), w)
      inspect := fun
        | .atom name => bytes (":" ++ name)
        | _ => bytes "#Inspect<>"
      interpolate := fun
        | .binary b => .ok b
        | t => .error t }
  pid := 110
  fresh := []
  engine s :=
    { script := fun source =>
        if source = bytes "var __fn = s => s + 1; __fn(__agent_state);" then .ok (increment.apply s)
        else .error (.tree .undefined)
      module := fun _ => .error (.tree .undefined) }
  interpolate_binary _ := rfl

/-- The handle that `Agent.start` makes. -/
def startHandle : AgentHandle sampleHost where
  value := firstHandle .insertion sampleCodec [] 110
  term := .binary (bytes "g1h3DW5vbm9kZUBub2hvc3QAAABuAAAAAAAAAAA=")
  converts := by decide +kernel
  only := by rintro _ ⟨⟩

/-- A handle that is not taken for one on its way out of JavaScript. -/
def openHandle : AgentHandle sampleHost where
  value := forgedHandle
  term := serializePid .insertion sampleCodec 110
  converts := by decide +kernel
  only := by
    intro t ht
    have hpid : deserializePid sampleCodec (serializePid .insertion sampleCodec 110) =
        some (.pid 110) := by decide +kernel
    obtain rfl := Option.some.inj (hpid.symm.trans ht)
    rfl

/-- An operation of a process whose runtime knows no names. -/
def sampleCall (handle : AgentHandle sampleHost) (op : AgentOp) : AgentCall sampleHost where
  op := op
  handle := handle
  caller := initialState loneOtp ⟨none, none, none⟩
  known := []

/-- `Agent.start(41)`. -/
def sampleAgents : Agents sampleHost where
  agent := some (.int 41)
  origin := .number (.int 41)
  pending := []
  replies := []
  history := []

theorem init_sampleAgents : (agentLts sampleHost (.number (.int 41))).init sampleAgents :=
  ⟨⟨.int 41, .map [], initialState loneOtp ⟨none, none, none⟩, rfl, rfl⟩, rfl, rfl, rfl, rfl⟩

theorem program_increment (s : JsValue) :
    sampleHost.program (toCStringLen increment.text) s = .script (increment.apply s) := by
  have hsource : bytes "var __fn = " ++ toCStringLen increment.text ++
      bytes "; __fn(__agent_state);" = bytes "var __fn = s => s + 1; __fn(__agent_state);" := by
    decide
  have hscript : isModuleSource (bytes "var __fn = s => s + 1; __fn(__agent_state);") = false := by
    decide
  rw [AgentHost.program, hsource, Compiler.compile, hscript]
  simp only [sampleHost, if_true]
  rfl

/-- `update(s => s + 1)` and `get()` at the same time, of which the update is served first. -/
theorem agent_linearizable_sample :
    ∃ x, ((agentLts sampleHost (.number (.int 41))).restrict AgentEvent.Kept).Reachable x ∧
      .ret 1 (.number (.int 42)) ∈ x.history ∧ Linearizable Cell (.number (.int 41)) x.history := by
  let update := sampleCall openHandle (.update increment)
  let get := sampleCall openHandle (.get none)
  have hreach : openHandle.reaches = true := by decide
  have hupdate : update.serve (some (.int 41)) = (.ok (.ok, update.caller), some (.int 42)) := by
    refine serve_update rfl hreach (updated_returns ?_)
    rw [program_increment]
    rfl
  have hget : get.serve (some (.int 42)) = (.ok (.int 42, get.caller), some (.int 42)) :=
    serve_get rfl hreach _
  have happlies : sampleHost.Applies increment (.int 41) (.number (.int 41)) :=
    ⟨by decide, program_increment _, rfl⟩
  have horigin : update.originAfter (some (.int 41)) (.number (.int 41)) = .number (.int 42) := by
    simp only [AgentCall.originAfter, update, sampleCall, hreach, program_increment]
    rfl
  have hcalls : ((agentLts sampleHost (.number (.int 41))).restrict AgentEvent.Kept).Reachable
      ⟨some (.int 41), .number (.int 41), [(0, update), (1, get)], [],
        [.call 0 update.op, .call 1 get.op]⟩ :=
    kept_step (kept_step (.of_init init_sampleAgents) (e := .call update) rfl trivial)
      (e := .call get) rfl trivial
  have hfirst : ((agentLts sampleHost (.number (.int 41))).restrict AgentEvent.Kept).Reachable
      ⟨some (.int 42), .number (.int 42), [(1, get)], [(0, updateOk)],
        [.call 0 update.op, .call 1 get.op]⟩ := by
    refine kept_step hcalls (e := .serve 0) ((step_serve rfl hupdate).trans ?_) ?_
    · rw [horigin]
      rfl
    · rintro id c ⟨⟩ - t ⟨⟩
      exact happlies
  have hsecond : ((agentLts sampleHost (.number (.int 41))).restrict AgentEvent.Kept).Reachable
      ⟨some (.int 42), .number (.int 42), [], [(0, updateOk), (1, .number (.int 42))],
        [.call 0 update.op, .call 1 get.op]⟩ := by
    refine kept_step hfirst (e := .serve 0) ((step_serve rfl hget).trans rfl) ?_
    rintro id c ⟨⟩
    exact ⟨hreach, fun _ => ⟨by decide, _, rfl, by decide⟩⟩
  have hlast := kept_step hsecond (e := .ret 1) rfl trivial
  exact ⟨_, hlast, by simp, agent_linearizable sampleHost rfl hlast⟩

/-- What a single `get` returned is what its function makes of a copy of the state. -/
theorem get_of_linearizable {v0 r : JsValue} {fn : Option PureFn}
    (h : Linearizable Cell v0 [.call 0 (.get fn), .ret 0 r]) :
    ∃ copy v, deepEq copy v0 = true ∧ applied fn copy = .ok (.tree v) ∧ deepEq r v = true := by
  obtain ⟨order, t, hlin⟩ := h
  have hall : ∀ e ∈ order, e.id = 0 ∧ e.op = .get fn := by
    intro e he
    simpa using hlin.called e he
  obtain ⟨op, hop⟩ := hlin.returned 0 r (by simp)
  obtain rfl : op = .get fn := (hall _ hop).2
  obtain ⟨e, rfl⟩ : ∃ e, order = [e] := by
    match order, hop, hlin.nodup, hall with
    | [e], _, _, _ => exact ⟨e, rfl⟩
    | e :: e' :: rest, _, hnd, hall =>
      have hne := (List.nodup_cons.mp hnd).1
      rw [(hall e (by simp)).1, List.map_cons, (hall e' (by simp)).1] at hne
      simp at hne
  obtain rfl := List.mem_singleton.mp hop
  cases hlin.sequential.of_singleton with
  | get hcopy hfn hr => exact ⟨_, _, hcopy, hfn, hr⟩

/-- `get(s => true)` on an agent with the state 41, by a handle that reaches the agent and by that
of `Agent.start`. -/
theorem agent_get_ignores_function :
    (∃ x, (agentLts sampleHost (.number (.int 41))).Reachable x ∧
      x.history = [.call 0 (.get (some always)), .ret 0 (.number (.int 41))] ∧
      ¬ Linearizable Cell (.number (.int 41)) x.history) ∧
    (∃ x, (agentLts sampleHost (.number (.int 41))).Reachable x ∧
      x.history = [.call 0 (.get (some always)),
        .ret 0 (.object none [(js "error", .string (js ":invalid_pid"))])] ∧
      ¬ Linearizable Cell (.number (.int 41)) x.history) := by
  have hrun (handle : AgentHandle sampleHost) {reply : Term} {p : ProcState} {r : JsValue}
      (hserve : (sampleCall handle (.get (some always))).serve (some (.int 41)) =
        (.ok (reply, p), some (.int 41))) (hr : (erlTermToJs [] reply).1 = r)
      (hne : deepEq r (.bool true) = false) :
      ∃ x, (agentLts sampleHost (.number (.int 41))).Reachable x ∧
        x.history = [.call 0 (.get (some always)), .ret 0 r] ∧
        ¬ Linearizable Cell (.number (.int 41)) x.history := by
    subst hr
    let c := sampleCall handle (.get (some always))
    have hcall : (agentLts sampleHost (.number (.int 41))).Reachable
        ⟨some (.int 41), .number (.int 41), [(0, c)], [], [.call 0 c.op]⟩ :=
      (Lts.Reachable.of_init init_sampleAgents).step (a := .call c) rfl
    have hserved : (agentLts sampleHost (.number (.int 41))).Reachable
        ⟨some (.int 41), .number (.int 41), [], [(0, (erlTermToJs [] reply).1)], [.call 0 c.op]⟩ :=
      hcall.step (a := .serve 0) ((step_serve rfl hserve).trans rfl)
    refine ⟨_, hserved.step (a := .ret 0) rfl, rfl, fun hlin => ?_⟩
    obtain ⟨copy, v, -, hv, heq⟩ := get_of_linearizable hlin
    cases hv
    rw [hne] at heq
    cases heq
  have hopen : (sampleCall openHandle (.get (some always))).handle.reaches = true := by
    decide
  have hstart : (sampleCall startHandle (.get (some always))).handle.reaches = false := by
    decide
  exact ⟨hrun openHandle (serve_get rfl hopen _) rfl rfl,
    hrun startHandle (serve_get_rejected rfl hstart _) rfl rfl⟩

end BeamJS
