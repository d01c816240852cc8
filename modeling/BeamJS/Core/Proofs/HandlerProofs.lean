import BeamJS.Core.Handler
import BeamJS.Nif.Proofs.EvalProofs
import BeamJS.Js.Proofs.ValueProofs

/-!
# Proofs: one request of a GenServer

A request runs its method once, on the state of the context, and goes on with what the evaluation
gives. The clauses of the two callbacks then decide about failures and stops.
-/

namespace BeamJS

open Lib JsValue

section Request

variable {W : Type} {sys : Otp W} {methods : Methods} {ord : MapOrder}

/-- The rest of a callback after its evaluation. -/
def afterEval (caller : Option Term) (t : Term) (p : ProcState) : Callback W Outcome :=
  match caller with
  | some _ => callOutcome t p
  | none => castOutcome t p

section Operations

variable {α : Type} {c : RequestContext W}

theorem run_setGlobal' (name : String) (v : Term) (f : Unit → Callback W α) :
    (Callback.setGlobal name v >>= f).run (RequestContext.op ord methods) c =
      (f ()).run (RequestContext.op ord methods)
        ({ c with known := (erlTermToJs c.known v).2 }.setGlobal name (erlTermToJs c.known v).1) :=
  rfl

/-- The rest `f` of a callback after an evaluation that ends like the method run. -/
def afterMethod (ord : MapOrder) (methods : Methods) (c : RequestContext W) (run : MethodRun)
    (f : Term → Callback W α) : Except Term α × RequestContext W :=
  match RequestContext.evalResult ord run.ended with
  | .ok t => (f t).run (RequestContext.op ord methods) { c with state := run.state }
  | .error e => (.error e, { c with state := run.state })

theorem run_evalMethod {source filename : Bytes} {run : MethodRun}
    (hop : RequestContext.op ord methods (.eval source filename) c =
      (RequestContext.evalResult ord run.ended, { c with state := run.state }))
    (f : Term → Callback W α) :
    (Callback.eval source filename >>= f).run (RequestContext.op ord methods) c =
      afterMethod ord methods c run f := by
  rw [afterMethod]
  cases hended : RequestContext.evalResult ord run.ended with
  | ok t =>
    rw [hended] at hop
    exact Program.run_lift_ok hop
  | error e =>
    rw [hended] at hop
    exact Program.run_lift_error hop

end Operations

/-- A request runs its method and goes on with the result of the evaluation. -/
theorem serveRequest_eq (sys : Otp W) (methods : Methods) (caller : Option Term) (request : Term)
    (p : ProcState)
    (c : RequestContext W) :
    ∃ c' : RequestContext W, serveRequest sys methods caller request p c =
      afterMethod sys.maps methods c' (methodRun sys methods caller request c)
        fun t => afterEval caller t p := by
  cases caller with
  | some caller =>
    simp only [serveRequest, requestCallback, handleCall]
    rw [run_setGlobal', run_setGlobal']
    refine Exists.intro _ (run_evalMethod ?_ _)
    rw [RequestContext.op, if_pos rfl]
    rfl
  | none =>
    simp only [serveRequest, requestCallback, handleCast]
    rw [run_setGlobal']
    refine Exists.intro _ (run_evalMethod ?_ _)
    rw [RequestContext.op, if_neg castSource_ne_callSource, if_pos rfl]
    rfl

/-! ## Requests that fail -/

/-- A context of a GenServer, without its state. -/
def freshContext : RequestContext Unit :=
  ⟨(), [], .tree .undefined, .undefined, .undefined, .undefined⟩

/-- A process that was just started. -/
def freshProc : ProcState := ⟨none, [], [], [], false, .null⟩

theorem evalResult_object {proto : Option JsValue} {props : List (JsString × JsValue)} (t : Term) :
    RequestContext.evalResult ord (.ok (.tree (.object proto props))) = .ok t ↔
      ∃ m, jsValueToErl ord (.object proto props) = some m ∧ t = .tuple [.atom "ok", m] := by
  rw [RequestContext.evalResult, nifEval, jsEval]
  dsimp only [EvalValue.toErl]
  cases jsValueToErl ord (.object proto props) <;> simp [eq_comm]

/-- `handle_call` stops only on a map with `stop` and `reply` and without `state`. -/
theorem callOutcome_stops (m : Term) (p : ProcState) (c : RequestContext W) (reason : Term)
    (reply : Option Term) (p' : ProcState) :
    ((callOutcome (.tuple [.atom "ok", m]) p).run (RequestContext.op ord methods) c).1 =
        .ok (.stop reason reply p') ↔
      m.get? "stop" = some reason ∧ (∃ t, m.get? "reply" = some t ∧ reply = some t) ∧
        m.get? "state" = none ∧ p' = p := by
  simp only [callOutcome]
  split
  · rename_i r newState hr hs
    refine iff_of_false nofun ?_
    rintro ⟨_, _, hnone, _⟩
    cases hs.symm.trans hnone
  · rename_i newState hs _ _
    refine iff_of_false nofun ?_
    rintro ⟨_, _, hnone, _⟩
    cases hs.symm.trans hnone
  · rename_i t r hr hstop hstate
    constructor
    · intro h
      cases h
      exact ⟨hstop, ⟨t, hr, rfl⟩, Option.eq_none_iff_forall_ne_some.mpr hstate, rfl⟩
    · rintro ⟨hreason, ⟨t', ht', rfl⟩, _, rfl⟩
      cases hr.symm.trans ht'
      cases hstop.symm.trans hreason
      rfl
  · rename_i hno
    refine iff_of_false ?_ ?_
    · split
      · nofun
      · nofun
    · rintro ⟨hreason, ⟨t, ht, _⟩, _⟩
      exact hno _ _ ht hreason
  · rename_i hno _
    refine iff_of_false nofun ?_
    rintro ⟨hreason, ⟨t, ht, _⟩, _⟩
    exact hno _ _ ht hreason

/-- `handle_cast` stops only on a map with `stop` and without `noreply: true` and `state`. -/
theorem castOutcome_stops (m : Term) (p : ProcState) (c : RequestContext W) (reason : Term)
    (reply : Option Term) (p' : ProcState) :
    ((castOutcome (.tuple [.atom "ok", m]) p).run (RequestContext.op ord methods) c).1 =
        .ok (.stop reason reply p') ↔
      m.get? "stop" = some reason ∧ reply = none ∧
        ¬ (m.get? "noreply" = some (.atom "true") ∧ (m.get? "state").isSome = true) ∧ p' = p := by
  simp only [castOutcome]
  split
  · rename_i newState hn hs
    refine iff_of_false nofun ?_
    rintro ⟨_, _, hno, _⟩
    exact hno ⟨hn, by rw [hs]; rfl⟩
  · rename_i r hstop hno
    constructor
    · intro h
      cases h
      refine ⟨hstop, rfl, fun ⟨hn, hs⟩ => ?_, rfl⟩
      obtain ⟨newState, hs⟩ := Option.isSome_iff_exists.mp hs
      exact hno newState hn hs
    · rintro ⟨hreason, rfl, _, rfl⟩
      cases hstop.symm.trans hreason
      rfl
  · rename_i hno
    refine iff_of_false nofun ?_
    rintro ⟨hreason, _⟩
    exact hno _ hreason

section Keys

variable {props : List (JsString × JsValue)} {m : Term}

/-- The map of an object with these keys alone shows each of them as it arrives. -/
theorem get?_outcomeKey (hkeys : ∀ k ∈ Assoc.keys props, k ∈ outcomeKeys.map js)
    (hnd : (Assoc.keys props).Nodup) (hm : jsValueToErl ord (.object none props) = some m)
    {k : String} (hk : k ∈ outcomeKeys) : m.get? k = arriving ord props (js k) := by
  have hkey : ∀ k ∈ outcomeKeys, mapKey (js k) = bytes k := by decide
  have hinj : ∀ x ∈ outcomeKeys.map js, ∀ y ∈ outcomeKeys.map js, mapKey x = mapKey y → x = y := by
    decide
  have htag : js "__beamjs_type" ∉ Assoc.keys props := fun hmem =>
    absurd (hkeys _ hmem) (by decide)
  have hmaps : (props.map fun e => mapKey e.1).Nodup := by
    have hmap := List.Nodup.map_on (fun x hx y hy => hinj x (hkeys x hx) y (hkeys y hy)) hnd
    rwa [Assoc.keys, List.map_map] at hmap
  have hconv := jsPropsToMap_eq_some
    ((jsValueToErl_object rfl (isPidHandle_of_notMem htag)).symm.trans hm)
  have hlookup : (props.map fun e => (mapKey e.1, termOf ord e.2)).lookup (mapKey (js k)) =
      (props.lookup (js k)).map (termOf ord) := by
    refine Assoc.lookup_map_key mapKey (termOf ord) fun e he heq => ?_
    exact hinj _ (hkeys _ (Assoc.mem_keys_of_mem he)) _ (List.mem_map_of_mem hk) heq
  rw [get?_object rfl (isPidHandle_of_notMem htag) hmaps hm, ← hkey k hk, hlookup, arriving]
  cases hl : props.lookup (js k) with
  | none => rfl
  | some v => exact (hconv _ (Assoc.mem_of_lookup hl)).symm

theorem arriving_eq_none (hm : jsValueToErl ord (.object none props) = some m)
    (hkeys : ∀ k ∈ Assoc.keys props, k ∈ outcomeKeys.map js) {k : JsString} :
    arriving ord props k = none ↔ k ∉ Assoc.keys props := by
  have htag : js "__beamjs_type" ∉ Assoc.keys props := fun hmem =>
    absurd (hkeys _ hmem) (by decide)
  have hconv := jsPropsToMap_eq_some
    ((jsValueToErl_object rfl (isPidHandle_of_notMem htag)).symm.trans hm)
  rw [← Assoc.lookup_eq_none, arriving]
  cases hl : props.lookup k with
  | none => simp
  | some v => simp [hconv _ (Assoc.mem_of_lookup hl)]

/-- Which combinations of the keys stop the server: for a call those with `reply` and without
`state`, for a cast those without `state` or with a `noreply` other than `true`. -/
theorem arrivesAsStop_iff_keys (caller : Option Term)
    (hkeys : ∀ k ∈ Assoc.keys props, k ∈ outcomeKeys.map js) (hnd : (Assoc.keys props).Nodup)
    (hstop : js "stop" ∈ Assoc.keys props) (hm : jsValueToErl ord (.object none props) = some m) :
    ArrivesAsStop ord caller none props ↔
      match caller with
      | some _ => js "reply" ∈ Assoc.keys props ∧ js "state" ∉ Assoc.keys props
      | none => ¬ (arriving ord props (js "noreply") = some (.atom "true") ∧
          js "state" ∈ Assoc.keys props) := by
  have hget {k : String} (hk : k ∈ outcomeKeys) := get?_outcomeKey hkeys hnd hm hk
  have hnone {k : JsString} := arriving_eq_none hm hkeys (k := k)
  obtain ⟨reason, hreason⟩ : ∃ reason, arriving ord props (js "stop") = some reason :=
    Option.ne_none_iff_exists'.mp fun h => hnone.mp h hstop
  have hs : m.get? "stop" = some reason := (hget (by decide)).trans hreason
  cases caller with
  | some caller =>
    constructor
    · rintro ⟨m', _, hm', _, _, reply, hreply, _, hstate⟩
      cases hm.symm.trans hm'
      rw [hget (by decide), hnone] at hstate
      refine ⟨?_, hstate⟩
      by_contra hno
      cases hreply.symm.trans (hnone.mpr hno)
    · rintro ⟨hr, hstate⟩
      obtain ⟨reply, hreply⟩ : ∃ reply, arriving ord props (js "reply") = some reply :=
        Option.ne_none_iff_exists'.mp fun h => hnone.mp h hr
      refine ⟨m, reason, hm, hreason, hs, reply, hreply, (hget (by decide)).trans hreply, ?_⟩
      rw [hget (by decide)]
      exact hnone.mpr hstate
  | none =>
    have hiff : (m.get? "noreply" = some (.atom "true") ∧ (m.get? "state").isSome = true) ↔
        arriving ord props (js "noreply") = some (.atom "true") ∧ js "state" ∈ Assoc.keys props := by
      rw [hget (by decide), hget (by decide), Option.isSome_iff_ne_none, Ne, hnone, not_not]
    constructor
    · rintro ⟨m', _, hm', _, _, hno⟩
      cases hm.symm.trans hm'
      exact fun h => hno (hiff.mpr h)
    · intro hno
      exact ⟨m, reason, hm, hreason, hs, fun h => hno (hiff.mp h)⟩

end Keys

/-- A request whose method returns an object with `stop` stops the server as asked exactly if the
object arrives as a stop. -/
theorem stop_honoured_iff (sys : Otp W) (methods : Methods) (caller : Option Term) (request : Term)
    (p : ProcState) (c : RequestContext W) {proto : Option JsValue}
    {props : List (JsString × JsValue)}
    (hreturns : (methodRun sys methods caller request c).ended =
      .ok (.tree (.object proto props))) :
    StopsAsAsked sys.maps caller props (serveRequest sys methods caller request p c).1 ↔
      ArrivesAsStop sys.maps caller proto props := by
  obtain ⟨c', hserve⟩ := serveRequest_eq sys methods caller request p c
  rw [hserve, afterMethod, hreturns]
  cases hresult : RequestContext.evalResult sys.maps (.ok (.tree (.object proto props))) with
  | error e =>
    refine iff_of_false ?_ ?_
    · rintro ⟨reason, p', _, hout⟩
      cases caller <;> cases hout
    · rintro ⟨m, reason, hm, _⟩
      cases hresult.symm.trans ((evalResult_object _).mpr ⟨m, hm, rfl⟩)
  | ok t =>
    obtain ⟨m, hm, rfl⟩ := (evalResult_object t).mp hresult
    cases caller with
    | some caller =>
      constructor
      · rintro ⟨reason, p', hreason, hout⟩
        obtain ⟨hs, ⟨reply, hreply, harr⟩, hstate, _⟩ := (callOutcome_stops m p _ _ _ _).mp hout
        exact ⟨m, reason, hm, hreason, hs, reply, harr, hreply, hstate⟩
      · rintro ⟨m', reason, hm', hreason, hs, reply, harr, hreply, hstate⟩
        cases hm.symm.trans hm'
        refine ⟨reason, p, hreason, (callOutcome_stops m p _ _ _ _).mpr ?_⟩
        exact ⟨hs, ⟨reply, hreply, harr⟩, hstate, rfl⟩
    | none =>
      constructor
      · rintro ⟨reason, p', hreason, hout⟩
        obtain ⟨hs, _, hno, _⟩ := (castOutcome_stops m p _ _ _ _).mp hout
        exact ⟨m, reason, hm, hreason, hs, hno⟩
      · rintro ⟨m', reason, hm', hreason, hs, hno⟩
        cases hm.symm.trans hm'
        exact ⟨reason, p, hreason, (castOutcome_stops m p _ _ _ _).mpr ⟨hs, rfl, hno, rfl⟩⟩

/-- A method that says goodbye and asks to stop. -/
def farewellMethods : Methods where
  handleCall _ _ state :=
    ⟨.ok (.tree (.object none [(js "reply", .string (js "bye")), (js "state", .null),
      (js "stop", .string (js "normal"))])), state⟩
  handleCast _ state := ⟨.ok (.tree .undefined), state⟩

/-- The server stops for it only if the returned object arrives as a stop. -/
theorem farewell_stops_iff :
    StopsAsAsked loneOtp.maps (some .ok)
        [(js "reply", .string (js "bye")), (js "state", .null), (js "stop", .string (js "normal"))]
        (serveRequest loneOtp farewellMethods (some .ok) .null freshProc freshContext).1 ↔
      ArrivesAsStop loneOtp.maps (some .ok) none
        [(js "reply", .string (js "bye")), (js "state", .null), (js "stop", .string (js "normal"))] :=
  stop_honoured_iff loneOtp farewellMethods (some .ok) .null freshProc freshContext rfl

/-- `{reply: "bye", state: null, stop: "normal"}` gets the reply sent and the server goes on. -/
theorem farewell_goes_on :
    (∃ p', (serveRequest loneOtp farewellMethods (some .ok) .null freshProc freshContext).1 =
      .ok (.reply (.binary (bytes "bye")) p')) ∧
    ¬ StopsAsAsked loneOtp.maps (some .ok)
      [(js "reply", .string (js "bye")), (js "state", .null), (js "stop", .string (js "normal"))]
      (serveRequest loneOtp farewellMethods (some .ok) .null freshProc freshContext).1 := by
  have hreply : ∃ p', (serveRequest loneOtp farewellMethods (some .ok) .null freshProc
      freshContext).1 = .ok (.reply (.binary (bytes "bye")) p') := by
    obtain ⟨c', hserve⟩ := serveRequest_eq loneOtp farewellMethods (some .ok) .null freshProc
      freshContext
    rw [hserve]
    exact ⟨_, rfl⟩
  refine ⟨hreply, ?_⟩
  rintro ⟨reason, p', _, hout⟩
  obtain ⟨p'', hreply⟩ := hreply
  cases hreply.symm.trans hout

end Request

end BeamJS
