import BeamJS.Core.GenServer
import BeamJS.Nif.Proofs.TransportProofs

/-!
# Proofs: a GenServer folds its handlers

One request hands the state of the context to the handler and sends the reply of its result. The
next handler is given what the conversions make of the state in the result. A run is a fold of the
handlers as long as the conversions keep every state on the way.
-/

namespace BeamJS

open Lib JsValue

variable {W : Type} {sys : Otp W} {h : Handlers} {ord : MapOrder}

/-! ## The results of handlers in Elixir -/

/-- An object literal of two properties converts to the map of what they convert to. -/
theorem jsValueToErl_pair {k l : JsString} {u v : JsValue} {m : Term} (hkl : mapKey k ≠ mapKey l)
    (htag : isPidHandle [(k, u), (l, v)] = false)
    (hm : jsValueToErl ord (.object none [(k, u), (l, v)]) = some m) :
    ∃ s t, jsValueToErl ord u = some s ∧ jsValueToErl ord v = some t ∧
      m = ord.toMap [(mapKey k, s), (mapKey l, t)] := by
  rw [jsValueToErl_object rfl htag] at hm
  have hall := jsPropsToMap_eq_some hm
  have hnd : (Assoc.keys ([] ++ [(mapKey k, termOf ord u), (mapKey l, termOf ord v)])).Nodup := by
    simpa using hkl
  rw [jsPropsToMap_eq hall, List.map_cons, List.map_cons, List.map_nil,
    Assoc.putAll_of_nodup hnd] at hm
  exact ⟨_, _, hall (k, u) (by simp), hall (l, v) (by simp), (Option.some.inj hm).symm⟩

theorem jsValueToErl_reply {reply state : JsValue} {m : Term}
    (hm : jsValueToErl ord (HandlerResult.reply reply state).toJs = some m) :
    ∃ s t, jsValueToErl ord reply = some s ∧ jsValueToErl ord state = some t ∧
      m = ord.toMap [(bytes "reply", s), (bytes "state", t)] := by
  have hr : mapKey (js "reply") = bytes "reply" := by decide
  have hs : mapKey (js "state") = bytes "state" := by decide
  have htag : js "__beamjs_type" ∉ [js "reply", js "state"] := by decide
  rw [← hr, ← hs]
  exact jsValueToErl_pair (k := js "reply") (l := js "state") (by decide)
    (isPidHandle_of_notMem htag) hm

theorem jsValueToErl_noreply {state : JsValue} {m : Term}
    (hm : jsValueToErl ord (HandlerResult.noreply state).toJs = some m) :
    ∃ t, jsValueToErl ord state = some t ∧
      m = ord.toMap [(bytes "noreply", .atom "true"), (bytes "state", t)] := by
  have hr : mapKey (js "noreply") = bytes "noreply" := by decide
  have hs : mapKey (js "state") = bytes "state" := by decide
  have htag : js "__beamjs_type" ∉ [js "noreply", js "state"] := by decide
  obtain ⟨s, t, htrue, ht, hmap⟩ := jsValueToErl_pair (k := js "noreply") (l := js "state")
    (by decide) (isPidHandle_of_notMem htag) hm
  cases htrue
  rw [hr, hs] at hmap
  exact ⟨t, ht, hmap⟩

/-! ## One request -/

section Operations

variable {α : Type} {c : GsContext W}

theorem run_setGlobal (name : String) (v : Term) (f : Unit → Callback W α) :
    (Callback.setGlobal name v >>= f).run (GsContext.op ord h) c =
      (f ()).run (GsContext.op ord h)
        ({ c with known := (erlTermToJs c.known v).2 }.setGlobal name (erlTermToJs c.known v).1) :=
  rfl

/-- What comes after the program of a callback: the rest of the callback with the result of the
handler, or the exception of the conversion. -/
def afterHandler (ord : MapOrder) (h : Handlers) (c : GsContext W) (result : HandlerResult)
    (f : Term → Callback W α) : Except Term α × GsContext W :=
  let c' := { c with known := c.knownNext, invoked := some (c.state, result) }
  match jsValueToErl ord result.toJs with
  | some m => (f (.tuple [.atom "ok", m])).run (GsContext.op ord h) c'
  | none => (.error (.atom "badarg"), c')

theorem run_finish {source filename : Bytes} {result : HandlerResult}
    (hop : GsContext.op ord h (.eval source filename) c = c.finish ord result)
    (f : Term → Callback W α) :
    (Callback.eval source filename >>= f).run (GsContext.op ord h) c =
      afterHandler ord h c result f := by
  rw [GsContext.finish] at hop
  rw [afterHandler]
  cases hm : jsValueToErl ord result.toJs with
  | some m =>
    rw [hm] at hop
    exact Program.run_lift_ok hop
  | none =>
    rw [hm] at hop
    exact Program.run_lift_error hop

theorem run_callSource (filename : Bytes) (f : Term → Callback W α) :
    (Callback.eval callSource filename >>= f).run (GsContext.op ord h) c =
      afterHandler ord h c (h.handleCall c.pendingCallRequest c.pendingCallFrom c.state) f := by
  apply run_finish
  rw [GsContext.op, if_pos rfl]

theorem run_castSource (filename : Bytes) (f : Term → Callback W α) :
    (Callback.eval castSource filename >>= f).run (GsContext.op ord h) c =
      afterHandler ord h c (h.handleCast c.pendingCastRequest c.state) f := by
  apply run_finish
  rw [GsContext.op, if_neg castSource_ne_callSource, if_pos rfl]

end Operations

/-- The context when the handler for `r` has returned. -/
structure Handled (sys : Otp W) (h : Handlers) (r : GsRequest) (c c' : GsContext W) : Prop where
  state : c'.state = c.state
  known : c'.known = r.knownNext
  invoked : c'.invoked = some (c.state, answer sys h r c.state)

/-- The rest of a callback once its program has the result `m`. -/
def callbackOutcome (r : GsRequest) (m : Term) (p : ProcState) : Callback W Outcome :=
  match r.caller with
  | some _ => callOutcome (.tuple [.atom "ok", m]) p
  | none => castOutcome (.tuple [.atom "ok", m]) p

/-- A callback sets globals, calls the handler, and goes on with its result. -/
theorem run_gsCallback (sys : Otp W) (h : Handlers) {r : GsRequest} (p : ProcState)
    {c : GsContext W} (hknown : c.known = r.known)
    (hnext : c.knownNext = r.knownNext) :
    ∃ c', Handled sys h r c c' ∧
      (gsCallback sys r p).run (GsContext.op sys.maps h) c =
        match jsValueToErl sys.maps (answer sys h r c.state).toJs with
        | some m => (callbackOutcome r m p).run (GsContext.op sys.maps h) c'
        | none => (.error (.atom "badarg"), c') := by
  cases hcaller : r.caller with
  | some caller =>
    have hans : answer sys h r c.state = h.handleCall (erlTermToJs c.known r.request).1
        (erlTermToJs c.known (.binary (sys.encode64 caller))).1 c.state := by
      rw [answer, hcaller, hknown]
    simp only [gsCallback, hcaller, handleCall, callbackOutcome, hans]
    rw [run_setGlobal, run_setGlobal, run_callSource]
    refine ⟨_, ?_, rfl⟩
    refine ⟨rfl, hnext, ?_⟩
    rw [hans]
    rfl
  | none =>
    have hans : answer sys h r c.state =
        h.handleCast (erlTermToJs c.known r.request).1 c.state := by
      rw [answer, hcaller, hknown]
    simp only [gsCallback, hcaller, handleCast, callbackOutcome, hans]
    rw [run_setGlobal, run_castSource]
    refine ⟨_, ?_, rfl⟩
    refine ⟨rfl, hnext, ?_⟩
    rw [hans]
    rfl

/-- A pattern on the map of a result sees its two keys. -/
theorem get?_pair {k l : String} (hkl : bytes k ≠ bytes l) (s t : Term) (x : String) :
    (ord.toMap [(bytes k, s), (bytes l, t)]).get? x =
      [(bytes k, s), (bytes l, t)].lookup (bytes x) :=
  get?_toMap ord (by simpa using hkl) x

theorem callOutcome_reply (s t : Term) (p : ProcState) :
    callOutcome (W := W) (.tuple [.atom "ok", ord.toMap [(bytes "reply", s), (bytes "state", t)]]) p =
      keepState t p >>= fun p => .ret (.reply s p) := by
  have hkl : bytes "reply" ≠ bytes "state" := by decide
  have hreply : [(bytes "reply", s), (bytes "state", t)].lookup (bytes "reply") = some s := rfl
  have hstate : [(bytes "reply", s), (bytes "state", t)].lookup (bytes "state") = some t := rfl
  rw [callOutcome, get?_pair hkl, get?_pair hkl, hreply, hstate]
  rfl

theorem callOutcome_noreply (t : Term) (p : ProcState) :
    callOutcome (W := W)
        (.tuple [.atom "ok", ord.toMap [(bytes "noreply", .atom "true"), (bytes "state", t)]]) p =
      keepState t p >>= fun p => .ret (.noreply p) := by
  have hkl : bytes "noreply" ≠ bytes "state" := by decide
  simp only [callOutcome, get?_pair hkl]
  rfl

theorem castOutcome_reply (s t : Term) (p : ProcState) :
    castOutcome (W := W) (.tuple [.atom "ok", ord.toMap [(bytes "reply", s), (bytes "state", t)]]) p =
      .ret (.noreply p) := by
  have hkl : bytes "reply" ≠ bytes "state" := by decide
  simp only [castOutcome, get?_pair hkl]
  rfl

theorem castOutcome_noreply (t : Term) (p : ProcState) :
    castOutcome (W := W)
        (.tuple [.atom "ok", ord.toMap [(bytes "noreply", .atom "true"), (bytes "state", t)]]) p =
      keepState t p >>= fun p => .ret (.noreply p) := by
  have hkl : bytes "noreply" ≠ bytes "state" := by decide
  simp only [castOutcome, get?_pair hkl]
  rfl

theorem run_keepState {α : Type} (t : Term) (p : ProcState) (f : ProcState → α) (c : GsContext W) :
    (keepState t p >>= fun p => .ret (f p)).run (GsContext.op ord h) c =
      (.ok (f { p with jsState := t }),
        { c with known := (erlTermToJs c.known t).2, state := (erlTermToJs c.known t).1 }) := rfl

/-- Transportable data is the same for the next handler. -/
theorem deepEq_of_transportable {known : Atoms} {v : JsValue} {t : Term}
    (hv : isPlainData v = true ∧ Transportable ord known v) (ht : jsValueToErl ord v = some t) :
    deepEq (erlTermToJs known t).1 v = true := by
  have harr := ((follows_of_plain hv.1).arrives known).mpr hv.2
  rwa [termOf, ht] at harr

section Serve

variable {gs : Gs W} {r : GsRequest}

/-- The context in which a request is served. -/
def Gs.ready (gs : Gs W) (r : GsRequest) : GsContext W :=
  { gs.context with known := r.known, knownNext := r.knownNext, invoked := none }

/-- The record of a request. -/
def recordOf (sys : Otp W) (h : Handlers) (gs : Gs W) (r : GsRequest) (sent : Sent) : GsRecord :=
  ⟨r, gs.context.state, answer sys h r gs.context.state, sent⟩

theorem serve_reply {t : Term} {p : ProcState} {c' : GsContext W}
    (hrun : (gsCallback sys r gs.proc).run (GsContext.op sys.maps h) (gs.ready r) =
      (.ok (.reply t p), c'))
    (hinv : c'.invoked = some (gs.context.state, answer sys h r gs.context.state)) :
    serve sys h gs r = (some ⟨p, c'⟩, recordOf sys h gs r (.reply t)) := by
  rw [Gs.ready] at hrun
  simp only [serve, hrun, hinv, Option.getD_some]
  rfl

theorem serve_noreply {p : ProcState} {c' : GsContext W}
    (hrun : (gsCallback sys r gs.proc).run (GsContext.op sys.maps h) (gs.ready r) =
      (.ok (.noreply p), c'))
    (hinv : c'.invoked = some (gs.context.state, answer sys h r gs.context.state)) :
    serve sys h gs r = (some ⟨p, c'⟩, recordOf sys h gs r .nothing) := by
  rw [Gs.ready] at hrun
  simp only [serve, hrun, hinv, Option.getD_some]
  rfl

theorem serve_raise {e : Term} {c' : GsContext W}
    (hrun : (gsCallback sys r gs.proc).run (GsContext.op sys.maps h) (gs.ready r) =
      (.error e, c'))
    (hinv : c'.invoked = some (gs.context.state, answer sys h r gs.context.state)) :
    serve sys h gs r = (none, recordOf sys h gs r .crash) := by
  rw [Gs.ready] at hrun
  simp only [serve, hrun, hinv, Option.getD_some]
  rfl

/-- The process goes down where the result does not convert. -/
theorem serve_of_not_converts {sent : Sent} (h' : ¬ Converts sys.maps (recordOf sys h gs r sent)) :
    serve sys h gs r = (none, recordOf sys h gs r .crash) := by
  obtain ⟨c', hc', hrun⟩ := run_gsCallback sys h gs.proc (c := gs.ready r) rfl rfl
  have hnone : jsValueToErl sys.maps (answer sys h r (gs.ready r).state).toJs = none :=
    Option.not_isSome_iff_eq_none.mp h'
  rw [hnone] at hrun
  exact serve_raise hrun hc'.invoked

/-- A request whose result converts is answered as its handler says, and the process goes on. The
next handler is given the state that was returned if the conversions carry it. -/
theorem serve_of_converts {sent : Sent} (hconv : Converts sys.maps (recordOf sys h gs r sent)) :
    ∃ gs' sent, serve sys h gs r = (some gs', recordOf sys h gs r sent) ∧
      RepliesAsHandled sys.maps (recordOf sys h gs r sent) ∧
      (StateCarried sys.maps (recordOf sys h gs r sent) →
        deepEq gs'.context.state (answer sys h r gs.context.state).state = true) := by
  obtain ⟨c', hc', hrun⟩ := run_gsCallback sys h gs.proc (c := gs.ready r) rfl rfl
  obtain ⟨m, hm⟩ := Option.isSome_iff_exists.mp hconv
  have hm' : jsValueToErl sys.maps (answer sys h r (gs.ready r).state).toJs = some m := hm
  simp only [hm', callbackOutcome] at hrun
  replace hm : jsValueToErl sys.maps (answer sys h r gs.context.state).toJs = some m := hm
  cases hres : answer sys h r gs.context.state with
  | reply reply state =>
    rw [hres] at hm
    obtain ⟨a, t, ha, ht, rfl⟩ := jsValueToErl_reply hm
    cases hcaller : r.caller with
    | some caller =>
      simp only [hcaller, callOutcome_reply, run_keepState] at hrun
      refine ⟨_, _, serve_reply hrun hc'.invoked, ?_, ?_⟩
      · simp only [RepliesAsHandled, recordOf, hcaller, hres]
        exact ⟨a, ha, rfl⟩
      · simp only [StateCarried, recordOf, hcaller, hres, hc'.known]
        exact fun hcar => deepEq_of_transportable hcar ht
    | none =>
      simp only [hcaller, castOutcome_reply] at hrun
      refine ⟨_, _, serve_noreply hrun hc'.invoked, ?_, ?_⟩
      · simp only [RepliesAsHandled, recordOf, hcaller]
      · simp only [StateCarried, recordOf, hcaller, hres, hc'.state]
        exact fun hcar => hcar
  | noreply state =>
    rw [hres] at hm
    obtain ⟨t, ht, rfl⟩ := jsValueToErl_noreply hm
    cases hcaller : r.caller with
    | some caller =>
      simp only [hcaller, callOutcome_noreply, run_keepState] at hrun
      refine ⟨_, _, serve_noreply hrun hc'.invoked, ?_, ?_⟩
      · simp only [RepliesAsHandled, recordOf, hcaller, hres]
      · simp only [StateCarried, recordOf, hcaller, hres, hc'.known]
        exact fun hcar => deepEq_of_transportable hcar ht
    | none =>
      simp only [hcaller, castOutcome_noreply, run_keepState] at hrun
      refine ⟨_, _, serve_noreply hrun hc'.invoked, ?_, ?_⟩
      · simp only [RepliesAsHandled, recordOf, hcaller, hres]
      · simp only [StateCarried, recordOf, hcaller, hres, hc'.known]
        exact fun hcar => deepEq_of_transportable hcar ht

end Serve

/-! ## Runs -/

/-- The handlers fold from `s` on while every result converts and every state but the last is
carried. No request is lost. -/
theorem serveAll_folds {gs : Gs W} {reqs : List GsRequest} {s : JsValue}
    (hs : deepEq gs.context.state s = true)
    (hconv : ∀ record ∈ serveAll sys h gs reqs, Converts sys.maps record)
    (hcar : ∀ record ∈ (serveAll sys h gs reqs).dropLast, StateCarried sys.maps record) :
    (serveAll sys h gs reqs).map (·.request) = reqs ∧
      FoldsFrom sys h s (serveAll sys h gs reqs) := by
  induction reqs generalizing gs s with
  | nil => exact ⟨rfl, .nil⟩
  | cons r rs ih =>
    have hr : Converts sys.maps (recordOf sys h gs r .crash) := by
      by_contra hno
      rw [serveAll, serve_of_not_converts hno] at hconv
      exact hno (hconv _ (List.mem_singleton_self _))
    obtain ⟨gs', sent, hserve, hreply, hnext⟩ := serve_of_converts hr
    rw [serveAll, hserve] at hconv hcar ⊢
    simp only at hconv hcar ⊢
    obtain ⟨_, hconv⟩ := List.forall_mem_cons.mp hconv
    cases rs with
    | nil => exact ⟨rfl, .cons hs rfl hreply .nil⟩
    | cons r' rs =>
      have hne : serveAll sys h gs' (r' :: rs) ≠ [] := by
        rw [serveAll]
        split <;> simp
      rw [List.dropLast_cons_of_ne_nil hne] at hcar
      obtain ⟨hcarr, hcar⟩ := List.forall_mem_cons.mp hcar
      obtain ⟨hreqs, hfolds⟩ := ih (hnext hcarr) hconv hcar
      refine ⟨?_, .cons hs rfl hreply hfolds⟩
      rw [List.map_cons, hreqs]
      rfl

/-- Handlers that leave the state unchanged leave it unchanged for any number of requests. -/
theorem FoldsFrom.unchanged {s : JsValue} {records : List GsRecord}
    (hfolds : FoldsFrom sys h s records)
    (hid : ∀ record ∈ records, deepEq record.result.state record.arg = true) :
    ∀ record ∈ records, deepEq record.arg s = true := by
  induction hfolds with
  | nil => simp
  | cons arg result sent rest ih =>
    obtain ⟨hidr, hid⟩ := List.forall_mem_cons.mp hid
    refine List.forall_mem_cons.mpr ⟨arg, fun record hmem => ?_⟩
    exact deepEq_trans (ih hid record hmem) (deepEq_trans hidr arg)

/-- A GenServer serves every request and folds its handlers from the initial state on, while the
results convert and the states survive the way to the next handler. -/
theorem genserver_folds (sys : Otp W) (h : Handlers) (opts : InitOpts) (world : W) {s0 : JsValue}
    (hs0 : isData s0 = true) (reqs : List GsRequest)
    (hconv : ∀ record ∈ serveAll sys h (Gs.start sys opts world s0) reqs,
      Converts sys.maps record)
    (hcar : ∀ record ∈ (serveAll sys h (Gs.start sys opts world s0) reqs).dropLast,
      StateCarried sys.maps record) :
    (serveAll sys h (Gs.start sys opts world s0) reqs).map (·.request) = reqs ∧
      FoldsFrom sys h s0 (serveAll sys h (Gs.start sys opts world s0) reqs) ∧
      ((∀ record ∈ serveAll sys h (Gs.start sys opts world s0) reqs,
          deepEq record.result.state record.arg = true) →
        ∀ record ∈ serveAll sys h (Gs.start sys opts world s0) reqs,
          deepEq record.arg s0 = true) := by
  have hstart : deepEq (Gs.start sys opts world s0).context.state s0 = true := deepEq_refl hs0
  obtain ⟨hreqs, hfolds⟩ := serveAll_folds hstart hconv hcar
  exact ⟨hreqs, hfolds, hfolds.unchanged⟩

/-! ## Requests on examples -/

/-- What a callback comes to for a request, without the text of its program. -/
def runHandler (sys : Otp W) (h : Handlers) (r : GsRequest) (p : ProcState) (c : GsContext W) :
    Except Term Outcome × GsContext W :=
  let send (c : GsContext W) (name : String) (v : Term) : GsContext W :=
    { c with known := (erlTermToJs c.known v).2 }.setGlobal name (erlTermToJs c.known v).1
  match r.caller with
  | some caller =>
    let c := send (send c "__pending_call_from" (.binary (sys.encode64 caller)))
      "__pending_call_request" r.request
    afterHandler sys.maps h c (h.handleCall c.pendingCallRequest c.pendingCallFrom c.state)
      fun result => callOutcome result p
  | none =>
    let c := send c "__pending_cast_request" r.request
    afterHandler sys.maps h c (h.handleCast c.pendingCastRequest c.state)
      fun result => castOutcome result p

theorem run_gsCallback_eq (r : GsRequest) (p : ProcState) (c : GsContext W) :
    (gsCallback sys r p).run (GsContext.op sys.maps h) c = runHandler sys h r p c := by
  cases hcaller : r.caller with
  | some caller =>
    simp only [gsCallback, hcaller, handleCall, runHandler]
    rw [run_setGlobal, run_setGlobal, run_callSource]
  | none =>
    simp only [gsCallback, hcaller, handleCast, runHandler]
    rw [run_setGlobal, run_castSource]

/-- `serveAll` without the texts of the programs. -/
def serveAllDirectly (sys : Otp W) (h : Handlers) (gs : Gs W) : List GsRequest → List GsRecord
  | [] => []
  | r :: rs =>
    let run := runHandler sys h r gs.proc
      { gs.context with known := r.known, knownNext := r.knownNext, invoked := none }
    let (arg, result) := run.2.invoked.getD (.undefined, .noreply .undefined)
    match run.1 with
    | .ok (.reply t proc) => ⟨r, arg, result, .reply t⟩ :: serveAllDirectly sys h ⟨proc, run.2⟩ rs
    | .ok (.noreply proc) => ⟨r, arg, result, .nothing⟩ :: serveAllDirectly sys h ⟨proc, run.2⟩ rs
    | .ok (.stop _ _ _) => [⟨r, arg, result, .nothing⟩]
    | .error _ => [⟨r, arg, result, .crash⟩]

theorem serveAll_eq_directly (gs : Gs W) (rs : List GsRequest) :
    serveAll sys h gs rs = serveAllDirectly sys h gs rs := by
  induction rs generalizing gs with
  | nil => rfl
  | cons r rs ih =>
    rw [serveAll, serveAllDirectly, serve, run_gsCallback_eq]
    dsimp only
    rcases runHandler sys h r gs.proc _ with ⟨ended, c⟩
    rcases ended with e | (⟨t, proc⟩ | proc | _)
    · rfl
    · exact congrArg _ (ih _)
    · exact congrArg _ (ih _)
    · rfl

/-- Handlers that keep the last request as their state. -/
def lastRequest : Handlers where
  handleCall request _ state := .reply state (.object none [(js "last", request)])
  handleCast request _ := .noreply (.object none [(js "last", request)])

/-- A call, a cast and a call. -/
def threeRequests : List GsRequest :=
  [⟨some (.pid 1), .int 1, [], []⟩, ⟨none, .binary (bytes "x"), [js "last"], [js "last"]⟩,
    ⟨some (.pid 2), .ok, [js "last"], [js "last"]⟩]

/-- The records of the three requests. -/
def threeRecords : List GsRecord :=
  serveAll loneOtp lastRequest (Gs.start loneOtp ⟨none, none, none⟩ () .null) threeRequests

theorem genserver_folds_lastRequest : FoldsFrom loneOtp lastRequest .null threeRecords := by
  have hall : ∀ record ∈ threeRecords,
      Converts loneOtp.maps record ∧ StateCarried loneOtp.maps record := by
    rw [threeRecords, serveAll_eq_directly]
    decide
  exact (genserver_folds loneOtp lastRequest ⟨none, none, none⟩ () rfl threeRequests
    (fun record hmem => (hall record hmem).1)
    fun record hmem => (hall record (List.dropLast_subset _ hmem)).2).2.1

/-- Handlers that leave the state as it is. -/
def unchanging : Handlers where
  handleCall request _ state := .reply request state
  handleCast _ state := .noreply state

/-- Two calls to a GenServer with the state `s0` and unchanging handlers. -/
def twoCalls (s0 : JsValue) : List GsRecord :=
  serveAll loneOtp unchanging (Gs.start loneOtp ⟨none, none, none⟩ () s0)
    [⟨some (.pid 1), .int 1, [], []⟩, ⟨some (.pid 1), .int 2, [], []⟩]

/-- The empty array is a string for the second handler, although the first returned it unchanged. -/
theorem empty_state_lost :
    isData (.array []) = true ∧
    (∀ record ∈ twoCalls (.array []), deepEq record.result.state record.arg = true) ∧
    ¬ FoldsFrom loneOtp unchanging (.array []) (twoCalls (.array [])) := by
  have hcalls :
      (∀ record ∈ twoCalls (.array []), deepEq record.result.state record.arg = true) ∧
        ¬ ∀ record ∈ twoCalls (.array []), deepEq record.arg (.array []) = true := by
    rw [twoCalls, serveAll_eq_directly]
    decide
  exact ⟨rfl, hcalls.1, fun hfolds => hcalls.2 (hfolds.unchanged hcalls.1)⟩

end BeamJS
