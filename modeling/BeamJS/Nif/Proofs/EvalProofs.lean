import BeamJS.Nif.Eval
import BeamJS.Nif.Proofs.TermConvertProofs

/-!
# Proofs: what `nif_eval` reports

A value converts exactly if the conversion visits only finite numbers. The two modes then differ in
one case: the exception of a linked module stays in its promise, which is a value like any other.
-/

namespace BeamJS

open Lib JsValue

variable {ord : MapOrder}

/-! ## What converts -/

theorem isSome_jsNumberToErl (n : JsNumber) : (jsNumberToErl n).isSome = n.toDouble.isFinite := by
  cases n with
  | int i => rfl
  | float d =>
    cases d with
    | finite q =>
      rw [jsNumberToErl]
      split <;> rfl
    | negZero | inf | nan => rfl

theorem isSome_jsValuesToErl {vs : List JsValue}
    (ih : ∀ v ∈ vs, (jsValueToErl ord v).isSome = visitsFinite v) :
    (jsValuesToErl ord vs).isSome = allVisitFinite vs := by
  induction vs with
  | nil => rfl
  | cons v vs ihvs =>
    obtain ⟨hv, hvs⟩ := List.forall_mem_cons.mp ih
    rw [allVisitFinite, ← hv, ← ihvs hvs, jsValuesToErl]
    cases jsValueToErl ord v <;> cases jsValuesToErl ord vs <;> rfl

theorem propsVisitFinite_eq (props : List (JsString × JsValue)) :
    propsVisitFinite props = props.map fun e => (e.1, visitsFinite e.2) := by
  induction props with
  | nil => rfl
  | cons e props ih => rw [propsVisitFinite, ih, List.map_cons]

theorem isSome_jsPropsToMap {props : List (JsString × JsValue)}
    (ih : ∀ e ∈ props, (jsValueToErl ord e.2).isSome = visitsFinite e.2) :
    (jsPropsToMap ord (jsPropsToErl ord props)).isSome = (propsVisitFinite props).all Prod.snd := by
  rw [Bool.eq_iff_iff, propsVisitFinite_eq, List.all_eq_true]
  simp only [List.mem_map, forall_exists_index, and_imp, forall_apply_eq_imp_iff₂]
  constructor
  · intro h e he
    obtain ⟨t, ht⟩ := Option.isSome_iff_exists.mp h
    rw [← ih e he, jsPropsToMap_eq_some ht e he]
    rfl
  · intro h
    have hall : ∀ e ∈ props, jsValueToErl ord e.2 = some (termOf ord e.2) := by
      intro e he
      obtain ⟨t, ht⟩ := Option.isSome_iff_exists.mp ((ih e he).trans (h e he))
      rw [termOf, ht]
      rfl
    rw [jsPropsToMap_eq hall]
    rfl

/-- The `__beamjs_data` of a tagged object converts if what the conversion visits is finite. -/
theorem isSome_data {props : List (JsString × JsValue)} {inherited : Option Term} {fine : Bool}
    (ih : ∀ e ∈ props, (jsValueToErl ord e.2).isSome = visitsFinite e.2)
    (hinh : inherited.isSome = fine) :
    (((jsPropsToErl ord props).lookup (js "__beamjs_data")).getD inherited).isSome =
      ((propsVisitFinite props).lookup (js "__beamjs_data")).getD fine := by
  rw [jsPropsToErl_eq, propsVisitFinite_eq, Assoc.lookup_map_snd, Assoc.lookup_map_snd]
  cases hl : props.lookup (js "__beamjs_data") with
  | none => exact hinh
  | some v => exact ih _ (Assoc.mem_of_lookup hl)

theorem isSome_jsValueToErl (ord : MapOrder) (v : JsValue) :
    (jsValueToErl ord v).isSome = visitsFinite v ∧ (jsDataToErl ord v).isSome = dataVisitsFinite v := by
  induction v using JsValue.induction_on with
  | number n => exact ⟨isSome_jsNumberToErl n, rfl⟩
  | array elems ih =>
    refine ⟨?_, rfl⟩
    rw [jsValueToErl, Option.isSome_map]
    exact isSome_jsValuesToErl fun v hv => (ih v hv).1
  | object proto props ihproto ihprops =>
    have hinh : (jsProtoDataToErl ord proto).isSome = protoVisitsFinite proto := by
      cases proto with
      | none => rfl
      | some p => exact (ihproto p rfl).2
    have hdata := isSome_data (fun e he => (ihprops e he).1) hinh
    refine ⟨?_, hdata⟩
    rw [jsValueToErl, visitsFinite]
    split
    · exact hdata
    · exact isSome_jsPropsToMap fun e he => (ihprops e he).1
  | func | error | promise => exact ⟨rfl, rfl⟩
  | undefined | null | bool | bigint | string | symbol => exact ⟨rfl, rfl⟩

theorem toErl_eq_returns (ord : MapOrder) (v : EvalValue) :
    (∃ t, v.toErl ord = .returns t) ↔ v.converts = true := by
  cases v with
  | cyclic => simp [EvalValue.toErl, EvalValue.converts]
  | tree v =>
    rw [EvalValue.converts, ← (isSome_jsValueToErl ord v).1, EvalValue.toErl]
    cases jsValueToErl ord v <;> simp

/-- An exception that is reported as a value. -/
theorem exceptionToErl_of_value {v : JsValue}
    (h : jsExceptionToErl ord v = (jsValueToErl ord v).map Term.errorTuple) :
    (∃ reason, (EvalValue.tree v).exceptionToErl ord = .returns (.errorTuple reason)) ↔
      visitsFinite v = true := by
  rw [← (isSome_jsValueToErl ord v).1, EvalValue.exceptionToErl, h]
  cases jsValueToErl ord v with
  | none => simp
  | some t => simp

theorem exceptionToErl_eq_returns (exc : EvalValue) :
    (∃ reason, exc.exceptionToErl ord = .returns (.errorTuple reason)) ↔
      exc.exceptionConverts = true := by
  cases exc with
  | cyclic => simp [EvalValue.exceptionToErl, EvalValue.exceptionConverts, EvalValue.converts]
  | tree exc =>
    cases exc with
    | error message stack => exact ⟨fun _ => rfl, fun _ => ⟨_, rfl⟩⟩
    | _ =>
      refine exceptionToErl_of_value ?_
      rw [jsExceptionToErl, Option.map_eq_bind]
      · rfl
      · rintro _ _ ⟨⟩

theorem errorTuple_of_returns {exc : EvalValue} {t : Term}
    (h : exc.exceptionToErl ord = .returns t) : ∃ reason, t = .errorTuple reason := by
  cases exc with
  | cyclic => cases h
  | tree v =>
    rw [EvalValue.exceptionToErl] at h
    split at h
    · rename_i t' ht
      cases h
      unfold jsExceptionToErl at ht
      cases v with
      | error message stack =>
        cases ht
        exact ⟨_, rfl⟩
      | _ =>
        obtain ⟨reason, _, hr⟩ := Option.bind_eq_some_iff.mp ht
        cases hr
        exact ⟨reason, rfl⟩
    · cases h

/-! ## Modules -/

/-- Induction over a module with its imports. -/
@[elab_as_elim]
theorem Module.induction_on {P : Module → Prop}
    (mk : ∀ imports body, (∀ m ∈ imports, P m) → P (.mk imports body)) (m : Module) : P m := by
  refine @Module.rec P (fun ms => ∀ m ∈ ms, P m) mk ?_ ?_ m
  · simp
  · intro m ms hm hms
    simpa using ⟨hm, hms⟩

theorem evaluateAll_eq_error {ms : List Module}
    (ih : ∀ m ∈ ms, (∃ exc, m.evaluate = .error exc) ↔ m.BodyThrows) :
    (∃ exc, Module.evaluateAll ms = .error exc) ↔ ∃ m ∈ ms, m.BodyThrows := by
  induction ms with
  | nil => simp [Module.evaluateAll]
  | cons m ms ihms =>
    obtain ⟨hm, hms⟩ := List.forall_mem_cons.mp ih
    rw [List.exists_mem_cons_iff, ← hm, ← ihms hms, Module.evaluateAll]
    cases m.evaluate <;> simp

/-- An evaluation throws where a body of it throws, be it its own or that of an import. -/
theorem evaluate_eq_error (m : Module) : (∃ exc, m.evaluate = .error exc) ↔ m.BodyThrows := by
  induction m using Module.induction_on with
  | mk imports body ih =>
    have hall := evaluateAll_eq_error ih
    constructor
    · rintro ⟨exc, h⟩
      rw [Module.evaluate] at h
      cases himp : Module.evaluateAll imports with
      | error exc' =>
        obtain ⟨m, hm, hthrows⟩ := hall.mp ⟨exc', himp⟩
        exact .imported hm hthrows
      | ok _ =>
        rw [himp] at h
        cases h
        exact .body exc
    · intro h
      rw [Module.evaluate]
      cases h with
      | body exc => cases Module.evaluateAll imports <;> simp
      | imported hm hthrows =>
        obtain ⟨exc, himp⟩ := hall.mpr ⟨_, hm, hthrows⟩
        rw [himp]
        exact ⟨exc, rfl⟩

/-! ## Programs -/

/-- For a program that throws, the truth is an error. -/
theorem reportsTruth_of_throws {p : JsProgram} (h : p.Throws) {result : NifResult} :
    ReportsTruth p result ↔ ∃ reason, result = .returns (.errorTuple reason) := by
  constructor
  · intro htruth
    exact htruth.1.mpr h
  · rintro ⟨reason, rfl⟩
    refine ⟨⟨fun _ => h, fun _ => ⟨reason, rfl⟩⟩, ⟨?_, fun hno => absurd h hno⟩⟩
    simp [Term.errorTuple]

/-- For a program that completes, it is a value. -/
theorem reportsTruth_of_completes {p : JsProgram} (h : ¬ p.Throws) {result : NifResult} :
    ReportsTruth p result ↔ ∃ t, result = .returns (.tuple [.atom "ok", t]) := by
  constructor
  · intro htruth
    exact htruth.2.mpr h
  · rintro ⟨t, rfl⟩
    refine ⟨⟨?_, fun hthrows => absurd hthrows h⟩, ⟨fun _ => h, fun _ => ⟨t, rfl⟩⟩⟩
    simp [Term.errorTuple]

theorem nifEval_ok {p : JsProgram} {v : EvalValue} (h : jsEval p = .ok v) :
    (∃ t, nifEval ord p = .returns (.tuple [.atom "ok", t])) ↔ v.converts = true := by
  rw [← toErl_eq_returns ord]
  cases hv : v.toErl ord <;> simp [nifEval, h, hv]

theorem reportsTruth_iff_reported (p : JsProgram) :
    ReportsTruth p (nifEval ord p) ↔ p.Reported := by
  cases p with
  | invalid exc =>
    rw [reportsTruth_of_throws (.invalid exc)]
    exact exceptionToErl_eq_returns exc
  | script run =>
    cases run with
    | error exc =>
      rw [reportsTruth_of_throws (.script exc)]
      exact exceptionToErl_eq_returns exc
    | ok v =>
      have hno : ¬ (JsProgram.script (.ok v)).Throws := by
        rintro ⟨⟩
      rw [reportsTruth_of_completes hno]
      exact nifEval_ok rfl
  | module m =>
    -- the promise of a module converts, whatever became of it
    have hok : ∃ t, nifEval ord (.module m) = .returns (.tuple [.atom "ok", t]) :=
      (nifEval_ok rfl).mpr rfl
    constructor
    · intro htruth hthrows
      exact htruth.2.mp hok (.module hthrows)
    · intro hno
      refine (reportsTruth_of_completes ?_).mpr hok
      rintro ⟨⟩
      exact hno ‹_›

/-- `nif_eval` tells whether a source threw exactly if the value or exception that leaves it
converts and no module of it throws once it is linked. -/
theorem eval_reports_iff (c : Compiler) (ord : MapOrder) (source : Bytes) :
    ReportsTruth (c.compile source) (nifEval ord (c.compile source)) ↔ (c.compile source).Reported :=
  reportsTruth_iff_reported (c.compile source)

/-- A module whose body throws. -/
def throwingSource : Bytes := bytes "export const x = 1;
throw new Error('boom');
"

/-- What the engine makes of it. -/
def throwingCompiler : Compiler where
  script _ := .ok (.ok (.tree .undefined))
  module _ := .ok (.mk [] (.error (.tree (.error (some (js "boom")) (some [])))))

/-- The failed module is reported as a success. -/
theorem throwing_module_succeeds :
    nifEval .insertion (throwingCompiler.compile throwingSource) =
        .returns (.tuple [.atom "ok", .map []]) ∧
      ¬ ReportsTruth (throwingCompiler.compile throwingSource)
        (nifEval .insertion (throwingCompiler.compile throwingSource)) := by
  have hmodule : isModuleSource throwingSource = true := by decide
  have hcompile : throwingCompiler.compile throwingSource =
      .module (.mk [] (.error (.tree (.error (some (js "boom")) (some []))))) := by
    rw [Compiler.compile, hmodule]
    rfl
  rw [hcompile]
  refine ⟨rfl, fun htruth => ?_⟩
  exact (reportsTruth_iff_reported _).mp htruth (.body _)

end BeamJS
