import BeamJS.Core.ServerProgram
import BeamJS.Core.Proofs.SupervisorBridgeProofs
import BeamJS.Erl.TermEq
import BeamJS.Nif.Proofs.EvalModeProofs
import BeamJS.Nif.Proofs.TermConvertProofs

/-!
# Proofs: the programs of GenServers

The two programs are the texts that the code builds. They run alike, up to the variable that only
one of them has, where they name the same class; and so do the servers that they make.
-/

namespace BeamJS

open Lib

variable {H V : Type}

/-! ## Texts -/

theorem text_gsProgram (className source args : Bytes) :
    programText (gsProgram className source args) = genServerSource className source args := by
  have hnew : bytes "\nvar __gs_instance = new " =
      bytes "\n" ++ (bytes "var " ++ gsInstance ++ bytes " = new ") := by
    simp [gsInstance, ← bytes_append]
  have hinit : bytes "();\nvar __genserver_state = __gs_instance.init(" =
      bytes "();\n" ++ bytes "var __genserver_state = __gs_instance.init(" := by
    simp [← bytes_append]
  have hclose : bytes ");\nfunction __genserver_handle_call(request, from, state) \x7b\n" =
      bytes ");\n" ++ bytes "function __genserver_handle_call(request, from, state) \x7b\n" := by
    simp [← bytes_append]
  simp only [programText, gsProgram, Stmt.text, callbacksSource, List.flatMap_cons, List.flatMap_nil,
    List.append_nil, genServerSource, hnew, hinit, bytes_append, hclose, List.append_assoc]

namespace SameBut

variable {x : Bytes} {c c' : JsContext H V}

theorem refl (c : JsContext H V) : SameBut x c c := ⟨rfl, fun _ _ => rfl, fun _ _ => rfl⟩

theorem lookup (h : SameBut x c c') (mode : EvalType) {y : Bytes} (hy : y ≠ x) :
    c.lookup mode y = c'.lookup mode y := by
  cases mode with
  | global => exact h.globals y hy
  | module => simp only [JsContext.lookup, h.globals y hy, h.locals y hy]

theorem defineVar (h : SameBut x c c') (mode : EvalType) (y : Bytes) (v : V) :
    SameBut x (defineVar mode y v c) (defineVar mode y v c') := by
  have hupdate : ∀ {f f' : Bytes → Option V}, (∀ z ≠ x, f z = f' z) →
      ∀ z ≠ x, Function.update f y (some v) z = Function.update f' y (some v) z := by
    intro f f' hf z hz
    by_cases hzy : z = y
    · rw [hzy, Function.update_self, Function.update_self]
    · rw [Function.update_of_ne hzy, Function.update_of_ne hzy, hf z hz]
  cases mode with
  | global => exact ⟨h.world, hupdate h.globals, h.locals⟩
  | module => exact ⟨h.world, h.globals, hupdate h.locals⟩

variable {E : ClassEngine H V}

theorem hoistVar (h : SameBut x c c') (mode : EvalType) {y : Bytes} (hy : y ≠ x) :
    SameBut x (E.hoistVar mode c y) (E.hoistVar mode c' y) := by
  cases mode with
  | global =>
    simp only [ClassEngine.hoistVar, h.globals y hy]
    split
    · exact h
    · exact h.defineVar ..
  | module =>
    simp only [ClassEngine.hoistVar, h.locals y hy]
    split
    · exact h
    · exact h.defineVar ..

end SameBut

namespace ClassEngine

variable {E : ClassEngine H V} {x : Bytes}

end ClassEngine

/-! ## Requests -/

section Requests

variable {s s' : ProcState}

end Requests

section Start

variable {E : ClassEngine H V} {name source : Bytes}

end Start

/-! ## The same server -/

section Same

variable {sys : Otp H} {E : ClassEngine H V} {t : CharTables} {name source : Bytes}
  {args : Option JsValue} {fresh : ℤ} {spec : Term} {baseDir : Bytes} {c : JsContext H V}

end Same

/-! ## The other direction -/

section Facts

variable {E : ClassEngine H V} {file name source args : Bytes} {mode : EvalType} {c c' : JsContext H V}
  {st st' : Started V}

end Facts

/-! ## Programs that start -/

section Starts

variable {E : ClassEngine H V} {file name source args : Bytes} {mode : EvalType}
  {st : Started V} {k v a s : V} {c c' c₁ c₂ c₃ : JsContext H V}

end Starts

section Converse

variable {sys : Otp H} {E : ClassEngine H V} {t : CharTables} {name source : Bytes}
  {args : Option JsValue} {fresh : ℤ} {spec : Term} {baseDir : Bytes} {c : JsContext H V}

end Converse

/-! ## A sample -/

/-- What the variables of a context hold. -/
def Holds (P : V → Prop) (c : JsContext H V) : Prop :=
  (∀ x v, c.globals x = some v → P v) ∧ ∀ x v, c.locals x = some v → P v

section Holds

variable {P : V → Prop} {mode : EvalType} {c : JsContext H V}

theorem Holds.lookup (h : Holds P c) {x : Bytes} {v : V} (hv : c.lookup mode x = some v) : P v := by
  cases mode with
  | global => exact h.1 x v hv
  | module =>
    rcases Option.or_eq_some_iff.mp hv with hv | ⟨-, hv⟩
    · exact h.2 x v hv
    · exact h.1 x v hv

theorem Holds.defineVar (h : Holds P c) (mode : EvalType) {v : V} (hv : P v) (x : Bytes) :
    Holds P (defineVar mode x v c) := by
  have hupdate : ∀ {f : Bytes → Option V}, (∀ y u, f y = some u → P u) →
      ∀ y u, Function.update f x (some v) y = some u → P u := by
    intro f hf y u hu
    by_cases hy : y = x
    · rw [hy, Function.update_self] at hu
      exact Option.some.inj hu ▸ hv
    · rw [Function.update_of_ne hy] at hu
      exact hf y u hu
  cases mode with
  | global => exact ⟨hupdate h.1, h.2⟩
  | module => exact ⟨h.1, hupdate h.2⟩

/-- Before a program runs, its variables hold `undefined` and its functions only. -/
theorem Holds.hoist (h : Holds P c) (E : ClassEngine H V) (mode : EvalType)
    (hundefined : P E.undefined) (hcallback : ∀ b, P (E.callback b)) (p : List Stmt) :
    Holds P (E.hoist mode p c) := by
  have hfold : ∀ {α : Type} {f : JsContext H V → α → JsContext H V} (as : List α) {d : JsContext H V},
      (∀ d a, Holds P d → Holds P (f d a)) → Holds P d → Holds P (as.foldl f d) := by
    intro α f as d hf hd
    induction as generalizing d with
    | nil => exact hd
    | cons a as ih => exact ih (hf d a hd)
  have hlocals : Holds P { c with locals := fun _ => none } := ⟨h.1, fun _ _ hnone => by cases hnone⟩
  have hfunctions := hfold (p.flatMap Stmt.functions)
    (fun d b hd => hd.defineVar mode (hcallback b) b.name) hlocals
  refine hfold _ (fun d x hd => ?_) hfunctions
  unfold ClassEngine.hoistVar
  cases mode <;> exact iteInduction (fun _ => hd) fun _ => hd.defineVar _ hundefined x

end Holds

end BeamJS
