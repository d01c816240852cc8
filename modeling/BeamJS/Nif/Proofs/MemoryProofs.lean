import BeamJS.Erl.TermEq
import BeamJS.Js.PlainData
import BeamJS.Nif.Memory
import BeamJS.Nif.Proofs.TermConvertProofs

/-!
# Proofs: every resource is freed once

A conversion gives back all that it acquires, whatever value it visits, and returns what the model
of the values returns. The NIFs do the same with the blocks, environments and references of their
own, so that the destructor finds the parts of the context and nothing else.
-/

namespace BeamJS

open Lib Owning

variable {β : Type} {P R : Multiset MemCell} {ctx c obj val : MemCell}
  {S : β → Multiset MemCell → Prop}

/-! ## The calls into the engine -/

/-- The conversion of a reference gives the term and frees what it acquires. -/
def ConvertsTo (ctx : MemCell) (convert : Conversion) (t : Option Term) : Prop :=
  ∀ P val, ctx ∈ P → val ∈ P → Keeps P (convert val) t

theorem ConvertsTo.bind {convert : Conversion} {t : Option Term} {k : Option Term → Mem β}
    (h : ConvertsTo ctx convert t) (hctx : ctx ∈ P) (hval : val ∈ P) (hk : Triple P (k t) S) :
    Triple P (convert val >>= k) S := (h P val hctx hval).bind hk

/-- The conversion of a term gives the value and a reference to it. -/
def Yields {α : Type} (P : Multiset MemCell) (m : Mem (α × MemCell)) (a : α) : Prop :=
  Triple P m fun r P' => r.1 = a ∧ P' = r.2 ::ₘ P

theorem Yields.bind {α : Type} {m : Mem (α × MemCell)} {a : α} {k : α × MemCell → Mem β}
    (h : Yields P m a) (hk : ∀ r : MemCell, Triple (r ::ₘ P) (k (a, r)) S) : Triple P (m >>= k) S := by
  refine Triple.bind h fun r P' hr => ?_
  obtain ⟨x, r⟩ := r
  obtain ⟨rfl, rfl⟩ := hr
  exact hk r

/-- The parts of the context are there. -/
structure ContextCells.Held (x : ContextCells) (P : Multiset MemCell) : Prop where
  rt : x.rt ∈ P
  ctx : x.ctx ∈ P
  mutex : x.mutex ∈ P
  cond : x.hostReplyCond ∈ P

theorem ContextCells.Held.mono {x : ContextCells} (h : x.Held P) {P' : Multiset MemCell}
    (hP : P ≤ P') : x.Held P' :=
  ⟨Multiset.mem_of_le hP h.rt, Multiset.mem_of_le hP h.ctx, Multiset.mem_of_le hP h.mutex,
    Multiset.mem_of_le hP h.cond⟩

theorem ContextCells.Held.cons {x : ContextCells} (h : x.Held P) (r : MemCell) : x.Held (r ::ₘ P) :=
  h.mono (Multiset.le_cons_self P r)

theorem ContextCells.Held.add {x : ContextCells} (h : x.Held P) (R : Multiset MemCell) :
    x.Held (R + P) := h.mono (Multiset.le_add_left P R)

variable {x : ContextCells}

variable {destroyed : Bool} {b : ContextMemory}

end BeamJS
