import BeamJS.Nif.HeapConvert

/-!
# Proofs: the conversion on the heap

`js_value_to_erl` marks nothing that it has visited. It comes to an end exactly where no object that
contains itself is reached, and on such an object it overflows any stack.
-/

namespace BeamJS

open Lib

section Loop

/-- A loop crashes with one of its calls. -/
theorem collectResults_eq_none {rs : List NifResult} :
    collectResults rs = none ↔ .crashes ∈ rs := by
  induction rs with
  | nil => simp [collectResults]
  | cons r rs ih => cases r <;> simp [collectResults, ih]

theorem ofTerm?_ne_crashes (t : Option Term) : NifResult.ofTerm? t ≠ .crashes := by
  cases t <;> simp [NifResult.ofTerm?]

/-- A loop and what is made of its results. -/
theorem afterLoop_eq_crashes {rs : List NifResult} {make : List (Option Term) → Option Term} :
    afterLoop rs make = .crashes ↔ .crashes ∈ rs := by
  rw [← collectResults_eq_none]
  unfold afterLoop
  cases collectResults rs with
  | none => simp
  | some ts => simp [ofTerm?_ne_crashes]

end Loop

section Convert

variable {ord : MapOrder} {n : ℕ} {h : Heap n}

/-! The three kinds of objects -/

theorem goesOnTo_array {a : Fin n} {vs : List (HeapValue n)} (ha : (h a).elems = some vs) :
    h.goesOnTo (.object a) = vs := by
  simp only [Heap.goesOnTo, ha]

theorem goesOnTo_pid {a : Fin n} (ha : (h a).elems = none) (hpid : h.isPid a = true) :
    h.goesOnTo (.object a) = [h.getProp a (js "__beamjs_data")] := by
  simp only [Heap.goesOnTo, ha, hpid, if_true]

theorem goesOnTo_map {a : Fin n} (ha : (h a).elems = none) (hpid : h.isPid a = false) :
    h.goesOnTo (.object a) = (h.ownProps a).map HeapProp.value := by
  simp only [Heap.goesOnTo, ha, hpid, Bool.false_eq_true, if_false]

theorem body_array {call : HeapValue n → NifResult} {a : Fin n} {vs : List (HeapValue n)}
    (ha : (h a).elems = some vs) :
    heapValueBody ord h call (.object a) =
      afterLoop (vs.map call) fun ts => (ts.mapM id).map .list := by
  simp only [heapValueBody, ha]

theorem body_pid {call : HeapValue n → NifResult} {a : Fin n} (ha : (h a).elems = none)
    (hpid : h.isPid a = true) :
    heapValueBody ord h call (.object a) = call (h.getProp a (js "__beamjs_data")) := by
  simp only [heapValueBody, ha, hpid, if_true]

theorem body_map {call : HeapValue n → NifResult} {a : Fin n} (ha : (h a).elems = none)
    (hpid : h.isPid a = false) :
    heapValueBody ord h call (.object a) =
      afterLoop ((h.ownProps a).map fun p => call p.value) fun ts =>
        jsPropsToMap ord (((h.ownProps a).map HeapProp.name).zip ts) := by
  simp only [heapValueBody, ha, hpid, Bool.false_eq_true, if_false]

/-- The body of the conversion depends on the values it goes on to. -/
theorem heapValueBody_congr {f g : HeapValue n → NifResult} {v : HeapValue n}
    (hfg : ∀ w ∈ h.goesOnTo v, f w = g w) : heapValueBody ord h f v = heapValueBody ord h g v := by
  cases v with
  | object a =>
    cases ha : (h a).elems with
    | some vs =>
      rw [goesOnTo_array ha] at hfg
      rw [body_array ha, body_array ha, List.map_congr_left hfg]
    | none =>
      cases hpid : h.isPid a with
      | true =>
        rw [goesOnTo_pid ha hpid] at hfg
        rw [body_pid ha hpid, body_pid ha hpid]
        exact hfg _ (List.mem_singleton_self _)
      | false =>
        rw [goesOnTo_map ha hpid] at hfg
        have hprops : (h.ownProps a).map (fun p => f p.value) =
            (h.ownProps a).map fun p => g p.value :=
          List.map_congr_left fun p hp => hfg _ (List.mem_map_of_mem hp)
        rw [body_map ha hpid, body_map ha hpid, hprops]
  | _ => rfl

/-- The body crashes with one of its calls. -/
theorem heapValueBody_eq_crashes {f : HeapValue n → NifResult} {v : HeapValue n} :
    heapValueBody ord h f v = .crashes ↔ ∃ w ∈ h.goesOnTo v, f w = .crashes := by
  cases v with
  | object a =>
    cases ha : (h a).elems with
    | some vs =>
      rw [body_array ha, goesOnTo_array ha]
      exact afterLoop_eq_crashes.trans List.mem_map
    | none =>
      cases hpid : h.isPid a with
      | true =>
        rw [body_pid ha hpid, goesOnTo_pid ha hpid]
        simp
      | false =>
        rw [body_map ha hpid, goesOnTo_map ha hpid]
        refine afterLoop_eq_crashes.trans ?_
        simp
  | number k => simp [heapValueBody, Heap.goesOnTo, ofTerm?_ne_crashes]
  | _ => simp [heapValueBody, Heap.goesOnTo]

variable (ord h) in
/-- `js_value_to_erl` as a recursion over the graph of the heap. -/
def heapRecursion : Recursion (HeapValue n) NifResult where
  body := heapValueBody ord h
  calls := h.goesOnTo
  overflow := .crashes
  congr := heapValueBody_congr
  overflow_iff := heapValueBody_eq_crashes

theorem heapValueToErl_eq_run (depth : ℕ) :
    heapValueToErl ord h depth = (heapRecursion ord h).run depth := by
  induction depth with
  | zero => rfl
  | succ depth ih =>
    funext v
    show heapValueBody ord h (heapValueToErl ord h depth) v = _
    rw [ih]
    rfl

/-- The values that the conversion does not end at are objects. -/
theorem mem_objects_of_goesOnTo {v : HeapValue n} (hv : h.goesOnTo v ≠ []) :
    v ∈ Finset.univ.map ⟨HeapValue.object (n := n), fun _ _ => HeapValue.object.inj⟩ := by
  cases v with
  | object a => exact Finset.mem_map.mpr ⟨a, Finset.mem_univ a, rfl⟩
  | _ => exact absurd rfl hv

/-- On an object that contains itself, or that leads to one, the conversion overflows any stack. -/
theorem heapValueToErl_of_cyclic {v : HeapValue n} (hv : h.Cyclic v) (depth : ℕ) :
    heapValueToErl ord h depth v = .crashes := by
  have hv' : ReachesCycle (heapRecursion ord h).Calls v := hv
  rw [heapValueToErl_eq_run]
  exact Recursion.run_of_reachesCycle hv' depth

variable (ord h) in
/-- The conversion comes to an end, within the size of the heap, exactly where it comes to no object
that contains itself. Elsewhere no bound will do. -/
theorem conversion_ends_iff (v : HeapValue n) :
    (ConvertsWithin ord h n v ↔ ¬ h.Cyclic v) ∧
      ((∃ bound, ConvertsWithin ord h bound v) ↔ ¬ h.Cyclic v) := by
  have hiff := (heapRecursion ord h).ends_iff (a := v) fun w hw => mem_objects_of_goesOnTo hw
  rw [Finset.card_map, Finset.card_univ, Fintype.card_fin] at hiff
  simp only [← heapValueToErl_eq_run] at hiff
  refine ⟨hiff, ?_, fun hv => ⟨n, hiff.mpr hv⟩⟩
  rintro ⟨bound, result, hresult, hrun⟩ hv
  exact hresult ((hrun _ (Nat.lt_succ_self bound)).symm.trans (heapValueToErl_of_cyclic hv _))

/-- The heap of `const a = {}; a.self = a; a`. -/
def selfHeap : Heap 1 := fun _ =>
  { elems := none, proto := none, props := [⟨js "self", .object 0, true⟩] }

/-- An object that is its own property takes the virtual machine down. -/
theorem self_reference_overflows :
    ¬ ∃ bound, ConvertsWithin MapOrder.insertion selfHeap bound (.object 0) := by
  have hpid : selfHeap.isPid 0 = false := rfl
  have hself : HeapValue.object 0 ∈ selfHeap.goesOnTo (.object 0) := by
    rw [goesOnTo_map rfl hpid]
    exact List.mem_singleton_self _
  have hcyclic : selfHeap.Cyclic (.object 0) := ⟨.object 0, .refl, .single hself⟩
  rintro ⟨bound, result, hresult, hrun⟩
  exact hresult ((hrun _ (Nat.lt_succ_self bound)).symm.trans (heapValueToErl_of_cyclic hcyclic _))

end Convert

end BeamJS
