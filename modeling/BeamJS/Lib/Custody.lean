import BeamJS.Lib.Program
import BeamJS.Lib.Transition
import Mathlib.Data.Nat.Notation
import Mathlib.Logic.Function.Basic

/-!
# Clients of a pool of resources

Programs that create resources in one table, use them by their handles and close them, in any
interleaving. A client in custody holds the handle that it created last until it closes it, and uses
no other. Then it goes through the states that it could go through alone, with a resource of its
own, whatever the others do. Nothing here refers to a particular kind of resource.
-/

namespace Lib

/-- A kind of resource with the states `σ`, the uses `U` and their answers `A`. -/
structure ResourceKind (U A σ : Type) where
  fresh : σ
  /-- A use starts: the resource after it, and the answer unless the use is suspended. -/
  use : U → σ → Option (σ × Option A)
  /-- A suspended use goes on. -/
  resume : σ → Option (σ × Option A)
  /-- The uses that close the resource, -/
  closes : U → Bool
  /-- and what they leave of it. -/
  closed : σ → Prop
  closed_of_closes : ∀ {u s s' a}, closes u = true → use u s = some (s', a) →
    closed s' ∧ a.isSome = true

/-- An operation of a client: on the table, or on the world around it. -/
inductive PoolOp (U A W : Type) : Type → Type 1 where
  /-- A new handle, if there can be one. -/
  | create : PoolOp U A W (Option ℕ)
  | use (h : ℕ) (u : U) : PoolOp U A W A
  | env {β : Type} (f : W → β × W) : PoolOp U A W β

/-- A client: it runs a program, waits for the answer to a use, or was ended from outside. -/
inductive Client (U A W ε α : Type) : Type 1 where
  | runs (p : Program (PoolOp U A W) ε α)
  | waits (h : ℕ) (next : A → Program (PoolOp U A W) ε α)
  | ended

/-- The clients, the resources that were ever created, and the world. -/
structure Pool (ι U A σ W ε α : Type) : Type 1 where
  clients : ι → Client U A W ε α
  table : List σ
  world : W

/-- What a client does, or what happens to it. -/
inductive PoolAct (ι : Type) where
  | step (i : ι)
  /-- No resource can be created. -/
  | refuse (i : ι)
  | resume (i : ι)
  | kill (i : ι)

variable {ι U A σ W ε α : Type}

/-- The client after a use of `h`. -/
def Client.answered (h : ℕ) (next : A → Program (PoolOp U A W) ε α) :
    Option A → Client U A W ε α
  | some a => .runs (next a)
  | none => .waits h next

section Pool

variable [DecidableEq ι] (kind : ResourceKind U A σ)

/-- One step. -/
def Pool.step (act : PoolAct ι) (x : Pool ι U A σ W ε α) : Option (Pool ι U A σ W ε α) :=
  match act with
  | .step i =>
    match x.clients i with
    | .runs (.perform op next) =>
      match op, next with
      | .create, next =>
        some { x with
          clients := Function.update x.clients i (.runs (next (some x.table.length)))
          table := x.table ++ [kind.fresh] }
      | .use h u, next =>
        (x.table[h]?.bind (kind.use u)).map fun r =>
          { x with
            clients := Function.update x.clients i (.answered h next r.2)
            table := x.table.set h r.1 }
      | .env f, next =>
        some { x with
          clients := Function.update x.clients i (.runs (next (f x.world).1))
          world := (f x.world).2 }
    | _ => none
  | .refuse i =>
    match x.clients i with
    | .runs (.perform .create next) =>
      some { x with clients := Function.update x.clients i (.runs (next none)) }
    | _ => none
  | .resume i =>
    match x.clients i with
    | .waits h next =>
      (x.table[h]?.bind kind.resume).map fun r =>
        { x with
          clients := Function.update x.clients i (.answered h next r.2)
          table := x.table.set h r.1 }
    | _ => none
  | .kill i =>
    match x.clients i with
    | .runs _ => some { x with clients := Function.update x.clients i .ended }
    | _ => none

/-- The runs of the programs `p` over an empty table. -/
def pool (p : ι → Program (PoolOp U A W) ε α) (world : W) :
    Lts (Pool ι U A σ W ε α) (PoolAct ι) where
  init x := x = ⟨fun i => .runs (p i), [], world⟩
  step x act y := x.step kind act = some y

end Pool

/-! ## Alone -/

/-- A client with the resource that it holds. -/
structure Alone (U A σ W ε α : Type) : Type 1 where
  client : Client U A W ε α
  cell : Option (ℕ × σ)

section Alone

variable (kind : ResourceKind U A σ)

/-- A step of a client with a resource of its own. The world answers as it likes. -/
inductive AloneStep : Alone U A σ W ε α → Alone U A σ W ε α → Prop
  | create {next : Option ℕ → Program (PoolOp U A W) ε α} (h : ℕ) :
      AloneStep ⟨.runs (.perform .create next), none⟩
        ⟨.runs (next (some h)), some (h, kind.fresh)⟩
  | refuse {next : Option ℕ → Program (PoolOp U A W) ε α} {cell : Option (ℕ × σ)} :
      AloneStep ⟨.runs (.perform .create next), cell⟩ ⟨.runs (next none), cell⟩
  | use {h : ℕ} {u : U} {next : A → Program (PoolOp U A W) ε α} {s s' : σ} {a : Option A}
      (hu : kind.use u s = some (s', a)) :
      AloneStep ⟨.runs (.perform (.use h u) next), some (h, s)⟩
        ⟨.answered h next a, if kind.closes u then none else some (h, s')⟩
  | env {β : Type} {f : W → β × W} {next : β → Program (PoolOp U A W) ε α}
      {cell : Option (ℕ × σ)} (w : W) :
      AloneStep ⟨.runs (.perform (.env f) next), cell⟩ ⟨.runs (next (f w).1), cell⟩
  | resume {h : ℕ} {next : A → Program (PoolOp U A W) ε α} {s s' : σ} {a : Option A}
      (hr : kind.resume s = some (s', a)) :
      AloneStep ⟨.waits h next, some (h, s)⟩ ⟨.answered h next a, some (h, s')⟩
  | kill {p : Program (PoolOp U A W) ε α} {cell : Option (ℕ × σ)} :
      AloneStep ⟨.runs p, cell⟩ ⟨.ended, cell⟩

/-- The runs of the program `p` alone. -/
def alone (p : Program (PoolOp U A W) ε α) : Lts (Alone U A σ W ε α) Unit where
  init z := z = ⟨.runs p, none⟩
  step z _ z' := AloneStep kind z z'

end Alone

/-! ## Custody -/

section Custody

variable (closes : U → Bool) (Q : Option ℕ → Prop)

/-- A client that holds the handle `held` may do this. -/
def PoolOp.Allowed {β : Type} (held : Option ℕ) : PoolOp U A W β → Prop
  | .create => held = none
  | .use h _ => held = some h
  | .env _ => True

/-- What it holds after the answer `b`. -/
def PoolOp.after {β : Type} (held : Option ℕ) (op : PoolOp U A W β) (b : β) : Option ℕ :=
  match op, b with
  | .create, b => b
  | .use _ u, _ => if closes u then none else held
  | .env _, _ => held

/-- The program uses only what it holds, and when it returns, `Q` holds of that. -/
def InCustody : Option ℕ → Program (PoolOp U A W) ε α → Prop
  | held, .ret _ => Q held
  | _, .raise _ => True
  | held, .perform op next => op.Allowed held ∧ ∀ b, InCustody (op.after closes held b) (next b)

/-- The client does. -/
def Client.InCustody (held : Option ℕ) : Client U A W ε α → Prop
  | .runs p => Lib.InCustody closes Q held p
  | .waits h next => held = some h ∧ ∀ a, Lib.InCustody closes Q held (next a)
  | .ended => True

end Custody

/-- The clients keep apart: each holds the resource in its cell, which nobody else holds, and is
where it could have come to alone. -/
structure Pool.Apart (kind : ResourceKind U A σ) (Q : ι → Option ℕ → Prop)
    (p : ι → Program (PoolOp U A W) ε α) (x : Pool ι U A σ W ε α) (cells : ι → Option (ℕ × σ)) :
    Prop where
  alone : ∀ i, (Lib.alone kind (p i)).Reachable ⟨x.clients i, cells i⟩
  custody : ∀ i, (x.clients i).InCustody kind.closes (Q i) ((cells i).map Prod.fst)
  table : ∀ i h s, cells i = some (h, s) → x.table[h]? = some s
  distinct : ∀ i j h s t, cells i = some (h, s) → cells j = some (h, t) → i = j
  /-- What is not closed is held. -/
  held : ∀ h s, x.table[h]? = some s → kind.closed s ∨ ∃ i, cells i = some (h, s)

theorem InCustody.mono {closes : U → Bool} {Q R : Option ℕ → Prop} (hQR : ∀ held, Q held → R held)
    {held : Option ℕ} {p : Program (PoolOp U A W) ε α} (h : InCustody closes Q held p) :
    InCustody closes R held p := by
  induction p generalizing held with
  | ret a => exact hQR held h
  | raise e => trivial
  | perform op next ih => exact ⟨h.1, fun b => ih b (h.2 b)⟩

section Step

variable {kind : ResourceKind U A σ}

/-- Where a client has its answer, it is in custody of what it holds then. -/
theorem inCustody_answered {closes : U → Bool} {R : Option ℕ → Prop} {h : ℕ} {held : Option ℕ}
    {next : A → Program (PoolOp U A W) ε α} {a : Option A}
    (hwaits : a = none → held = some h) (hnext : ∀ a, InCustody closes R held (next a)) :
    (Client.answered h next a).InCustody closes R held := by
  cases a with
  | some a => exact hnext a
  | none => exact ⟨hwaits rfl, hnext⟩

/-- A step of a client in custody leaves it in custody. -/
theorem AloneStep.inCustody {R : Option ℕ → Prop} {z z' : Alone U A σ W ε α}
    (hst : AloneStep kind z z') (h : z.client.InCustody kind.closes R (z.cell.map Prod.fst)) :
    z'.client.InCustody kind.closes R (z'.cell.map Prod.fst) := by
  cases hst with
  | create handle => exact h.2 (some handle)
  | @refuse next cell =>
    obtain ⟨hheld, hnext⟩ := h
    rw [show cell.map Prod.fst = none from hheld]
    exact hnext none
  | @use handle u next s s' a hu =>
    obtain ⟨-, hnext⟩ := h
    cases hclose : kind.closes u with
    | false =>
      have hafter : ∀ a, InCustody kind.closes R (some handle) (next a) := fun a => by
        simpa [PoolOp.after, hclose] using hnext a
      exact inCustody_answered (fun _ => rfl) hafter
    | true =>
      have hafter : ∀ a, InCustody kind.closes R none (next a) := fun a => by
        simpa [PoolOp.after, hclose] using hnext a
      refine inCustody_answered (fun hnone => ?_) hafter
      have hsome := (kind.closed_of_closes hclose hu).2
      rw [hnone] at hsome
      cases hsome
  | env w => exact h.2 _
  | resume hr => exact inCustody_answered (fun _ => rfl) h.2
  | kill => trivial

variable {Q : ι → Option ℕ → Prop} {p : ι → Program (PoolOp U A W) ε α} {x y : Pool ι U A σ W ε α}
  {cells : ι → Option (ℕ × σ)}

/-- The client that is about to use a handle holds it. -/
theorem Pool.Apart.holds (h : x.Apart kind Q p cells) {i : ι} {handle : ℕ}
    (hheld : (cells i).map Prod.fst = some handle) :
    ∃ s, cells i = some (handle, s) ∧ x.table[handle]? = some s := by
  obtain ⟨⟨_, s⟩, hs, rfl⟩ := Option.map_eq_some_iff.mp hheld
  exact ⟨s, hs, h.table i _ s hs⟩

variable [DecidableEq ι]

/-- One client takes a step alone, and the table changes for it only. -/
theorem Pool.Apart.move (h : x.Apart kind Q p cells) {i : ι} {c : Client U A W ε α}
    (cell : Option (ℕ × σ)) {table : List σ} {world : W}
    (hst : AloneStep kind ⟨x.clients i, cells i⟩ ⟨c, cell⟩)
    (hcell : ∀ handle s, cell = some (handle, s) → table[handle]? = some s)
    (hothers : ∀ j, j ≠ i → ∀ handle s, cells j = some (handle, s) →
      table[handle]? = some s ∧ ∀ t, cell ≠ some (handle, t))
    (hheld : ∀ handle s, table[handle]? = some s →
      kind.closed s ∨ cell = some (handle, s) ∨ ∃ j, j ≠ i ∧ cells j = some (handle, s)) :
    Pool.Apart kind Q p ⟨Function.update x.clients i c, table, world⟩
      (Function.update cells i cell) := by
  constructor
  · intro j
    by_cases hj : j = i
    · subst hj
      simp only [Function.update_self]
      exact (h.alone j).step (a := ()) hst
    · simp only [Function.update_of_ne hj]
      exact h.alone j
  · intro j
    by_cases hj : j = i
    · subst hj
      simp only [Function.update_self]
      exact hst.inCustody (h.custody j)
    · simp only [Function.update_of_ne hj]
      exact h.custody j
  · intro j handle s hs
    by_cases hj : j = i
    · subst hj
      rw [Function.update_self] at hs
      exact hcell handle s hs
    · rw [Function.update_of_ne hj] at hs
      exact (hothers j hj handle s hs).1
  · intro j k handle s t hs ht
    by_cases hj : j = i
    · by_cases hk : k = i
      · rw [hj, hk]
      · subst hj
        rw [Function.update_self] at hs
        rw [Function.update_of_ne hk] at ht
        exact absurd hs ((hothers k hk handle t ht).2 s)
    · rw [Function.update_of_ne hj] at hs
      by_cases hk : k = i
      · subst hk
        rw [Function.update_self] at ht
        exact absurd ht ((hothers j hj handle s hs).2 t)
      · rw [Function.update_of_ne hk] at ht
        exact h.distinct j k handle s t hs ht
  · intro handle s hs
    rcases hheld handle s hs with hclosed | hcell | ⟨j, hj, hs⟩
    · exact .inl hclosed
    · exact .inr ⟨i, by rw [Function.update_self, hcell]⟩
    · exact .inr ⟨j, by rw [Function.update_of_ne hj, hs]⟩

/-- A step that leaves the resources alone. -/
theorem Pool.Apart.move_client (h : x.Apart kind Q p cells) {i : ι} {c : Client U A W ε α}
    {world : W} (hst : AloneStep kind ⟨x.clients i, cells i⟩ ⟨c, cells i⟩) :
    Pool.Apart kind Q p ⟨Function.update x.clients i c, x.table, world⟩ cells := by
  rw [← Function.update_eq_self i cells]
  refine h.move (cells i) hst (h.table i) (fun j hj handle s hs => ?_) fun handle s hs => ?_
  · exact ⟨h.table j handle s hs, fun t ht => hj (h.distinct j i handle s t hs ht)⟩
  · rcases h.held handle s hs with hclosed | ⟨j, hs⟩
    · exact .inl hclosed
    · by_cases hj : j = i
      · exact .inr (.inl (hj ▸ hs))
      · exact .inr (.inr ⟨j, hj, hs⟩)

/-- A step on the resource that the client holds. -/
theorem Pool.Apart.move_cell (h : x.Apart kind Q p cells) {i : ι} {c : Client U A W ε α}
    {handle : ℕ} {s : σ} (s' : σ) (cell : Option (ℕ × σ)) (hs : cells i = some (handle, s))
    (hst : AloneStep kind ⟨x.clients i, cells i⟩ ⟨c, cell⟩)
    (hcell : cell = some (handle, s') ∨ cell = none ∧ kind.closed s') :
    Pool.Apart kind Q p ⟨Function.update x.clients i c, x.table.set handle s', x.world⟩
      (Function.update cells i cell) := by
  have hlt : handle < x.table.length := (List.getElem?_eq_some_iff.mp (h.table i handle s hs)).1
  refine h.move cell hst ?_ ?_ ?_
  · intro k t ht
    rcases hcell with rfl | ⟨rfl, -⟩
    · cases ht
      rw [List.getElem?_set_self hlt]
    · cases ht
  · intro j hj k t ht
    have hk : handle ≠ k := by
      rintro rfl
      exact hj (h.distinct j i handle t s ht hs)
    refine ⟨?_, fun t' ht' => ?_⟩
    · rw [List.getElem?_set_ne hk]
      exact h.table j k t ht
    · rcases hcell with rfl | ⟨rfl, -⟩
      · cases ht'
        exact hk rfl
      · cases ht'
  · intro k t ht
    by_cases hk : handle = k
    · subst hk
      rw [List.getElem?_set_self hlt] at ht
      cases ht
      rcases hcell with hcell | ⟨-, hclosed⟩
      · exact .inr (.inl hcell)
      · exact .inl hclosed
    · rw [List.getElem?_set_ne hk] at ht
      rcases h.held k t ht with hclosed | ⟨j, ht⟩
      · exact .inl hclosed
      · refine .inr (.inr ⟨j, ?_, ht⟩)
        rintro rfl
        rw [hs] at ht
        cases ht
        exact hk rfl

/-- A client takes its next step. -/
theorem Pool.Apart.step_client (h : x.Apart kind Q p cells) {i : ι}
    (hst : x.step kind (.step i) = some y) : ∃ cells, y.Apart kind Q p cells := by
  have hcustody := h.custody i
  rcases hc : x.clients i with ⟨_ | _ | ⟨op, next⟩⟩ | ⟨handle, next⟩ | _
  case runs.perform =>
    rw [hc] at hcustody
    obtain ⟨hallowed, hnext⟩ := hcustody
    cases op with
    | create =>
      simp only [Pool.step, hc, Option.some.injEq] at hst
      subst hst
      have hnone : cells i = none := Option.map_eq_none_iff.mp hallowed
      refine ⟨_, h.move (i := i) (some (x.table.length, kind.fresh)) ?_ ?_ ?_ ?_⟩
      · rw [hc, hnone]
        exact .create x.table.length
      · rintro k t ht
        cases ht
        exact List.getElem?_concat_length
      · intro j hj k t ht
        have hlt := (List.getElem?_eq_some_iff.mp (h.table j k t ht)).1
        refine ⟨(List.getElem?_append_left hlt).trans (h.table j k t ht), fun t' ht' => ?_⟩
        cases ht'
        exact absurd hlt (Nat.lt_irrefl _)
      · intro k t ht
        rcases Nat.lt_or_ge k x.table.length with hlt | hge
        · rw [List.getElem?_append_left hlt] at ht
          rcases h.held k t ht with hclosed | ⟨j, ht⟩
          · exact .inl hclosed
          · refine .inr (.inr ⟨j, ?_, ht⟩)
            rintro rfl
            cases hnone.symm.trans ht
        · rw [List.getElem?_append_right hge, List.getElem?_singleton,
            Option.ite_none_right_eq_some] at ht
          obtain ⟨hk, ht⟩ := ht
          cases ht
          exact .inr (.inl (by rw [show k = x.table.length by omega]))
    | use handle u =>
      obtain ⟨s, hs, htable⟩ := h.holds hallowed
      simp only [Pool.step, hc, htable, Option.bind_some, Option.map_eq_some_iff] at hst
      obtain ⟨⟨s', a⟩, hu, rfl⟩ := hst
      refine ⟨_, h.move_cell s' (if kind.closes u then none else some (handle, s')) hs ?_ ?_⟩
      · rw [hc, hs]
        exact .use hu
      · cases hclose : kind.closes u with
        | false => exact .inl (by simp)
        | true => exact .inr ⟨by simp, (kind.closed_of_closes hclose hu).1⟩
    | env f =>
      simp only [Pool.step, hc, Option.some.injEq] at hst
      subst hst
      refine ⟨cells, h.move_client ?_⟩
      rw [hc]
      exact .env x.world
  all_goals simp [Pool.step, hc] at hst

/-- A suspended use goes on. -/
theorem Pool.Apart.step_resume (h : x.Apart kind Q p cells) {i : ι}
    (hst : x.step kind (.resume i) = some y) : ∃ cells, y.Apart kind Q p cells := by
  have hcustody := h.custody i
  cases hc : x.clients i with
  | waits handle next =>
    rw [hc] at hcustody
    obtain ⟨s, hs, htable⟩ := h.holds hcustody.1
    simp only [Pool.step, hc, htable, Option.bind_some, Option.map_eq_some_iff] at hst
    obtain ⟨⟨s', a⟩, hr, rfl⟩ := hst
    refine ⟨_, h.move_cell s' (some (handle, s')) hs ?_ (.inl rfl)⟩
    rw [hc, hs]
    exact .resume hr
  | runs | ended => simp [Pool.step, hc] at hst

theorem Pool.Apart.step (h : x.Apart kind Q p cells) {act : PoolAct ι}
    (hst : x.step kind act = some y) : ∃ cells, y.Apart kind Q p cells := by
  cases act with
  | step i => exact h.step_client hst
  | resume i => exact h.step_resume hst
  | refuse i =>
    rcases hc : x.clients i with ⟨_ | _ | ⟨op, next⟩⟩ | ⟨handle, next⟩ | _
    case runs.perform =>
      cases op with
      | create =>
        simp only [Pool.step, hc, Option.some.injEq] at hst
        subst hst
        refine ⟨cells, h.move_client ?_⟩
        rw [hc]
        exact .refuse
      | use | env => simp [Pool.step, hc] at hst
    all_goals simp [Pool.step, hc] at hst
  | kill i =>
    cases hc : x.clients i with
    | runs q =>
      simp only [Pool.step, hc, Option.some.injEq] at hst
      subst hst
      refine ⟨cells, h.move_client ?_⟩
      rw [hc]
      exact .kill
    | waits | ended => simp [Pool.step, hc] at hst

/-- Clients that are in custody of nothing at the start keep apart in every run. -/
theorem Pool.apart (hp : ∀ i, InCustody kind.closes (Q i) none (p i)) {world : W}
    (hx : (pool kind p world).Reachable x) : ∃ cells, x.Apart kind Q p cells := by
  refine hx.invariant (I := fun x => ∃ cells, x.Apart kind Q p cells) ?_ ?_
  · rintro x rfl
    exact ⟨fun _ => none, fun i => .of_init rfl, hp, by simp, by simp, by simp⟩
  · rintro x act y ⟨cells, h⟩ hst
    exact h.step hst

end Step

/-! ## The states in which a client uses its resource -/

section Meets

variable (kind : ResourceKind U A σ) (Pre : U → σ → Prop)

/-- A use that the operation makes of the resource in the cell meets `Pre`. -/
def PoolOp.Meets {β : Type} (op : PoolOp U A W β) (cell : Option (ℕ × σ)) : Prop :=
  match op with
  | .use h u => ∀ s, cell = some (h, s) → Pre u s
  | .create | .env _ => True

/-- The operation, answered with `b`, takes the cell of its client from `cell` to `cell'`. -/
def PoolOp.Leads {β : Type} (op : PoolOp U A W β) (cell : Option (ℕ × σ)) (b : β)
    (cell' : Option (ℕ × σ)) : Prop :=
  match op, b with
  | .create, some h => cell' = some (h, kind.fresh)
  | .create, none => cell' = cell
  | .use h u, b => ∃ s s', cell = some (h, s) ∧ kind.use u s = some (s', some b) ∧
      cell' = if kind.closes u then none else some (h, s')
  | .env _, _ => cell' = cell

/-- Every use that the program makes of its resource, from this cell on, meets `Pre`. -/
def Meets : Option (ℕ × σ) → Program (PoolOp U A W) ε α → Prop
  | _, .ret _ => True
  | _, .raise _ => True
  | cell, .perform op next =>
    op.Meets Pre cell ∧ ∀ b cell', op.Leads kind cell b cell' → Meets cell' (next b)

variable {kind Pre}

/-- So does every use that it makes alone, if a use that is suspended never goes on. -/
theorem meets_of_alone
    (hsuspended : ∀ u s s', Pre u s → kind.use u s = some (s', none) → kind.resume s' = none)
    {p : Program (PoolOp U A W) ε α} (hp : Meets kind Pre none p) {z : Alone U A σ W ε α}
    (hz : (alone kind p).Reachable z) :
    (∀ q, z.client = .runs q → Meets kind Pre z.cell q) ∧
      ∀ h next s, z.client = .waits h next → z.cell = some (h, s) → kind.resume s = none := by
  refine hz.invariant (I := fun z => (∀ q, z.client = .runs q → Meets kind Pre z.cell q) ∧
    ∀ h next s, z.client = .waits h next → z.cell = some (h, s) → kind.resume s = none) ?_ ?_
  · rintro z rfl
    refine ⟨fun q hq => ?_, fun h next s hz => by (cases hz)⟩
    cases hq
    exact hp
  · rintro z _ z' ⟨hruns, hwaits⟩ hst
    cases hst with
    | create handle =>
      refine ⟨fun q hq => ?_, fun h next s hz => by (cases hz)⟩
      cases hq
      exact (hruns _ rfl).2 (some handle) _ rfl
    | refuse =>
      refine ⟨fun q hq => ?_, fun h next s hz => by (cases hz)⟩
      cases hq
      exact (hruns _ rfl).2 none _ rfl
    | @use handle u next s s' a hu =>
      obtain ⟨hpre, hnext⟩ := hruns _ rfl
      cases a with
      | none =>
        refine ⟨fun q hq => by (cases hq), fun h next' t hz ht => ?_⟩
        cases hclose : kind.closes u with
        | false =>
          simp only [hclose, Bool.false_eq_true, if_false, Option.some.injEq] at ht
          cases ht
          exact hsuspended u s s' (hpre s rfl) hu
        | true => simp [hclose] at ht
      | some a =>
        refine ⟨fun q hq => ?_, fun h next s hz => by (cases hz)⟩
        cases hq
        exact hnext a _ ⟨s, s', rfl, hu, rfl⟩
    | env w =>
      refine ⟨fun q hq => ?_, fun h next s hz => by (cases hz)⟩
      cases hq
      exact (hruns _ rfl).2 _ _ rfl
    | @resume handle next s s' a hr => cases (hwaits handle next s rfl rfl).symm.trans hr
    | kill => exact ⟨fun q hq => by (cases hq), fun h next s hz => by (cases hz)⟩

end Meets

end Lib
