/-!
# Programs over operations

A program performs operations of an interface `E` one after another, each answered with a value, and
ends with a result or raises. `Program.All` is the logic of such programs: which operations they
perform and what they return, whatever the answers. `Program.run` executes a program on a state with
a handler for the operations. Nothing here refers to a particular interface.
-/

namespace Lib

universe u

/-- A sequence of two computations returns what the second does with the result of the first. -/
theorem bind_eq_ok {ε α β : Type} {x : Except ε α} {f : α → Except ε β} {b : β} :
    (x >>= f) = .ok b ↔ ∃ a, x = .ok a ∧ f a = .ok b := by
  cases x with
  | error e => simp [Bind.bind, Except.bind]
  | ok a => simp [Bind.bind, Except.bind]

/-- A program over the operations `E` that returns an `α` or raises an `ε`. -/
inductive Program (E : Type → Type u) (ε α : Type) : Type (max 1 u) where
  /-- Return. -/
  | ret (a : α)
  /-- Raise. -/
  | raise (e : ε)
  /-- Perform an operation and go on with its answer. -/
  | perform {β : Type} (op : E β) (next : β → Program E ε α)

namespace Program

variable {E : Type → Type u} {ε α β σ : Type}

/-- Sequential composition. -/
def bind : Program E ε α → (α → Program E ε β) → Program E ε β
  | .ret a, f => f a
  | .raise e, _ => .raise e
  | .perform op next, f => .perform op fun b => bind (next b) f

instance : Monad (Program E ε) where
  pure := .ret
  bind := bind

@[simp] theorem pure_eq (a : α) : (pure a : Program E ε α) = .ret a := rfl

@[simp] theorem ret_bind (a : α) (f : α → Program E ε β) : (Program.ret a >>= f) = f a := rfl

@[simp] theorem raise_bind (e : ε) (f : α → Program E ε β) :
    ((Program.raise e : Program E ε α) >>= f) = .raise e := rfl

@[simp] theorem perform_bind {γ : Type} (op : E γ) (next : γ → Program E ε α)
    (f : α → Program E ε β) :
    (Program.perform op next >>= f) = .perform op fun b => next b >>= f := rfl

theorem bind_assoc {γ : Type} (m : Program E ε α) (f : α → Program E ε β) (g : β → Program E ε γ) :
    (m >>= f >>= g) = (m >>= fun a => f a >>= g) := by
  induction m with
  | ret a => rfl
  | raise e => rfl
  | perform op next ih => exact congrArg (Program.perform op) (funext ih)

/-- A single operation. -/
def lift (op : E α) : Program E ε α := .perform op .ret

/-- Whatever the answers, the program performs only operations that meet `P` and returns only
results that meet `Q`. -/
def All (P : ∀ {β : Type}, E β → Prop) (Q : α → Prop) : Program E ε α → Prop
  | .ret a => Q a
  | .raise _ => True
  | .perform op next => P op ∧ ∀ b, All P Q (next b)

section All

variable {P : ∀ {β : Type}, E β → Prop} {Q : α → Prop}

/-- The rule of composition. -/
theorem All.bind {R : β → Prop} {m : Program E ε α} {f : α → Program E ε β} (hm : All P Q m)
    (hf : ∀ a, Q a → All P R (f a)) : All P R (m >>= f) := by
  induction m with
  | ret a => exact hf a hm
  | raise e => trivial
  | perform op next ih => exact ⟨hm.1, fun b => ih b (hm.2 b)⟩

/-- What follows a program may rely on what holds of its results. -/
theorem All.bind_congr {m : Program E ε α} (hm : All P Q m) {f g : α → Program E ε β}
    (hfg : ∀ a, Q a → f a = g a) : (m >>= f) = (m >>= g) := by
  induction m with
  | ret a => exact hfg a hm
  | raise e => rfl
  | perform op next ih => exact congrArg (Program.perform op) (funext fun b => ih b (hm.2 b))

end All

/-- Execute a program, each operation on the state by the handler. -/
def run (handle : ∀ {β : Type}, E β → σ → Except ε β × σ) :
    Program E ε α → σ → Except ε α × σ
  | .ret a, s => (.ok a, s)
  | .raise e, s => (.error e, s)
  | .perform op next, s =>
    match handle op s with
    | (.ok b, s') => run handle (next b) s'
    | (.error e, s') => (.error e, s')

section Run

variable {handle : ∀ {β : Type}, E β → σ → Except ε β × σ}

theorem run_perform_ok {op : E β} {next : β → Program E ε α} {s s' : σ} {b : β}
    (h : handle op s = (.ok b, s')) : run handle (.perform op next) s = run handle (next b) s' := by
  rw [run, h]

theorem run_perform_error {op : E β} {next : β → Program E ε α} {s s' : σ} {e : ε}
    (h : handle op s = (.error e, s')) : run handle (.perform op next) s = (.error e, s') := by
  rw [run, h]

theorem run_bind (m : Program E ε α) (f : α → Program E ε β) (s : σ) :
    run handle (m >>= f) s =
      match run handle m s with
      | (.ok a, s') => run handle (f a) s'
      | (.error e, s') => (.error e, s') := by
  induction m generalizing s with
  | ret a => rfl
  | raise e => rfl
  | perform op next ih =>
    rw [perform_bind]
    rcases hr : handle op s with ⟨r, s'⟩
    cases r with
    | ok b =>
      rw [run_perform_ok hr, run_perform_ok hr]
      exact ih b s'
    | error e => rw [run_perform_error hr, run_perform_error hr]

/-- A program goes on with the answer of its first operation. -/
theorem run_lift_ok {op : E α} {f : α → Program E ε β} {s s' : σ} {a : α}
    (h : handle op s = (.ok a, s')) : run handle (lift op >>= f) s = run handle (f a) s' :=
  run_perform_ok h

theorem run_lift_error {op : E α} {f : α → Program E ε β} {s s' : σ} {e : ε}
    (h : handle op s = (.error e, s')) : run handle (lift op >>= f) s = (.error e, s') :=
  run_perform_error h

/-- What holds of every result and is kept by every operation holds after the run. -/
theorem All.run {P : ∀ {β : Type}, E β → Prop} {Q : α → Prop} {I : σ → Prop} {m : Program E ε α}
    (hm : All P Q m) (handle : ∀ {β : Type}, E β → σ → Except ε β × σ)
    (hI : ∀ {β : Type} (op : E β) (s : σ), P op → I s → I (handle op s).2) {s : σ} (hs : I s) :
    I (m.run handle s).2 ∧ ∀ a, (m.run handle s).1 = .ok a → Q a := by
  induction m generalizing s with
  | ret a => exact ⟨hs, fun b hb => by cases hb; exact hm⟩
  | raise e => exact ⟨hs, fun b hb => by cases hb⟩
  | perform op next ih =>
    have hop := hI op s hm.1 hs
    rcases hr : handle op s with ⟨r, s'⟩
    rw [hr] at hop
    cases r with
    | ok b =>
      rw [run_perform_ok hr]
      exact ih b (hm.2 b) hop
    | error e =>
      rw [run_perform_error hr]
      exact ⟨hop, fun b hb => by cases hb⟩

end Run

/-! ## Weakest preconditions -/

/-- From the state `s` the program returns, with a result and in a state that meet `Q`. -/
def wp (handle : ∀ {β : Type}, E β → σ → Except ε β × σ) (m : Program E ε α) (Q : α → σ → Prop)
    (s : σ) : Prop :=
  ∃ a s', m.run handle s = (.ok a, s') ∧ Q a s'

section Wp

variable {handle : ∀ {β : Type}, E β → σ → Except ε β × σ} {s : σ}

end Wp

end Program

end Lib
