import Stowage.Fault.Basic

/-!
# Actions

An action changes a state and either gives a result or is refused with a fault. The state it has
reached is kept in both cases, so what was done before a refusal stays done.

`ensuring` runs a second action whatever became of the first. A fault of the second action takes the
place of the outcome of the first.
-/

set_option autoImplicit false

namespace Stowage

/-- A change of state with a result or a fault. -/
def Action (σ α : Type) : Type := σ → Except Fault α × σ

namespace Action

variable {σ τ α β : Type}

/-- Runs an action from a state. -/
def run (x : Action σ α) (s : σ) : Except Fault α × σ := x s

/-- Runs the next action unless there was a fault. -/
def andThen (x : Action σ α) (f : α → Action σ β) : Action σ β := fun s =>
  match x s with
  | (.ok a, s) => f a s
  | (.error fault, s) => (.error fault, s)

instance : Monad (Action σ) where
  pure a := fun s => (.ok a, s)
  bind := andThen

/-- Refuses. -/
def refuse (fault : Fault) : Action σ α := fun s => (.error fault, s)

/-- An outcome that needs no state. -/
def ofExcept (outcome : Except Fault α) : Action σ α := fun s => (outcome, s)

/-- An outcome that reads the state. -/
def reading (f : σ → Except Fault α) : Action σ α := fun s => (f s, s)

/-- A change of the state that is never refused. -/
def update (f : σ → σ) : Action σ Unit := fun s => (.ok (), f s)

/-- Runs an action on a part of the state. -/
def within (part : σ → τ) (put : τ → σ → σ) (x : Action τ α) : Action σ α := fun s =>
  match x (part s) with
  | (outcome, t) => (outcome, put t s)

/-- Runs a second action whatever became of the first. -/
def ensuring (x : Action σ α) (cleanup : Action σ Unit) : Action σ α := fun s =>
  match x s with
  | (outcome, s) =>
    match cleanup s with
    | (.ok (), s) => (outcome, s)
    | (.error fault, s) => (.error fault, s)

/-- Runs an action for `count` numbers from `first` on, handing a result along. -/
def iterate (f : Nat → β → Action σ β) : (first count : Nat) → β → Action σ β
  | _, 0, b => pure b
  | first, count + 1, b => do
    let b ← f first b
    iterate f (first + 1) count b

/-- Runs an action for every element in order. -/
def each (f : α → Action σ Unit) : List α → Action σ Unit
  | [] => pure ()
  | a :: rest => do
    f a
    each f rest

/-- Runs an action for every element in order and collects the results. -/
def collect (f : α → Action σ β) : List α → Action σ (List β)
  | [] => pure []
  | a :: rest => do
    let b ← f a
    let others ← collect f rest
    pure (b :: others)

/-! ### How actions run -/

@[simp] theorem run_pure (a : α) (s : σ) : run (pure a) s = (.ok a, s) := rfl

@[simp] theorem run_refuse (fault : Fault) (s : σ) :
    run (refuse fault : Action σ α) s = (.error fault, s) := rfl

@[simp] theorem run_ofExcept (outcome : Except Fault α) (s : σ) :
    run (ofExcept outcome) s = (outcome, s) := rfl

@[simp] theorem run_reading (f : σ → Except Fault α) (s : σ) :
    run (reading f) s = (f s, s) := rfl

@[simp] theorem run_update (f : σ → σ) (s : σ) : run (update f) s = (.ok (), f s) := rfl

theorem run_bind (x : Action σ α) (f : α → Action σ β) (s : σ) :
    run (x >>= f) s = match run x s with
      | (.ok a, s) => run (f a) s
      | (.error fault, s) => (.error fault, s) := rfl

theorem run_bind_ok {x : Action σ α} {s s' : σ} {a : α} (h : run x s = (.ok a, s'))
    (f : α → Action σ β) : run (x >>= f) s = run (f a) s' := by
  rw [run_bind, h]

theorem run_bind_error {x : Action σ α} {s s' : σ} {fault : Fault}
    (h : run x s = (.error fault, s')) (f : α → Action σ β) :
    run (x >>= f) s = (.error fault, s') := by
  rw [run_bind, h]

end Action

end Stowage
