import Stowage.Action

/-!
# Runs of actions

A run of an action gives an outcome and a state. The lemmas here take the runs of composed actions
apart: a sequence of actions succeeds exactly when each of them does (`run_bind_eq_ok`), an action
on a part of the state leaves the rest alone, and `ensuring` gives the outcome of its first action
unless the second is refused. `Preserves` says that an action relates every state it starts from to
the state it ends in, whatever the outcome; for a reflexive and transitive relation it passes from
actions to everything composed of them.
-/

set_option autoImplicit false

namespace Stowage.Action

variable {σ τ α β : Type}

/-- A sequence of two actions succeeds exactly when both do. -/
theorem run_bind_eq_ok {x : Action σ α} {f : α → Action σ β} {s s' : σ} {b : β} :
    run (x >>= f) s = (.ok b, s') ↔
      ∃ a middle, run x s = (.ok a, middle) ∧ run (f a) middle = (.ok b, s') := by
  rw [run_bind]
  rcases hx : run x s with ⟨fault | a, middle⟩
  · simp
  · constructor
    · exact fun h ↦ ⟨a, middle, rfl, h⟩
    · rintro ⟨a', middle', heq, h⟩
      obtain ⟨ha, hm⟩ := Prod.mk.inj heq
      rw [Except.ok.inj ha, hm]
      exact h

/-- It does not matter how three actions in a row are grouped. -/
theorem run_bind_bind {γ : Type} (x : Action σ α) (f : α → Action σ β) (g : β → Action σ γ)
    (s : σ) :
    run (x >>= fun a ↦ f a >>= g) s = run ((x >>= f) >>= g) s := by
  rw [run_bind, run_bind (x >>= f), run_bind x f]
  rcases run x s with ⟨fault | a, middle⟩ <;> rfl

theorem run_pure_eq_ok {a b : α} {s s' : σ} :
    run (pure a : Action σ α) s = (.ok b, s') ↔ s' = s ∧ b = a := by
  rw [run_pure, Prod.mk.injEq, Except.ok.injEq, and_comm, eq_comm, eq_comm (a := a)]

theorem run_ofExcept_eq_ok {outcome : Except Fault α} {a : α} {s s' : σ} :
    run (ofExcept outcome) s = (.ok a, s') ↔ s' = s ∧ outcome = .ok a := by
  rw [run_ofExcept, Prod.mk.injEq, and_comm, eq_comm]

theorem run_ofExcept_bind_ok {outcome : Except Fault α} {a : α} (h : outcome = .ok a)
    (f : α → Action σ β) (s : σ) : run (ofExcept outcome >>= f) s = run (f a) s := by
  subst h
  rfl

theorem run_ofExcept_bind_error {outcome : Except Fault α} {fault : Fault}
    (h : outcome = .error fault) (f : α → Action σ β) (s : σ) :
    run (ofExcept outcome >>= f) s = (.error fault, s) := by
  subst h
  rfl

/-- An outcome that needs no state, at the end. -/
theorem run_bind_ofExcept (x : Action σ α) (f : α → Except Fault β) (s : σ) :
    run (x >>= fun a ↦ ofExcept (f a)) s = ((run x s).1 >>= f, (run x s).2) := by
  rw [run_bind]
  rcases run x s with ⟨fault | a, middle⟩ <;> rfl

theorem run_map (f : α → β) (x : Action σ α) (s : σ) :
    run (f <$> x) s = ((run x s).1.map f, (run x s).2) := by
  change run (x >>= fun a ↦ pure (f a)) s = _
  rw [run_bind]
  rcases run x s with ⟨fault | a, middle⟩ <;> rfl

theorem run_within (part : σ → τ) (put : τ → σ → σ) (x : Action τ α) (s : σ) :
    run (within part put x) s = ((run x (part s)).1, put (run x (part s)).2 s) := rfl

theorem run_ensuring (x : Action σ α) (cleanup : Action σ Unit) (s : σ) :
    run (ensuring x cleanup) s = match run cleanup (run x s).2 with
      | (.ok (), last) => ((run x s).1, last)
      | (.error fault, last) => (.error fault, last) := rfl

/-- The state of an ensured action is the one the second action ends in. -/
theorem run_ensuring_snd (x : Action σ α) (cleanup : Action σ Unit) (s : σ) :
    (run (ensuring x cleanup) s).2 = (run cleanup (run x s).2).2 := by
  rw [run_ensuring]
  rcases run cleanup (run x s).2 with ⟨_ | _, last⟩ <;> rfl

/-- When the second action is not refused, the outcome is that of the first. -/
theorem run_ensuring_of_ok {x : Action σ α} {cleanup : Action σ Unit} {s middle last : σ}
    {outcome : Except Fault α} (hx : run x s = (outcome, middle))
    (hcleanup : run cleanup middle = (.ok (), last)) :
    run (ensuring x cleanup) s = (outcome, last) := by
  simp only [run_ensuring, hx, hcleanup]

/-- An ensured action succeeds only when both actions do. -/
theorem run_ensuring_eq_ok {x : Action σ α} {cleanup : Action σ Unit} {s last : σ} {a : α}
    (h : run (ensuring x cleanup) s = (.ok a, last)) :
    ∃ middle, run x s = (.ok a, middle) ∧ run cleanup middle = (.ok (), last) := by
  rw [run_ensuring] at h
  rcases hcleanup : run cleanup (run x s).2 with ⟨_ | _, after⟩
  · rw [hcleanup] at h
    exact absurd (Prod.mk.inj h).1 (by simp)
  · rw [hcleanup] at h
    obtain ⟨houtcome, rfl⟩ := Prod.mk.inj h
    exact ⟨(run x s).2, Prod.ext houtcome rfl, hcleanup⟩

/-- An action that is repeated some times and then some more. -/
theorem run_iterate_add (f : Nat → β → Action σ β) (first count more : Nat) (b : β) (s : σ) :
    run (iterate f first (count + more) b) s =
      run (iterate f first count b >>= iterate f (first + count) more) s := by
  induction count generalizing first b s with
  | zero =>
    rw [Nat.zero_add, Nat.add_zero]
    rfl
  | succ count ih =>
    rw [Nat.add_right_comm, iterate, iterate, ← run_bind_bind, run_bind, run_bind (f first b)]
    rcases run (f first b) s with ⟨fault | b, middle⟩
    · rfl
    · dsimp only
      rw [ih, Nat.add_right_comm, Nat.add_assoc]

/-! ### What every run preserves -/

/-- Every run of the action relates the state it starts from to the state it ends in. -/
def Preserves (r : σ → σ → Prop) (x : Action σ α) : Prop := ∀ s, r s (run x s).2

section Preserves

variable {r : σ → σ → Prop} (hrefl : ∀ s, r s s) 
  (htrans : ∀ s₁ s₂ s₃, r s₁ s₂ → r s₂ s₃ → r s₁ s₃)

include hrefl

theorem preserves_pure (a : α) : Preserves r (pure a : Action σ α) := hrefl

theorem preserves_refuse (fault : Fault) : Preserves r (refuse fault : Action σ α) := hrefl

theorem preserves_ofExcept (outcome : Except Fault α) :
    Preserves r (ofExcept outcome : Action σ α) := hrefl

theorem preserves_reading (f : σ → Except Fault α) : Preserves r (reading f) := hrefl

include htrans

omit hrefl in
theorem Preserves.bind {x : Action σ α} {f : α → Action σ β} (hx : Preserves r x)
    (hf : ∀ a, Preserves r (f a)) : Preserves r (x >>= f) := by
  intro s
  have hfirst := hx s
  rw [run_bind]
  rcases hrun : run x s with ⟨fault | a, middle⟩
  · rw [hrun] at hfirst
    exact hfirst
  · rw [hrun] at hfirst
    exact htrans _ _ _ hfirst (hf a middle)

omit hrefl in
theorem Preserves.ensuring {x : Action σ α} {cleanup : Action σ Unit} (hx : Preserves r x)
    (hcleanup : Preserves r cleanup) : Preserves r (Action.ensuring x cleanup) := by
  intro s
  rw [run_ensuring_snd]
  exact htrans _ _ _ (hx s) (hcleanup _)

omit hrefl htrans in
theorem Preserves.map {x : Action σ α} (hx : Preserves r x) (f : α → β) :
    Preserves r (f <$> x) := by
  intro s
  rw [run_map]
  exact hx s

/-- What every round from the first one on preserves. -/
theorem Preserves.iterate_from {f : Nat → β → Action σ β} {first : Nat}
    (hf : ∀ k, first ≤ k → ∀ b, Preserves r (f k b)) (count : Nat) (b : β) :
    Preserves r (Action.iterate f first count b) := by
  induction count generalizing first b with
  | zero => exact preserves_pure hrefl b
  | succ count ih =>
    exact Preserves.bind htrans (hf first (Nat.le_refl first) b) fun b ↦
      ih (fun k hk ↦ hf k (Nat.le_of_succ_le hk)) b

theorem Preserves.iterate {f : Nat → β → Action σ β} (hf : ∀ k b, Preserves r (f k b))
    (first count : Nat) (b : β) : Preserves r (Action.iterate f first count b) :=
  Preserves.iterate_from hrefl htrans (fun k _ ↦ hf k) count b

end Preserves

end Stowage.Action
