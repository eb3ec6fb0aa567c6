import Mathlib.Data.List.Forall2

/-!
# Lists of parts of one length

When every element of a list contributes a part of one length, an element of the whole is found by
dividing its number by this length, and a change inside one part is a change of the whole there.
-/

set_option autoImplicit false

namespace Stowage

variable {α β : Type} {f : α → List β} {width : Nat} {xs : List α}

theorem length_flatMap_of_forall (h : ∀ x ∈ xs, (f x).length = width) :
    (xs.flatMap f).length = xs.length * width := by
  induction xs with
  | nil => simp
  | cons x rest ih =>
    obtain ⟨hx, hrest⟩ := List.forall_mem_cons.1 h
    rw [List.flatMap_cons, List.length_append, hx, ih hrest, List.length_cons, Nat.succ_mul,
      Nat.add_comm]

/-- The part that an element is in, and its place there, are found by dividing. -/
theorem getElem?_flatMap_of_forall (h : ∀ x ∈ xs, (f x).length = width) (hwidth : 0 < width)
    (k : Nat) :
    (xs.flatMap f)[k]? = xs[k / width]?.bind fun x ↦ (f x)[k % width]? := by
  induction xs generalizing k with
  | nil => rfl
  | cons x rest ih =>
    obtain ⟨hx, hrest⟩ := List.forall_mem_cons.1 h
    rw [List.flatMap_cons]
    by_cases hk : k < width
    · rw [List.getElem?_append_left (by omega), Nat.div_eq_of_lt hk, Nat.mod_eq_of_lt hk]
      rfl
    · have hdiv : k / width = (k - width) / width + 1 := Nat.div_eq_sub_div hwidth (by omega)
      have hmod : k % width = (k - width) % width := Nat.mod_eq_sub_mod (by omega)
      rw [List.getElem?_append_right (by omega), hx, ih hrest (k - width), hdiv, hmod,
        List.getElem?_cons_succ]

/-- A change of one element inside its part. -/
theorem flatMap_modify_of_forall (h : ∀ x ∈ xs, (f x).length = width) (hwidth : 0 < width)
    {k : Nat} {g : α → α} {b : β}
    (hg : ∀ x ∈ xs, f (g x) = (f x).set (k % width) b) :
    (xs.modify (k / width) g).flatMap f = (xs.flatMap f).set k b := by
  induction xs generalizing k with
  | nil => simp
  | cons x rest ih =>
    obtain ⟨hx, hrest⟩ := List.forall_mem_cons.1 h
    obtain ⟨hgx, hgrest⟩ := List.forall_mem_cons.1 hg
    by_cases hk : k < width
    · rw [Nat.div_eq_of_lt hk, List.modify_zero_cons, List.flatMap_cons, List.flatMap_cons, hgx,
        Nat.mod_eq_of_lt hk, List.set_append_left _ _ (by omega)]
    · have hdiv : k / width = (k - width) / width + 1 := Nat.div_eq_sub_div hwidth (by omega)
      have hmod : k % width = (k - width) % width := Nat.mod_eq_sub_mod (by omega)
      rw [hmod] at hgrest
      rw [hdiv, List.modify_succ_cons, List.flatMap_cons, List.flatMap_cons, ih hrest hgrest,
        List.set_append_right _ _ (by omega), hx]

/-- Elements that contribute the same parts, one by one. -/
theorem flatMap_eq_flatMap_of_forall₂ {γ : Type} {g : γ → List β} {ys : List γ}
    (h : List.Forall₂ (fun x y ↦ f x = g y) xs ys) : xs.flatMap f = ys.flatMap g := by
  induction h with
  | nil => rfl
  | cons hhead _ ih => rw [List.flatMap_cons, List.flatMap_cons, hhead, ih]

/-- Elements whose parts have the same lengths, one by one, contribute the same parts when the
wholes are the same. -/
theorem forall₂_of_flatMap_eq_flatMap {γ : Type} {R : α → γ → Prop} {g : γ → List β} {ys : List γ}
    (h : List.Forall₂ R xs ys) (hlength : ∀ x y, R x y → (f x).length = (g y).length)
    (heq : xs.flatMap f = ys.flatMap g) : List.Forall₂ (fun x y ↦ R x y ∧ f x = g y) xs ys := by
  induction h with
  | nil => exact .nil
  | cons hhead _ ih =>
    rw [List.flatMap_cons, List.flatMap_cons] at heq
    obtain ⟨hfirst, hrest⟩ := List.append_inj heq (hlength _ _ hhead)
    exact .cons ⟨hhead, hfirst⟩ (ih hrest)

end Stowage
