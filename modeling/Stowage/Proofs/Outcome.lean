import Stowage.Fault.Basic
import Mathlib.Data.List.Forall2

/-!
# Outcomes

An outcome is a result or a fault. A composed outcome is a result exactly when its parts are
(`bind_eq_ok`), and a list of outcomes is a list of results exactly when every one of them is
(`mapM_eq_ok_iff`); the same is said of results that may be missing (`mapM_eq_some_iff`,
`mapM_eq_none_iff`).

`NotMemory` says that an outcome is not a refusal by the memory of the heap; a composed outcome is
none when its parts are none. `OkOr` says that an outcome is a result with a property or else a
fault of one family, and `OkIff` that it is a result with a property when a condition holds and a
certain fault when it does not.
-/

set_option autoImplicit false

namespace Stowage.Outcome

variable {α β γ : Type}

theorem bind_eq_ok {x : Except Fault α} {f : α → Except Fault β} {b : β} :
    (x >>= f) = .ok b ↔ ∃ a, x = .ok a ∧ f a = .ok b := by
  rcases x with fault | a
  · constructor
    · exact fun h ↦ absurd h (by simp [bind, Except.bind])
    · rintro ⟨_, h, _⟩
      exact absurd h (by simp)
  · constructor
    · exact fun h ↦ ⟨a, rfl, h⟩
    · rintro ⟨_, h, hf⟩
      obtain rfl := Except.ok.inj h
      exact hf

@[simp] theorem ok_bind (a : α) (f : α → Except Fault β) :
    ((Except.ok a : Except Fault α) >>= f) = f a := rfl

@[simp] theorem error_bind (fault : Fault) (f : α → Except Fault β) :
    ((Except.error fault : Except Fault α) >>= f) = .error fault := rfl

theorem map_eq_ok {x : Except Fault α} {f : α → β} {b : β} :
    x.map f = .ok b ↔ ∃ a, x = .ok a ∧ f a = b := by
  rcases x with fault | a <;> simp [Except.map]

theorem toOption_eq_some {x : Except Fault α} {a : α} : x.toOption = some a ↔ x = .ok a := by
  rcases x with fault | b <;> simp [Except.toOption]

theorem mapM_cons_ok (f : α → Except Fault β) (a : α) (rest : List α) :
    (a :: rest).mapM f = (do
      let b ← f a
      let others ← rest.mapM f
      .ok (b :: others)) := List.mapM_cons

/-- Every element passes. -/
theorem forM_eq_ok_iff {f : α → Except Fault Unit} {as : List α} :
    as.forM f = .ok () ↔ ∀ a ∈ as, f a = .ok () := by
  induction as with
  | nil => exact ⟨fun _ _ h ↦ absurd h List.not_mem_nil, fun _ ↦ rfl⟩
  | cons a rest ih =>
    rw [List.forM, bind_eq_ok, List.forall_mem_cons, ← ih]
    exact ⟨fun ⟨_, ha, hrest⟩ ↦ ⟨ha, hrest⟩, fun ⟨ha, hrest⟩ ↦ ⟨(), ha, hrest⟩⟩

/-- Every element has a result. -/
theorem mapM_eq_ok_iff {f : α → Except Fault β} {as : List α} {bs : List β} :
    as.mapM f = .ok bs ↔ List.Forall₂ (fun a b ↦ f a = .ok b) as bs := by
  induction as generalizing bs with
  | nil =>
    rw [List.mapM_nil, List.forall₂_nil_left_iff]
    exact ⟨fun h ↦ (Except.ok.inj h).symm, fun h ↦ congrArg _ h.symm⟩
  | cons a rest ih =>
    rw [mapM_cons_ok, bind_eq_ok, List.forall₂_cons_left_iff]
    constructor
    · rintro ⟨b, hb, h⟩
      obtain ⟨others, hothers, h⟩ := bind_eq_ok.1 h
      exact ⟨b, others, hb, ih.1 hothers, (Except.ok.inj h).symm⟩
    · rintro ⟨b, others, hb, hothers, rfl⟩
      exact ⟨b, hb, bind_eq_ok.2 ⟨others, ih.2 hothers, rfl⟩⟩

theorem mapM_congr {f g : α → Except Fault β} {as : List α} (h : ∀ a ∈ as, f a = g a) :
    as.mapM f = as.mapM g := by
  induction as with
  | nil => rfl
  | cons a rest ih =>
    obtain ⟨ha, hrest⟩ := List.forall_mem_cons.1 h
    rw [mapM_cons_ok, mapM_cons_ok, ha, ih hrest]

/-- All elements have results together when each of them has one. -/
theorem exists_mapM_eq_ok_iff {f : α → Except Fault β} {as : List α} :
    (∃ bs, as.mapM f = .ok bs) ↔ ∀ a ∈ as, ∃ b, f a = .ok b := by
  induction as with
  | nil => exact ⟨fun _ _ h ↦ absurd h List.not_mem_nil, fun _ ↦ ⟨[], rfl⟩⟩
  | cons a rest ih =>
    rw [List.forall_mem_cons, ← ih]
    simp only [mapM_cons_ok, bind_eq_ok]
    constructor
    · rintro ⟨_, b, hb, others, hothers, _⟩
      exact ⟨⟨b, hb⟩, others, hothers⟩
    · rintro ⟨⟨b, hb⟩, others, hothers⟩
      exact ⟨b :: others, b, hb, others, hothers, rfl⟩

/-- The first element without a result decides the fault. -/
theorem mapM_eq_error_iff {f : α → Except Fault β} {as : List α} {fault : Fault} :
    as.mapM f = .error fault ↔ ∃ before a after, as = before ++ a :: after ∧
      (∀ b ∈ before, ∃ result, f b = .ok result) ∧ f a = .error fault := by
  induction as with
  | nil =>
    refine ⟨fun h ↦ absurd h (by simp [List.mapM_nil, pure, Except.pure]), ?_⟩
    rintro ⟨before, a, after, h, _⟩
    exact absurd h (by simp)
  | cons a rest ih =>
    rw [mapM_cons_ok]
    rcases ha : f a with first | result
    · rw [error_bind]
      constructor
      · exact fun h ↦ ⟨[], a, rest, rfl, fun _ hb ↦ absurd hb List.not_mem_nil,
          ha.trans (congrArg _ (Except.error.inj h))⟩
      · rintro ⟨before, b, after, hsplit, hbefore, hb⟩
        cases before with
        | nil =>
          obtain ⟨rfl, rfl⟩ := List.cons_eq_cons.1 hsplit
          exact congrArg _ (Except.error.inj (ha.symm.trans hb))
        | cons c before =>
          obtain ⟨rfl, _⟩ := List.cons_eq_cons.1 hsplit
          obtain ⟨result, hresult⟩ := hbefore a List.mem_cons_self
          exact absurd (ha.symm.trans hresult) (by simp)
    · rw [ok_bind]
      have hrest : (do
          let others ← rest.mapM f
          Except.ok (result :: others)) = .error fault ↔ rest.mapM f = .error fault := by
        rcases rest.mapM f with cause | others <;> simp
      rw [hrest, ih]
      constructor
      · rintro ⟨before, b, after, rfl, hbefore, hb⟩
        exact ⟨a :: before, b, after, rfl, List.forall_mem_cons.2 ⟨⟨result, ha⟩, hbefore⟩, hb⟩
      · rintro ⟨before, b, after, hsplit, hbefore, hb⟩
        cases before with
        | nil =>
          obtain ⟨rfl, rfl⟩ := List.cons_eq_cons.1 hsplit
          exact absurd (ha.symm.trans hb) (by simp)
        | cons c before =>
          obtain ⟨rfl, rfl⟩ := List.cons_eq_cons.1 hsplit
          exact ⟨before, b, after, rfl, (List.forall_mem_cons.1 hbefore).2, hb⟩

/-- Every element has a value. -/
theorem mapM_eq_some_iff {f : α → Option β} {as : List α} {bs : List β} :
    as.mapM f = some bs ↔ List.Forall₂ (fun a b ↦ f a = some b) as bs := by
  induction as generalizing bs with
  | nil =>
    rw [List.mapM_nil, List.forall₂_nil_left_iff]
    exact ⟨fun h ↦ (Option.some.inj h).symm, fun h ↦ congrArg _ h.symm⟩
  | cons a rest ih =>
    rw [List.mapM_cons, List.forall₂_cons_left_iff]
    simp only [Option.bind_eq_bind, Option.bind_eq_some_iff, ih]
    constructor
    · rintro ⟨b, hb, others, hothers, h⟩
      exact ⟨b, others, hb, hothers, (Option.some.inj h).symm⟩
    · rintro ⟨b, others, hb, hothers, rfl⟩
      exact ⟨b, hb, others, hothers, rfl⟩

/-- Some element has no value. -/
theorem mapM_eq_none_iff {f : α → Option β} {as : List α} :
    as.mapM f = none ↔ ∃ a ∈ as, f a = none := by
  induction as with
  | nil => simp
  | cons a rest ih =>
    rw [List.mapM_cons, List.exists_mem_cons_iff, ← ih]
    rcases f a with _ | b
    · simp
    · rcases rest.mapM f with _ | bs <;> simp

/-- Assumes: each element has a result that is related to what stands in its place. All elements
have results, related in order. -/
theorem exists_mapM {f : α → Except Fault β} {related : β → γ → Prop} {as : List α}
    {cs : List γ} (h : List.Forall₂ (fun a c ↦ ∃ b, f a = .ok b ∧ related b c) as cs) :
    ∃ bs, as.mapM f = .ok bs ∧ List.Forall₂ related bs cs := by
  induction h with
  | nil => exact ⟨[], rfl, .nil⟩
  | cons hhead _ ih =>
    obtain ⟨b, hb, hrelated⟩ := hhead
    obtain ⟨bs, hbs, hall⟩ := ih
    refine ⟨b :: bs, ?_, .cons hrelated hall⟩
    rw [mapM_cons_ok, hb, ok_bind, hbs, ok_bind]

theorem exists_mapM_iff {f : α → Except Fault β} {related : β → γ → Prop} {as : List α}
    {cs : List γ} :
    (∃ bs, as.mapM f = .ok bs ∧ List.Forall₂ related bs cs) ↔
      List.Forall₂ (fun a c ↦ ∃ b, f a = .ok b ∧ related b c) as cs := by
  refine ⟨?_, exists_mapM⟩
  rintro ⟨bs, hbs, hall⟩
  have hresults := mapM_eq_ok_iff.1 hbs
  clear hbs
  induction hresults generalizing cs with
  | nil =>
    obtain rfl := List.forall₂_nil_left_iff.1 hall
    exact .nil
  | cons hhead _ ih =>
    obtain ⟨c, others, hrelated, hothers, rfl⟩ := List.forall₂_cons_left_iff.1 hall
    exact .cons ⟨_, hhead, hrelated⟩ (ih hothers)

/-- All elements have results with a property when each of them has one. -/
theorem exists_mapM_of_forall {f : α → Except Fault β} {related : α → β → Prop} {as : List α}
    (h : ∀ a ∈ as, ∃ b, f a = .ok b ∧ related a b) :
    ∃ bs, as.mapM f = .ok bs ∧ List.Forall₂ related as bs := by
  obtain ⟨bs, hbs, hall⟩ := exists_mapM (List.forall₂_same.2 h)
  exact ⟨bs, hbs, hall.flip⟩

theorem exists_mem_of_forall₂ {related : α → β → Prop} {as : List α} {bs : List β}
    (h : List.Forall₂ related as bs) {b : β} (hb : b ∈ bs) : ∃ a ∈ as, related a b := by
  obtain ⟨i, hi, rfl⟩ := List.mem_iff_getElem.1 hb
  have hi' : i < as.length := h.length_eq ▸ hi
  exact ⟨as[i], List.getElem_mem hi', h.get hi' hi⟩

/-- A relation that comes down to a property of the first element holds all along related lists when
each of the first elements has the property. -/
theorem forall₂_iff_forall_mem {related wanted : α → β → Prop} {holds : α → Prop} {as : List α}
    {bs : List β} (h : List.Forall₂ related as bs)
    (hwanted : ∀ a ∈ as, ∀ b, related a b → (wanted a b ↔ holds a)) :
    List.Forall₂ wanted as bs ↔ ∀ a ∈ as, holds a := by
  induction h with
  | nil => exact iff_of_true .nil fun _ ha ↦ absurd ha List.not_mem_nil
  | cons hhead _ ih =>
    obtain ⟨hfirst, hrest⟩ := List.forall_mem_cons.1 hwanted
    rw [List.forall₂_cons, List.forall_mem_cons, hfirst _ hhead, ih hrest]

/-- Lists with equal images at each place have equal images. -/
theorem map_eq_map_of_forall₂ {f : α → γ} {g : β → γ} {as : List α} {bs : List β}
    (h : List.Forall₂ (fun a b ↦ f a = g b) as bs) : as.map f = bs.map g := by
  refine List.forall₂_eq_eq_eq ▸ ?_
  exact List.forall₂_map_left_iff.2 (List.forall₂_map_right_iff.2 h)

/-! ### Refusals by the memory -/

/-- The outcome is not a refusal by the memory. -/
def NotMemory (x : Except Fault α) : Prop := ∀ cause, x ≠ .error (.memory cause)

@[simp] theorem notMemory_ok (a : α) : NotMemory (.ok a) := fun _ ↦ by simp

@[simp] theorem notMemory_error_iff {fault : Fault} :
    NotMemory (.error fault : Except Fault α) ↔ ∀ cause, fault ≠ .memory cause := by
  simp [NotMemory]

namespace NotMemory

theorem bind {x : Except Fault α} {f : α → Except Fault β} (hx : NotMemory x)
    (hf : ∀ a, NotMemory (f a)) : NotMemory (x >>= f) := by
  rcases x with fault | a
  · exact notMemory_error_iff.2 (notMemory_error_iff.1 hx)
  · exact hf a

theorem map {x : Except Fault α} (hx : NotMemory x) (f : α → β) : NotMemory (x.map f) := by
  rcases x with fault | a
  · exact notMemory_error_iff.2 (notMemory_error_iff.1 hx)
  · exact notMemory_ok _

theorem mapM {f : α → Except Fault β} (hf : ∀ a, NotMemory (f a)) (as : List α) :
    NotMemory (as.mapM f) := by
  induction as with
  | nil => exact notMemory_ok _
  | cons a rest ih =>
    rw [mapM_cons_ok]
    exact (hf a).bind fun _ ↦ ih.bind fun _ ↦ notMemory_ok _

theorem forM {f : α → Except Fault Unit} (hf : ∀ a, NotMemory (f a)) (as : List α) :
    NotMemory (as.forM f) := by
  induction as with
  | nil => exact notMemory_ok _
  | cons a rest ih => exact (hf a).bind fun _ ↦ ih

end NotMemory

/-! ### Faults of one family -/

/-- The outcome is a result with a property, or a fault of a family. -/
def OkOr (family : Fault → Bool) (holds : α → Prop) : Except Fault α → Prop
  | .ok a => holds a
  | .error fault => family fault = true

namespace OkOr

variable {family wider : Fault → Bool} {holds kept : α → Prop} {x : Except Fault α}

theorem imp (hx : OkOr family holds x) (hfamily : ∀ fault, family fault = true → wider fault = true)
    (hholds : ∀ a, holds a → kept a) : OkOr wider kept x := by
  cases x with
  | error fault => exact hfamily fault hx
  | ok a => exact hholds a hx

theorem bind {f : α → Except Fault β} {given : β → Prop} (hx : OkOr family holds x)
    (hf : ∀ a, holds a → OkOr family given (f a)) : OkOr family given (x >>= f) := by
  cases x with
  | error fault => exact hx
  | ok a => exact hf a hx

theorem map (f : α → β) {given : β → Prop} (hx : OkOr family holds x)
    (hf : ∀ a, holds a → given (f a)) : OkOr family given (x.map f) := by
  cases x with
  | error fault => exact hx
  | ok a => exact hf a hx

/-- The results have the property at each place. -/
theorem mapM {f : α → Except Fault β} {related : α → β → Prop} {as : List α}
    (h : ∀ a ∈ as, OkOr family (related a) (f a)) :
    OkOr family (List.Forall₂ related as) (as.mapM f) := by
  induction as with
  | nil => exact .nil
  | cons a rest ih =>
    obtain ⟨ha, hrest⟩ := List.forall_mem_cons.1 h
    rw [mapM_cons_ok]
    exact ha.bind fun b hb ↦ (ih hrest).bind fun others hothers ↦ .cons hb hothers

/-- Every element passes, and its property holds. -/
theorem forM {f : α → Except Fault Unit} {as : List α}
    (h : ∀ a ∈ as, OkOr family (fun _ ↦ holds a) (f a)) :
    OkOr family (fun _ ↦ ∀ a ∈ as, holds a) (as.forM f) := by
  induction as with
  | nil => exact fun a ha ↦ absurd ha List.not_mem_nil
  | cons a rest ih =>
    obtain ⟨ha, hrest⟩ := List.forall_mem_cons.1 h
    exact ha.bind fun _ hfirst ↦ (ih hrest).imp (fun _ hfault ↦ hfault) fun _ hothers ↦
      List.forall_mem_cons.2 ⟨hfirst, hothers⟩

end OkOr

/-! ### Outcomes under a condition -/

/-- The outcome is a result with a property when the condition holds, and otherwise the fault. -/
structure OkIff (condition : Prop) (fault : Fault) (holds : α → Prop) (x : Except Fault α) :
    Prop where
  /-- A result where the condition holds. -/
  granted : condition → ∃ a, x = .ok a ∧ holds a
  /-- The fault where it does not. -/
  refused : ¬ condition → x = .error fault

namespace OkIff

variable {condition : Prop} {fault : Fault} {holds given : α → Prop} {x : Except Fault α}

/-- A result whose condition holds. -/
theorem of_ok {a : α} (hcondition : condition) (hx : x = .ok a) (ha : holds a) :
    OkIff condition fault holds x :=
  ⟨fun _ ↦ ⟨a, hx, ha⟩, fun hnot ↦ absurd hcondition hnot⟩

theorem imp (hx : OkIff condition fault holds x) (h : ∀ a, holds a → given a) :
    OkIff condition fault given x := by
  refine ⟨fun hcondition ↦ ?_, hx.refused⟩
  obtain ⟨a, hresult, ha⟩ := hx.granted hcondition
  exact ⟨a, hresult, h a ha⟩

/-- A result from which another one follows. -/
theorem bind {f : α → Except Fault β} {given : β → Prop} (hx : OkIff condition fault holds x)
    (hf : ∀ a, holds a → ∃ b, f a = .ok b ∧ given b) : OkIff condition fault given (x >>= f) := by
  refine ⟨fun hcondition ↦ ?_, fun hnot ↦ ?_⟩
  · obtain ⟨a, rfl, ha⟩ := hx.granted hcondition
    exact hf a ha
  · rw [hx.refused hnot, error_bind]

/-- All elements have results, related in order, when each of them meets the condition. -/
theorem mapM {f : α → Except Fault β} {condition : γ → Prop} {related : β → γ → Prop} {as : List α}
    {cs : List γ}
    (h : List.Forall₂ (fun a c ↦ OkIff (condition c) fault (related · c) (f a)) as cs) :
    OkIff (∀ c ∈ cs, condition c) fault (List.Forall₂ related · cs) (as.mapM f) := by
  induction h with
  | nil => exact .of_ok (fun _ hc ↦ absurd hc List.not_mem_nil) rfl .nil
  | @cons a c rest others hhead _ ih =>
    rw [mapM_cons_ok]
    refine ⟨fun hall ↦ ?_, fun hnot ↦ ?_⟩
    · obtain ⟨hfirst, hothers⟩ := List.forall_mem_cons.1 hall
      obtain ⟨b, hb, hrelated⟩ := hhead.granted hfirst
      obtain ⟨bs, hbs, hrest⟩ := ih.granted hothers
      exact ⟨b :: bs, by rw [hb, ok_bind, hbs, ok_bind], .cons hrelated hrest⟩
    · by_cases hfirst : condition c
      · obtain ⟨b, hb, _⟩ := hhead.granted hfirst
        have hothers : ¬ ∀ c ∈ others, condition c :=
          fun hothers ↦ hnot (List.forall_mem_cons.2 ⟨hfirst, hothers⟩)
        rw [hb, ok_bind, ih.refused hothers, error_bind]
      · rw [hhead.refused hfirst, error_bind]

end OkIff

end Stowage.Outcome
