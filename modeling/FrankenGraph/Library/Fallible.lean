import Mathlib

/-!
# Fallible code

Guards that return early, and how a sequence of fallible steps succeeds or fails.
-/

namespace FrankenGraph

variable {ε α β : Type}

/-- Return `error` when the condition holds. -/
def refuse (condition : Bool) (error : ε) : Except ε Unit :=
  if condition then .error error else .ok ()

variable {condition : Bool} {error : ε} {u : Unit}

@[simp]
theorem refuse_eq_ok : refuse condition error = .ok u ↔ condition = false := by
  cases condition <;> simp [refuse]

@[simp]
theorem refuse_eq_error {error' : ε} :
    refuse condition error = .error error' ↔ condition = true ∧ error = error' := by
  cases condition <;> simp [refuse]

variable {x : Except ε α} {f : α → Except ε β}

theorem bind_eq_ok {b : β} : (x >>= f) = .ok b ↔ ∃ a, x = .ok a ∧ f a = .ok b := by
  cases x with
  | error e => simp [bind, Except.bind]
  | ok a => simp [bind, Except.bind]

variable {a : α}

theorem ok_bind : (.ok a >>= f) = f a :=
  rfl

/-- A guard in front of more code. -/
theorem refuse_bind_eq_ok {f : Unit → Except ε β} {b : β} :
    (refuse condition error >>= f) = .ok b ↔ condition = false ∧ f () = .ok b := by
  rw [bind_eq_ok]
  constructor
  · rintro ⟨_, h, hf⟩
    exact ⟨refuse_eq_ok.mp h, hf⟩
  · rintro ⟨h, hf⟩
    exact ⟨(), refuse_eq_ok.mpr h, hf⟩

theorem bind_eq_error {e : ε} :
    (x >>= f) = .error e ↔ x = .error e ∨ ∃ a, x = .ok a ∧ f a = .error e := by
  cases x with
  | error e => simp [bind, Except.bind]
  | ok a => simp [bind, Except.bind]

/-- Translating errors changes no success. -/
theorem mapError_ok_iff {ε' : Type} {translate : ε → ε'} :
    x.mapError translate = .ok a ↔ x = .ok a := by
  cases x with
  | error e => simp [Except.mapError]
  | ok a => simp [Except.mapError]

variable {l : List α}

/-- A list of checks succeeds if each of them does. -/
theorem forM_eq_ok {check : α → Except ε Unit} :
    l.forM check = .ok u ↔ ∀ a ∈ l, check a = .ok () := by
  induction l with
  | nil => simp [List.forM_nil, pure, Except.pure]
  | cons a l ih =>
    rw [show (a :: l).forM check = (check a >>= fun _ => l.forM check) from rfl, bind_eq_ok,
      List.forall_mem_cons]
    constructor
    · rintro ⟨_, ha, hl⟩
      exact ⟨ha, ih.mp hl⟩
    · rintro ⟨ha, hl⟩
      exact ⟨(), ha, ih.mpr hl⟩

/-- What every round of a fallible loop keeps holds at its end. It may speak of the elements to
come. -/
theorem foldlM_keeps {body : β → α → Except ε β} (I : List α → β → Prop)
    (hstep : ∀ a l b b', I (a :: l) b → body b a = .ok b' → I l b') {b b' : β} (h : I l b)
    (hok : l.foldlM body b = .ok b') : I [] b' := by
  induction l generalizing b with
  | nil =>
    cases hok
    exact h
  | cons a l ih =>
    rw [List.foldlM_cons] at hok
    obtain ⟨next, hnext, hrest⟩ := bind_eq_ok.mp hok
    exact ih (hstep a l b next h hnext) hrest

/-- Mapping a fallible function over a list succeeds element by element. -/
theorem mapM_eq_ok {results : List β} :
    l.mapM f = .ok results ↔ List.Forall₂ (fun a b => f a = .ok b) l results := by
  induction l generalizing results with
  | nil =>
    rw [List.mapM_nil, List.forall₂_nil_left_iff]
    exact ⟨fun h => (Except.ok.inj h).symm, fun h => h ▸ rfl⟩
  | cons a l ih =>
    rw [List.mapM_cons, List.forall₂_cons_left_iff, bind_eq_ok]
    constructor
    · rintro ⟨b, hb, hrest⟩
      obtain ⟨bs, hbs, hresults⟩ := bind_eq_ok.mp hrest
      exact ⟨b, bs, hb, ih.mp hbs, (Except.ok.inj hresults).symm⟩
    · rintro ⟨b, bs, hb, hbs, rfl⟩
      exact ⟨b, hb, bind_eq_ok.mpr ⟨bs, ih.mpr hbs, rfl⟩⟩

/-- The partner of an element of the left list. -/
theorem exists_of_forall₂ {R : α → β → Prop} {l' : List β} (h : List.Forall₂ R l l')
    (ha : a ∈ l) : ∃ b ∈ l', R a b := by
  induction h with
  | nil => exact absurd ha List.not_mem_nil
  | @cons c d l l' hcd _ ih =>
    rcases List.mem_cons.mp ha with rfl | ha
    · exact ⟨d, List.mem_cons_self, hcd⟩
    · obtain ⟨b, hb, hab⟩ := ih ha
      exact ⟨b, List.mem_cons_of_mem d hb, hab⟩

theorem map_eq_map_of_forall₂ {γ : Type} {f : α → γ} {g : β → γ} {l' : List β}
    (h : List.Forall₂ (fun a b => f a = g b) l l') : l.map f = l'.map g := by
  induction h with
  | nil => rfl
  | cons hab _ ih => rw [List.map_cons, List.map_cons, hab, ih]

/-! ## Two runs with one outcome -/

/-- Both fail with the same error, or both succeed with related results. -/
def SameOutcome (R : α → β → Prop) : Except ε α → Except ε β → Prop
  | .ok a, .ok b => R a b
  | .error e, .error e' => e = e'
  | _, _ => False

namespace SameOutcome

variable {γ δ : Type}

theorem refl {R : α → α → Prop} (hR : ∀ a, R a a) (x : Except ε α) : SameOutcome R x x := by
  cases x with
  | error e => exact rfl
  | ok a => exact hR a

variable {R : α → β → Prop} {x : Except ε α} {y : Except ε β}

theorem mono {S : α → β → Prop} (h : SameOutcome R x y)
    (hRS : ∀ a b, R a b → S a b) : SameOutcome S x y := by
  cases x with
  | error e => cases y <;> exact h
  | ok a =>
    cases y with
    | error e' => exact h.elim
    | ok b => exact hRS a b h

theorem isError_iff (h : SameOutcome R x y) : (∃ e, x = .error e) ↔ ∃ e, y = .error e := by
  cases x with
  | error e =>
    cases y with
    | error e' => exact ⟨fun _ => ⟨e', rfl⟩, fun _ => ⟨e, rfl⟩⟩
    | ok b => exact h.elim
  | ok a =>
    cases y with
    | error e' => exact h.elim
    | ok b => simp

theorem bind {S : γ → δ → Prop} {f : α → Except ε γ} {g : β → Except ε δ} (h : SameOutcome R x y)
    (hnext : ∀ a b, R a b → SameOutcome S (f a) (g b)) : SameOutcome S (x >>= f) (y >>= g) := by
  cases x with
  | error e =>
    cases y with
    | error e' => exact h
    | ok b => exact h.elim
  | ok a =>
    cases y with
    | error e' => exact h.elim
    | ok b => exact hnext a b h

theorem mapError {ε' : Type} (h : SameOutcome R x y) (translate : ε → ε') :
    SameOutcome R (x.mapError translate) (y.mapError translate) := by
  cases x with
  | error e =>
    cases y with
    | error e' => exact congrArg translate h
    | ok b => exact h.elim
  | ok a =>
    cases y with
    | error e' => exact h.elim
    | ok b => exact h

end SameOutcome

end FrankenGraph
