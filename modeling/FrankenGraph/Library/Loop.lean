import FrankenGraph.Library.Fallible

/-!
# Loops that stop

A loop over a list that is left when an element is refused, and a loop that runs as long as its step
finds something to do. The second takes the number of rounds it may run; a measure that every round
decreases says how many are enough.

Results:
* `holds_foldl`: what holds after a loop whose rounds only add
* `foldlM_guard`, `foldlM_guarded`: a guarded loop fails when an element is refused, and otherwise is
  the plain loop
* `iterate_spec`, `iterateM_spec`: with enough rounds the loop ends where its step finds nothing to
  do, and keeps the invariants of a round
-/

namespace FrankenGraph

variable {α ε σ : Type}

/-- A property that each round of a loop can only add. -/
theorem holds_foldl (holds : σ → Prop) {step : σ → α → σ} {adds : α → Prop}
    (hstep : ∀ s a, holds (step s a) ↔ holds s ∨ adds a) (l : List α) (s : σ) :
    holds (l.foldl step s) ↔ holds s ∨ ∃ a ∈ l, adds a := by
  induction l generalizing s with
  | nil => simp
  | cons a l ih =>
    rw [List.foldl_cons, ih, hstep, or_assoc]
    simp only [List.mem_cons, exists_eq_or_imp]

/-- A loop whose body only refuses elements is the plain loop when none is refused. -/
theorem foldlM_guard (refused : α → Prop) [DecidablePred refused] (error : ε) (step : σ → α → σ)
    (l : List α) (s : σ) :
    (l.foldlM (fun s a => if refused a then Except.error error else .ok (step s a)) s) =
      if ∃ a ∈ l, refused a then Except.error error else .ok (l.foldl step s) := by
  induction l generalizing s with
  | nil => simp; rfl
  | cons a l ih =>
    rw [List.foldlM_cons]
    by_cases ha : refused a
    · rw [if_pos ha, if_pos ⟨a, List.mem_cons_self, ha⟩]
      rfl
    · rw [if_neg ha]
      change List.foldlM _ (step s a) l = _
      rw [ih, List.foldl_cons]
      simp only [List.mem_cons, exists_eq_or_imp, ha, false_or]

/-- A round that an element may refuse with an error of its own. -/
def guarded (check : α → Option ε) (step : σ → α → σ) (s : σ) (a : α) : Except ε σ :=
  match check a with
  | some error => .error error
  | none => .ok (step s a)

/-- A guarded loop ends with the error of the first element that refuses. -/
theorem foldlM_guarded (check : α → Option ε) (step : σ → α → σ) (l : List α) (s : σ) :
    l.foldlM (guarded check step) s = match l.findSome? check with
      | some error => .error error
      | none => .ok (l.foldl step s) := by
  induction l generalizing s with
  | nil => rfl
  | cons a l ih =>
    rw [List.foldlM_cons, List.findSome?_cons, guarded]
    cases check a with
    | some error => rfl
    | none => exact ih (step s a)

/-- Run a step until it finds nothing to do, for at most the given number of rounds. -/
def iterate (step : σ → Option σ) : Nat → σ → σ
  | 0, s => s
  | rounds + 1, s =>
    match step s with
    | none => s
    | some s' => iterate step rounds s'

variable {s : σ} {rounds : Nat}

theorem iterate_of_none {step : σ → Option σ} (h : step s = none) : iterate step rounds s = s := by
  cases rounds with
  | zero => rfl
  | succ rounds => rw [iterate, h]

/-- A loop whose rounds keep an invariant and decrease a measure ends where there is nothing left to
do. -/
theorem iterate_spec {step : σ → Option σ} {inv : σ → Prop} (measure : σ → Nat)
    (hstep : ∀ s s', inv s → step s = some s' → inv s' ∧ measure s' < measure s) (hinv : inv s)
    (hrounds : measure s ≤ rounds) :
    inv (iterate step rounds s) ∧ step (iterate step rounds s) = none := by
  induction rounds generalizing s with
  | zero =>
    refine ⟨hinv, ?_⟩
    cases hnext : step s with
    | none => exact hnext
    | some s' =>
      have hlt := (hstep s s' hinv hnext).2
      omega
  | succ rounds ih =>
    rw [iterate]
    cases hnext : step s with
    | none => exact ⟨hinv, hnext⟩
    | some s' =>
      obtain ⟨hinv', hlt⟩ := hstep s s' hinv hnext
      exact ih hinv' (by omega)

/-- Run a step that may fail until it finds nothing to do. -/
def iterateM (step : σ → Option (Except ε σ)) : Nat → σ → Except ε σ
  | 0, s => .ok s
  | rounds + 1, s =>
    match step s with
    | none => .ok s
    | some next => next >>= iterateM step rounds

/-- Such a loop ends without an error when no round fails from a state of the invariant. -/
theorem iterateM_spec {step : σ → Option (Except ε σ)} {inv : σ → Prop} (measure : σ → Nat)
    (hstep : ∀ s next, inv s → step s = some next →
      ∃ s', next = .ok s' ∧ inv s' ∧ measure s' < measure s) (hinv : inv s)
    (hrounds : measure s ≤ rounds) :
    ∃ s', iterateM step rounds s = .ok s' ∧ inv s' ∧ step s' = none := by
  induction rounds generalizing s with
  | zero =>
    refine ⟨s, rfl, hinv, ?_⟩
    cases hnext : step s with
    | none => rfl
    | some next =>
      obtain ⟨s', -, -, hlt⟩ := hstep s next hinv hnext
      omega
  | succ rounds ih =>
    rw [iterateM]
    cases hnext : step s with
    | none => exact ⟨s, rfl, hinv, hnext⟩
    | some next =>
      obtain ⟨s', rfl, hinv', hlt⟩ := hstep s next hinv hnext
      exact ih hinv' (by omega)

end FrankenGraph
