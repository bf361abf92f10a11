import Mathlib

/-!
# Code that fails part-way

Code that changes a state and can fail, keeping the changes it made before it failed, with pre- and
postconditions for it. A failure has a postcondition of its own: the state it leaves behind is the
state the next call starts from.

Results:
* `Triple.bind`, `Triple.pure`, `Triple.throw`, `Triple.lift`, `Triple.modify`, `Triple.get_bind`,
  `Triple.ite`: a rule for each construct
* `Triple.weaken`: consequence
* `Triple.bind_get`, `Triple.bind_lift`, `Triple.bind_stopIf`, `Triple.bind_modify`: the next step of
  code that starts from one known state
-/

namespace FrankenGraph

variable {ε σ α β : Type}

/-- Code over a state `σ` that returns an `α` or fails with an `ε`. -/
abbrev Effect (ε σ α : Type) := ExceptT ε (StateM σ) α

/-- The result and the state it leaves. -/
def Effect.exec (code : Effect ε σ α) (s : σ) : Except ε α × σ := code.run.run s

theorem Effect.exec_get_bind {next : σ → Effect ε σ α} {s : σ} :
    (MonadState.get >>= next).exec s = (next s).exec s := rfl

/-- From a state in `P`, the code returns into `Q` or fails into `E`. -/
def Triple (P : σ → Prop) (code : Effect ε σ α) (Q : α → σ → Prop) (E : σ → Prop) : Prop :=
  ∀ s, P s → match code.exec s with
    | (.ok a, s') => Q a s'
    | (.error _, s') => E s'

/-- Stop with an error when a condition holds. -/
def stopIf (condition : Bool) (error : ε) : Effect ε σ Unit :=
  if condition then throw error else pure ()

/-- Fallible code that does not touch the state. -/
def Effect.lift (x : Except ε α) : Effect ε σ α := ExceptT.mk (pure x)

namespace Triple

variable {P : σ → Prop} {Q : α → σ → Prop} {E : σ → Prop}

theorem pure {a : α} (h : ∀ s, P s → Q a s) : Triple P (pure a : Effect ε σ α) Q E :=
  fun s hs => h s hs

theorem throw {e : ε} (h : ∀ s, P s → E s) : Triple P (throw e : Effect ε σ α) Q E :=
  fun s hs => h s hs

theorem lift {x : Except ε α} (h : ∀ a, x = .ok a → ∀ s, P s → Q a s) (hE : ∀ s, P s → E s) :
    Triple P (Effect.lift x : Effect ε σ α) Q E := by
  intro s hs
  cases x with
  | error e => exact hE s hs
  | ok a => exact h a rfl s hs

theorem modify {f : σ → σ} {Q : Unit → σ → Prop} (h : ∀ s, P s → Q () (f s)) :
    Triple P (modify f : Effect ε σ Unit) Q E :=
  fun s hs => h s hs

theorem bind {R : β → σ → Prop} {first : Effect ε σ β} {next : β → Effect ε σ α}
    (hfirst : Triple P first R E) (hnext : ∀ b, Triple (R b) (next b) Q E) :
    Triple P (first >>= next) Q E := by
  intro s hs
  have hrun := hfirst s hs
  rw [show (first >>= next).exec s =
    ExceptT.bindCont next (first.exec s).1 (first.exec s).2 from rfl]
  rcases hresult : first.exec s with ⟨result, s'⟩
  rw [hresult] at hrun
  cases result with
  | error e => exact hrun
  | ok b => exact hnext b s' hrun

/-- The code goes on from the state that it reads. -/
theorem get_bind {next : σ → Effect ε σ α} (h : ∀ s₀, Triple (fun s => s₀ = s ∧ P s) (next s₀) Q E) :
    Triple P (MonadState.get >>= next) Q E :=
  fun s hs => h s s ⟨rfl, hs⟩

theorem ite {c : Bool} {code code' : Effect ε σ α} (hpos : c = true → Triple P code Q E)
    (hneg : c = false → Triple P code' Q E) : Triple P (if c then code else code') Q E := by
  cases c with
  | true => exact hpos rfl
  | false => exact hneg rfl

theorem weaken {P' : σ → Prop} {Q' : α → σ → Prop} {E' : σ → Prop} {code : Effect ε σ α}
    (h : Triple P' code Q' E') (hP : ∀ s, P s → P' s) (hQ : ∀ a s, Q' a s → Q a s)
    (hE : ∀ s, E' s → E s) : Triple P code Q E := by
  intro s hs
  have hrun := h s (hP s hs)
  rcases hresult : code.exec s with ⟨result, s'⟩
  rw [hresult] at hrun
  cases result with
  | error e => exact hE s' hrun
  | ok a => exact hQ a s' hrun

/-- Stopping where the code may stop. -/
theorem stopIf {c : Bool} {e : ε} (h : ∀ s, P s → E s) :
    Triple P (stopIf c e : Effect ε σ Unit) (fun _ => P) E := by
  refine ite (fun _ => throw h) (fun _ => pure fun s hs => hs)

/-! ## Running from one state -/

section OneState

variable {s₀ : σ}

theorem bind_get {next : σ → Effect ε σ α} (h : Triple (· = s₀) (next s₀) Q E) :
    Triple (· = s₀) (MonadState.get >>= next) Q E := by
  rintro s rfl
  exact h s rfl

theorem bind_lift {x : Except ε β} {next : β → Effect ε σ α}
    (h : ∀ b, x = .ok b → Triple (· = s₀) (next b) Q E) (hE : E s₀) :
    Triple (· = s₀) (Effect.lift x >>= next) Q E := by
  rintro s rfl
  cases x with
  | error e => exact hE
  | ok b => exact h b rfl s rfl

theorem bind_stopIf {c : Bool} {e : ε} {next : Unit → Effect ε σ α}
    (h : c = false → Triple (· = s₀) (next ()) Q E) (hE : E s₀) :
    Triple (· = s₀) (FrankenGraph.stopIf c e >>= next) Q E := by
  rintro s rfl
  cases c with
  | true => exact hE
  | false => exact h rfl s rfl

theorem bind_modify {f : σ → σ} {next : Unit → Effect ε σ α} (h : Triple (· = f s₀) (next ()) Q E) :
    Triple (· = s₀) (modifyThe σ f >>= next) Q E := by
  rintro s rfl
  exact h (f s) rfl

end OneState

end Triple

end FrankenGraph
