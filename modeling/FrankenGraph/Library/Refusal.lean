import FrankenGraph.Library.Effect

/-!
# Requests that may be refused

Code that asks for resources and is granted or refused each of them. The answers are a parameter, so a
statement for every list of answers is a statement for every subset of refused requests.

Results:
* `Outcome.bind`, `Outcome.pure`, `Outcome.granted`, `Outcome.request`: a rule for each construct
* `Outcome.weaken`, `Outcome.anyError`: consequence
* `Outcome.translate`: the rule for code inside a larger object
* `Outcome.foldlM`: the rule for a loop
-/

namespace FrankenGraph

variable {ε ε' α β : Type}

/-- The answers to the requests to come; when they have run out, every request is granted. -/
abbrev Answers := List Bool

/-- Whether the next request is granted. -/
def granted : Effect ε Answers Bool :=
  ExceptT.mk fun answers =>
    match answers with
    | [] => (.ok true, [])
    | answer :: answers => (.ok answer, answers)

/-- A request whose refusal is the error `e`. -/
def request (e : ε) : Effect ε Answers Unit := do
  if ← granted then pure () else throw e

/-- Code with its results and errors translated. -/
def Effect.translate (result : α → β) (error : ε → ε') (code : Effect ε Answers α) :
    Effect ε' Answers β :=
  ExceptT.mk fun answers =>
    match code.exec answers with
    | (.ok a, rest) => (.ok (result a), rest)
    | (.error e, rest) => (.error (error e), rest)

/-- Whatever is refused, the code returns into `Q`, or it fails into `E` because a request was
refused. -/
def Outcome (code : Effect ε Answers α) (Q : α → Prop) (E : ε → Prop) : Prop :=
  ∀ answers, match code.exec answers with
    | (.ok a, rest) => Q a ∧ rest ⊆ answers
    | (.error e, _) => E e ∧ false ∈ answers

namespace Outcome

variable {Q : α → Prop} {E : ε → Prop}

theorem pure {a : α} (h : Q a) : Outcome (pure a : Effect ε Answers α) Q E :=
  fun answers => ⟨h, List.Subset.refl answers⟩

theorem bind {R : β → Prop} {first : Effect ε Answers β} {next : β → Effect ε Answers α}
    (hfirst : Outcome first R E) (hnext : ∀ b, R b → Outcome (next b) Q E) :
    Outcome (first >>= next) Q E := by
  intro answers
  have hf := hfirst answers
  have hstep : (first >>= next).exec answers =
      match first.exec answers with
      | (.ok b, rest) => (next b).exec rest
      | (.error e, rest) => (.error e, rest) := by
    simp only [Effect.exec, ExceptT.run_bind, StateT.run_bind]
    cases h : StateT.run (ExceptT.run first) answers with
    | mk result rest => cases result <;> rfl
  rw [hstep]
  cases h : first.exec answers with
  | mk result rest =>
    rw [h] at hf
    cases result with
    | error e => exact hf
    | ok b =>
      obtain ⟨hb, hsub⟩ := hf
      have hn := hnext b hb rest
      cases h' : (next b).exec rest with
      | mk result' rest' =>
        rw [h'] at hn
        simp only [h']
        cases result' with
        | ok a => exact ⟨hn.1, List.Subset.trans hn.2 hsub⟩
        | error e => exact ⟨hn.1, hsub hn.2⟩

theorem weaken {Q' : α → Prop} {E' : ε → Prop} {code : Effect ε Answers α}
    (h : Outcome code Q E) (hQ : ∀ a, Q a → Q' a) (hE : ∀ e, E e → E' e) : Outcome code Q' E' := by
  intro answers
  have hcode := h answers
  cases hrun : code.exec answers with
  | mk result rest =>
    rw [hrun] at hcode
    cases result with
    | ok a => exact ⟨hQ a hcode.1, hcode.2⟩
    | error e => exact ⟨hE e hcode.1, hcode.2⟩

/-- An outcome, whatever the error. -/
theorem anyError {code : Effect ε Answers α} (h : Outcome code Q E) :
    Outcome code Q fun _ => True :=
  h.weaken (fun _ h => h) fun _ _ => trivial

theorem granted : Outcome (granted : Effect ε Answers Bool) (fun _ => True) E := by
  intro answers
  cases answers with
  | nil => exact ⟨trivial, List.Subset.refl _⟩
  | cons answer answers => exact ⟨trivial, List.subset_cons_self _ _⟩

theorem request {e : ε} (h : E e) : Outcome (request e) (fun _ => True) E := by
  intro answers
  cases answers with
  | nil => exact ⟨trivial, List.Subset.refl _⟩
  | cons answer answers =>
    cases answer with
    | true => exact ⟨trivial, List.subset_cons_self _ _⟩
    | false => exact ⟨h, List.mem_cons_self⟩

theorem translate {Q : β → Prop} {E : ε' → Prop} {result : α → β} {error : ε → ε'}
    {code : Effect ε Answers α}
    (h : Outcome code (fun a => Q (result a)) (fun e => E (error e))) :
    Outcome (code.translate result error) Q E := by
  intro answers
  have hcode := h answers
  have hstep : (code.translate result error).exec answers =
      match code.exec answers with
      | (.ok a, rest) => (.ok (result a), rest)
      | (.error e, rest) => (.error (error e), rest) := rfl
  rw [hstep]
  cases hrun : code.exec answers with
  | mk outcome rest =>
    rw [hrun] at hcode
    cases outcome with
    | ok a => exact hcode
    | error e => exact hcode

/-- A loop whose rounds each compute one step. -/
theorem foldlM {γ : Type} {body : α → γ → Effect ε Answers α} {step : α → γ → α}
    (hbody : ∀ a x, Outcome (body a x) (· = step a x) E) (l : List γ) (a : α) :
    Outcome (l.foldlM body a) (· = l.foldl step a) E := by
  induction l generalizing a with
  | nil => exact pure rfl
  | cons x l ih =>
    rw [List.foldlM_cons]
    refine bind (hbody a x) fun b hb => ?_
    rw [hb]
    exact ih (step a x)

end Outcome

end FrankenGraph
