import FrankenGraph.Library.Refusal
import FrankenGraph.Library.Loop

/-!
# Calls that prepare, and commit or drop

A call prepares an update of a state that it borrows, and the update is then committed or dropped.
Preparing makes requests that may be refused, and it may have errors of its own. With everything
granted it is a pure function; a refusal can only end it earlier.

Results:
* `Follows.pure`, `Follows.throw`, `Follows.settling`, `Follows.bind`, `Follows.asking_bind`: a rule
  for each construct
* `Follows.foldlM`, `rounds_follows`: the rules for loops
* `Call.run_transacts`: a call does what the pure function says, or leaves the state as it was
-/

namespace FrankenGraph

variable {ρ ε α β γ σ ι υ ο : Type}

/-- What ends a call: a refused request, or an error of its own. -/
inductive CallError (ρ ε : Type) where
  | refused (request : ρ)
  | own (error : ε)
  deriving DecidableEq, Repr

theorem exec_translate {ε' : Type} (error : ε → ε') (code : Effect ε Answers α) (answers : Answers) :
    (code.translate id error).exec answers = match code.exec answers with
      | (.ok a, rest) => (.ok a, rest)
      | (.error e, rest) => (.error (error e), rest) :=
  rfl

/-- The requests of a part without errors of its own. -/
def asking (code : Effect ρ Answers α) : Effect (CallError ρ ε) Answers α :=
  code.translate id .refused

/-- A part without requests. -/
def settling (own : Except ε α) : Effect (CallError ρ ε) Answers α :=
  match own with
  | .ok a => pure a
  | .error error => throw (.own error)

/-- A loop whose rounds make requests before and after they check their element. -/
def rounds (before after : Effect ρ Answers Unit) (check : γ → Option ε) (step : α → γ → α)
    (l : List γ) (a : α) : Effect (CallError ρ ε) Answers α :=
  l.foldlM (fun a x => do
    asking before
    match check x with
    | some error => throw (.own error)
    | none =>
      asking after
      return step a x) a

/-- Whatever is refused, the code ends as the pure code does, or at a refused request. -/
def Follows (code : Effect (CallError ρ ε) Answers α) (own : Except ε α) : Prop :=
  ∀ answers, match code.exec answers with
    | (.ok a, rest) => own = .ok a ∧ rest ⊆ answers
    | (.error (.own e), _) => own = .error e
    | (.error (.refused _), _) => false ∈ answers

namespace Follows

theorem pure {a : α} : Follows (pure a : Effect (CallError ρ ε) Answers α) (.ok a) :=
  fun answers => ⟨rfl, List.Subset.refl answers⟩

theorem throw {e : ε} : Follows (throw (.own e) : Effect (CallError ρ ε) Answers α) (.error e) :=
  fun _ => rfl

theorem settling (own : Except ε α) :
    Follows (settling own : Effect (CallError ρ ε) Answers α) own := by
  cases own with
  | ok a => exact pure
  | error e => exact throw

theorem bind {first : Effect (CallError ρ ε) Answers β} {own : Except ε β}
    {next : β → Effect (CallError ρ ε) Answers α} {ownNext : β → Except ε α}
    (hfirst : Follows first own) (hnext : ∀ b, own = .ok b → Follows (next b) (ownNext b)) :
    Follows (first >>= next) (own >>= ownNext) := by
  intro answers
  have hf := hfirst answers
  rw [show (first >>= next).exec answers =
    ExceptT.bindCont next (first.exec answers).1 (first.exec answers).2 from rfl]
  rcases hexec : first.exec answers with ⟨(e | e) | b, rest⟩
  · rw [hexec] at hf
    exact hf
  · rw [hexec] at hf
    cases hf
    rfl
  · rw [hexec] at hf
    obtain ⟨rfl, hsub⟩ := hf
    have hn := hnext b rfl rest
    change match (next b).exec rest with
      | (.ok a, rest) => ownNext b = .ok a ∧ rest ⊆ answers
      | (.error (.own e), _) => ownNext b = .error e
      | (.error (.refused _), _) => false ∈ answers
    rcases hexec' : (next b).exec rest with ⟨(e | e) | a, rest'⟩
    · rw [hexec'] at hn
      exact hsub hn
    · rw [hexec'] at hn
      exact hn
    · rw [hexec'] at hn
      exact ⟨hn.1, List.Subset.trans hn.2 hsub⟩

theorem asking {code : Effect ρ Answers α} {a : α} {E : ρ → Prop} (h : Outcome code (· = a) E) :
    Follows (asking code : Effect (CallError ρ ε) Answers α) (.ok a) := by
  intro answers
  have hcode := h answers
  rw [FrankenGraph.asking, exec_translate]
  rcases hexec : code.exec answers with ⟨e | b, rest⟩
  · rw [hexec] at hcode
    exact hcode.2
  · rw [hexec] at hcode
    exact ⟨congrArg Except.ok hcode.1.symm, hcode.2⟩

/-- The code goes on with the value that the requests give. -/
theorem asking_bind {code : Effect ρ Answers β} {b : β} {E : ρ → Prop}
    {next : β → Effect (CallError ρ ε) Answers α} {own : Except ε α}
    (h : Outcome code (· = b) E) (hnext : Follows (next b) own) :
    Follows (FrankenGraph.asking code >>= next) own := by
  have hcode : Follows (FrankenGraph.asking code >>= next) (Except.ok b >>= fun _ => own) := by
    refine (asking h).bind fun b' hb' => ?_
    cases hb'
    exact hnext
  exact hcode

theorem foldlM {body : α → γ → Effect (CallError ρ ε) Answers α} {own : α → γ → Except ε α}
    (hbody : ∀ a x, Follows (body a x) (own a x)) (l : List γ) (a : α) :
    Follows (l.foldlM body a) (l.foldlM own a) := by
  induction l generalizing a with
  | nil => exact pure
  | cons x l ih =>
    rw [List.foldlM_cons, List.foldlM_cons]
    exact (hbody a x).bind fun a' _ => ih a'

end Follows

theorem rounds_follows {before after : Effect ρ Answers Unit} {E : ρ → Prop}
    (hbefore : Outcome before (· = ()) E) (hafter : Outcome after (· = ()) E)
    (check : γ → Option ε) (step : α → γ → α) (l : List γ) (a : α) :
    Follows (rounds before after check step l a) (l.foldlM (guarded check step) a) := by
  refine Follows.foldlM (fun a x => .asking_bind hbefore ?_) l a
  unfold guarded
  cases check x with
  | some error => exact .throw
  | none => exact .asking_bind hafter .pure

/-! ## Calls -/

/-- Code that borrows a state: an error gives the state back. -/
def held (s : σ) (code : Effect (CallError ρ ε) Answers υ) : Effect (CallError ρ ε × σ) Answers υ :=
  code.translate id (·, s)

/-- A call with the answers to its requests; what it prepares is committed or dropped. -/
structure Call (ι : Type) where
  input : ι
  answers : Answers
  commits : Bool

/-- How a call ends. -/
inductive Ended (δ ο : Type) where
  | committed (output : ο)
  | dropped
  | failed (error : δ)
  deriving DecidableEq, Repr

/-- The end of a call, and the state after it. -/
def Call.run (prepare : σ → ι → Effect (CallError ρ ε) Answers υ) (commit : σ → υ → σ × ο)
    (call : Call ι) (s : σ) : Ended (CallError ρ ε) ο × σ :=
  match ((held s (prepare s call.input)).exec call.answers).1 with
  | .error (error, s') => (.failed error, s')
  | .ok update =>
    if call.commits then
      let (s', output) := commit s update
      (.committed output, s')
    else (.dropped, s)

/-- What a call may do, for the pure function `own` of its input: it commits what that prepares, or
the state is as it was; it fails with the error of `own`, or because a request was refused; and with
every request granted it ends as `own` says. -/
structure Transacts (own : Except ε υ) (commit : υ → σ × ο) (call : Call ι) (s : σ)
    (ended : Ended (CallError ρ ε) ο × σ) : Prop where
  committed : ∀ output, ended.1 = .committed output →
    ∃ update, own = .ok update ∧ ended.2 = (commit update).1 ∧ output = (commit update).2
  unchanged : (∀ output, ended.1 ≠ .committed output) → ended.2 = s
  own_error : ∀ error, ended.1 = .failed (.own error) → own = .error error
  refused : ∀ request, ended.1 = .failed (.refused request) → false ∈ call.answers
  granted_error : false ∉ call.answers → ∀ error, own = .error error → ended.1 = .failed (.own error)
  granted_ok : false ∉ call.answers → ∀ update, own = .ok update →
    ended.1 = if call.commits then .committed (commit update).2 else .dropped

namespace Transacts

variable {own : Except ε υ} {commit : υ → σ × ο} {call : Call ι} {s : σ}
  {ended : Ended (CallError ρ ε) ο × σ}

/-- With every request granted, an error is reported exactly when it is the error of `own`. -/
theorem failed_iff (h : Transacts own commit call s ended) (hgranted : false ∉ call.answers)
    (error : ε) : ended.1 = .failed (.own error) ↔ own = .error error :=
  ⟨h.own_error error, h.granted_error hgranted error⟩

/-- With every request granted, a call is accepted exactly when `own` accepts its input. -/
theorem accepted_iff (h : Transacts own commit call s ended) (hgranted : false ∉ call.answers) :
    (∀ error, ended.1 ≠ .failed error) ↔ ∃ update, own = .ok update := by
  cases hown : own with
  | error error => simp [h.granted_error hgranted error hown]
  | ok update =>
    rw [h.granted_ok hgranted update hown]
    cases call.commits <;> simp

end Transacts

theorem Call.run_transacts {prepare : σ → ι → Effect (CallError ρ ε) Answers υ}
    {commit : σ → υ → σ × ο} {call : Call ι} {s : σ} {own : Except ε υ}
    (h : Follows (prepare s call.input) own) :
    Transacts own (commit s) call s (call.run prepare commit s) := by
  have hcode := h call.answers
  have hrun : call.run prepare commit s =
      match ((prepare s call.input).exec call.answers).1 with
      | .error error => (.failed error, s)
      | .ok update =>
        if call.commits then (.committed (commit s update).2, (commit s update).1)
        else (.dropped, s) := by
    rw [Call.run, held, exec_translate]
    rcases (prepare s call.input).exec call.answers with ⟨e | update, rest⟩ <;> rfl
  rw [hrun]
  rcases hexec : (prepare s call.input).exec call.answers with ⟨(e | e) | update, rest⟩
  · rw [hexec] at hcode
    have hrefused : false ∈ call.answers := hcode
    constructor <;> simp [hrefused]
  · rw [hexec] at hcode
    cases hcode
    constructor <;> simp
  · rw [hexec] at hcode
    obtain ⟨rfl, -⟩ := hcode
    cases hcommits : call.commits with
    | false => constructor <;> simp [hcommits]
    | true => constructor <;> simp [hcommits]

end FrankenGraph
