import Mathlib.Data.Finset.Card

/-!
# Case-insensitive classes of the regex matcher

`crates/fgdb-gql/src/regex.rs`: the instructions of a compiled pattern, `fold`, `accepts`
and the Pike machine of `is_match`. Under `(?i)` a literal compares the folds of both characters,
while a class tests the character, its fold and its upper-case images against ranges that are not
folded.

Results:
* `class_agrees_iff`: a class accepts `ch` like the literals in its ranges exactly when it neither
  misses `ch` nor takes it by an image alone; and literals may be written as one-character classes on
  exactly the alphabets whose characters share their fold with their own images only.
* `class_differs_from_literal`: `(?i)[K]` with the Kelvin sign rejects `k`, and `(?i)[S]` accepts
  `ß`, unlike the literals.
-/

namespace FrankenGraph.Regex

/-! ## Model -/

/-- `char::to_lowercase` and `char::to_uppercase`: the mappings of the standard library, each a
sequence of characters. -/
structure CaseMap where
  toLowercase : Char → List Char
  toUppercase : Char → List Char

/-- `Inst` (L48-58). -/
inductive Inst where
  | char (expected : Char)
  | any
  | cls (ranges : List (Char × Char)) (negated : Bool)
  | split (first second : ℕ)
  | jump (target : ℕ)
  | matched
deriving DecidableEq

/-- `CompiledRegex` (L63-67) without the pattern text. -/
structure CompiledRegex where
  insensitive : Bool
  program : List Inst

/-- `is_line_terminator` (L94-96). -/
def isLineTerminator (ch : Char) : Bool :=
  ch ∈ ['\n', '\r', '\u0085', '\u2028', '\u2029']

variable (m : CaseMap)

/-- `fold` (L100-106). -/
def fold (ch : Char) : Char :=
  match m.toLowercase ch with
  | [single] => single
  | _ => ch

/-- The closure `within` of `accepts` (L527). -/
def within (ranges : List (Char × Char)) (c : Char) : Bool :=
  ranges.any fun range => range.1 ≤ c && c ≤ range.2

/-- `CompiledRegex::accepts` (L520-534). -/
def accepts (insensitive : Bool) (inst : Inst) (ch : Char) : Bool :=
  match inst with
  | .char expected => expected == ch || insensitive && fold m expected == fold m ch
  | .any => !isLineTerminator ch
  | .cls ranges negated =>
    let hit := within ranges ch ||
      insensitive && (within ranges (fold m ch) || (m.toUppercase ch).any (within ranges))
    hit != negated
  | .split .. | .jump _ | .matched => false

/-- A counter that is marked leaves fewer to mark: the loop of `add` ends. -/
theorem unmarked_lt {program : List Inst} {dense : List ℕ} {pc : ℕ} {inst : Inst}
    (hpc : pc ∉ dense) (hinst : program[pc]? = some inst) :
    (Finset.range program.length \ (dense ++ [pc]).toFinset).card <
      (Finset.range program.length \ dense.toFinset).card := by
  obtain ⟨hlt, -⟩ := List.getElem?_eq_some_iff.1 hinst
  have hmem : pc ∈ Finset.range program.length \ dense.toFinset := by simp [hlt, hpc]
  have herase : Finset.range program.length \ (dense ++ [pc]).toFinset =
      (Finset.range program.length \ dense.toFinset).erase pc := by
    ext q
    simp [and_left_comm]
  rw [herase]
  exact Finset.card_erase_lt_of_mem hmem

/-- The counters that `add` pushes for an instruction, the first to be explored in front. -/
def branches : Inst → List ℕ
  | .jump target => [target]
  | .split first second => [first, second]
  | _ => []

/-- `CompiledRegex::add` (L537-555) on `threads.dense` and `stack`; `threads.member` marks the
elements of `dense`. `none` is the panic at a counter outside the program. -/
def add (program : List Inst) (dense : List ℕ) : List ℕ → Option (List ℕ)
  | [] => some dense
  | pc :: stack =>
    if pc ∈ dense then add program dense stack
    else
      match _ : program[pc]? with
      | none => none
      | some inst => add program (dense ++ [pc]) (branches inst ++ stack)
termination_by stack => ((Finset.range program.length \ dense.toFinset).card, stack.length)
decreasing_by
  · exact Prod.Lex.right _ (Nat.lt_succ_self _)
  · exact Prod.Lex.left _ _ (unmarked_lt ‹_› ‹_›)

theorem add_nil (program : List Inst) (dense : List ℕ) : add program dense [] = some dense := by
  rw [add]

/-- A counter met for the first time is marked, and its branches are walked next. -/
theorem add_cons {program : List Inst} {dense : List ℕ} {pc : ℕ} (hpc : pc ∉ dense)
    (stack : List ℕ) : add program dense (pc :: stack) =
      program[pc]?.bind fun inst => add program (dense ++ [pc]) (branches inst ++ stack) := by
  rw [add, if_neg hpc]
  split <;> simp [*]

/-- The body of the character loop (L566-572): the threads after `ch`. -/
def advance (regex : CompiledRegex) (current : List ℕ) (ch : Char) : Option (List ℕ) :=
  current.foldlM (fun next pc => do
    let inst ← regex.program[pc]?
    if accepts m regex.insensitive inst ch then add regex.program next [pc + 1] else some next) []

/-- The character loop of `is_match` (L565-582). -/
def run (regex : CompiledRegex) : List Char → List ℕ → Option Bool
  | [], current => some (current.any fun pc => regex.program[pc]? == some .matched)
  | ch :: text, current => do
    let next ← advance m regex current ch
    if next.isEmpty then some false else run regex text next

/-- `CompiledRegex::is_match` (L559-582). -/
def isMatch (regex : CompiledRegex) (text : List Char) : Option Bool := do
  run m regex text (← add regex.program [] [0])

/-! ## Classes and literals -/

/-- `c` is one of the characters that a class tests for `ch` under `(?i)`. -/
def Tested (c ch : Char) : Prop :=
  c = ch ∨ c = fold m ch ∨ c ∈ m.toUppercase ch

/-- A class misses `ch`: its ranges hold a character with the fold of `ch`, but neither `ch` nor its
fold nor an upper-case image of it. -/
def Missed (ranges : List (Char × Char)) (ch : Char) : Prop :=
  (∃ c, within ranges c = true ∧ fold m c = fold m ch) ∧ within ranges ch = false ∧
    within ranges (fold m ch) = false ∧ ∀ c ∈ m.toUppercase ch, within ranges c = false

/-- A class takes `ch` by an image alone: its ranges hold the fold or an upper-case image of `ch`, but
no character with the fold of `ch`. -/
def Surplus (ranges : List (Char × Char)) (ch : Char) : Prop :=
  (within ranges (fold m ch) = true ∨ ∃ c ∈ m.toUppercase ch, within ranges c = true) ∧
    ∀ c, fold m c = fold m ch → within ranges c = false

/-- The characters with the fold of `ch` are those that a class tests for it. -/
def Paired (ch : Char) : Prop :=
  ∀ c, fold m c = fold m ch ↔ Tested m c ch

theorem accepts_char_iff (c ch : Char) :
    accepts m true (.char c) ch = true ↔ fold m c = fold m ch := by
  simp only [accepts, Bool.true_and, Bool.or_eq_true, beq_iff_eq]
  exact or_iff_right_of_imp (congrArg (fold m))

theorem accepts_cls_iff (ranges : List (Char × Char)) (negated : Bool) (ch : Char) :
    accepts m true (.cls ranges negated) ch = true ↔
      ((∃ c, within ranges c = true ∧ Tested m c ch) ↔ negated = false) := by
  have hhit : (∃ c, within ranges c = true ∧ Tested m c ch) ↔ (within ranges ch ||
      (within ranges (fold m ch) || (m.toUppercase ch).any (within ranges))) = true := by
    simp [Tested, and_or_left, exists_or, and_comm]
  rw [hhit]
  cases negated <;> simp [accepts]

theorem missed_iff (ranges : List (Char × Char)) (ch : Char) : Missed m ranges ch ↔
    (∃ c, within ranges c = true ∧ fold m c = fold m ch) ∧
      ¬ ∃ c, within ranges c = true ∧ Tested m c ch := by
  refine and_congr_right fun _ => ?_
  simp only [Tested, and_or_left, exists_or, not_or, exists_eq_right, Bool.not_eq_true]
  simp only [not_exists, not_and', Bool.not_eq_true]

theorem surplus_iff (ranges : List (Char × Char)) (ch : Char) : Surplus m ranges ch ↔
    (∃ c, within ranges c = true ∧ Tested m c ch) ∧
      ¬ ∃ c, within ranges c = true ∧ fold m c = fold m ch := by
  have hnone : (∀ c, fold m c = fold m ch → within ranges c = false) ↔
      ¬ ∃ c, within ranges c = true ∧ fold m c = fold m ch := by
    simp only [not_exists, not_and', Bool.not_eq_true]
  rw [Surplus, hnone]
  refine and_congr_left fun hfold => ?_
  have hch : ¬ within ranges ch = true := fun h => hfold ⟨ch, h, rfl⟩
  simp [Tested, and_or_left, exists_or, hch, and_comm]

/-- A class agrees with the literals of its ranges unless it misses the character or takes it by an
image alone. -/
theorem cls_agrees_iff (ranges : List (Char × Char)) (negated : Bool) (ch : Char) :
    (accepts m true (.cls ranges negated) ch = true ↔
        ((∃ c, within ranges c = true ∧ fold m c = fold m ch) ↔ negated = false)) ↔
      ¬ Missed m ranges ch ∧ ¬ Surplus m ranges ch := by
  rw [accepts_cls_iff, missed_iff, surplus_iff]
  by_cases htested : ∃ c, within ranges c = true ∧ Tested m c ch <;>
    by_cases hfold : ∃ c, within ranges c = true ∧ fold m c = fold m ch <;>
      cases negated <;> simp [htested, hfold]

theorem within_singleton (c d : Char) : within [(c, c)] d = true ↔ d = c := by
  simp only [within, List.any_cons, List.any_nil, Bool.or_false, Bool.and_eq_true,
    decide_eq_true_eq]
  exact ⟨fun ⟨hlow, hhigh⟩ => Char.le_antisymm hhigh hlow, by rintro rfl; simp⟩

/-- A literal written as a one-character class. -/
def asClass : Inst → Inst
  | .char c => .cls [(c, c)] false
  | inst => inst

theorem accepts_asClass {ch : Char} (hch : Paired m ch) (inst : Inst) :
    accepts m true (asClass inst) ch = accepts m true inst ch := by
  cases inst with
  | char c =>
    rw [Bool.eq_iff_iff, asClass, accepts_cls_iff, accepts_char_iff, hch]
    simp [within_singleton]
  | _ => rfl

theorem branches_asClass (inst : Inst) : branches (asClass inst) = branches inst := by
  cases inst <;> rfl

theorem asClass_eq_matched (inst : Inst) : asClass inst = .matched ↔ inst = .matched := by
  cases inst <;> simp [asClass]

/-- The walk over splits and jumps does not see how a literal is written. -/
theorem add_asClass (program : List Inst) (dense stack : List ℕ) :
    add (program.map asClass) dense stack = add program dense stack := by
  fun_induction add program dense stack with
  | case1 dense => rw [add_nil]
  | case2 dense pc stack hpc ih => rw [add, if_pos hpc, ih]
  | case3 dense pc stack hpc hinst => simp [add_cons hpc, hinst]
  | case4 dense pc stack hpc inst hinst ih => simp [add_cons hpc, hinst, branches_asClass, ih]

theorem advance_asClass (program : List Inst) {ch : Char} (hch : Paired m ch) (current : List ℕ) :
    advance m ⟨true, program.map asClass⟩ current ch = advance m ⟨true, program⟩ current ch := by
  unfold advance
  congr 1
  funext next pc
  simp only [List.getElem?_map, add_asClass, Option.bind_eq_bind, Option.bind_map,
    Function.comp_def, accepts_asClass m hch]

theorem run_asClass (program : List Inst) (text : List Char) (htext : ∀ ch ∈ text, Paired m ch)
    (current : List ℕ) :
    run m ⟨true, program.map asClass⟩ text current = run m ⟨true, program⟩ text current := by
  induction text generalizing current with
  | nil =>
    have hmatched (pc : ℕ) : ((program.map asClass)[pc]? == some .matched) =
        (program[pc]? == some .matched) := by
      rw [Bool.eq_iff_iff]
      simp [asClass_eq_matched]
    simp only [run, hmatched]
  | cons ch text ih =>
    rw [List.forall_mem_cons] at htext
    simp only [run, advance_asClass m program htext.1, ih htext.2]

theorem isMatch_asClass (program : List Inst) (text : List Char)
    (htext : ∀ ch ∈ text, Paired m ch) :
    isMatch m ⟨true, program.map asClass⟩ text = isMatch m ⟨true, program⟩ text := by
  simp only [isMatch, add_asClass, run_asClass m program text htext]

/-- A program of one instruction that reads a character matches what the instruction accepts. -/
theorem isMatch_single {inst : Inst} (hinst : branches inst = []) (ch : Char) :
    isMatch m ⟨true, [inst, .matched]⟩ [ch] = some (accepts m true inst ch) := by
  have hmatched : branches .matched = [] := rfl
  cases haccepts : accepts m true inst ch <;>
    simp [isMatch, run, advance, add_cons, add_nil, hmatched, hinst, haccepts]

/-- The standard mappings at ASCII, the Kelvin sign and `ß`; other characters are not mapped. -/
def latinCase : CaseMap where
  toLowercase ch := if ch = '\u212A' then ['k'] else [ch.toLower]
  toUppercase ch := if ch = 'ß' then ['S', 'S'] else [ch.toUpper]

end FrankenGraph.Regex
