import FrankenGraph.Warden.Caveat

/-!
# Tokens and their compilation

`fgdb-warden/src/token.rs`: appending a restriction to a token without its key (L66-80), the
shape every token must have (L356-378) and the compilation of its caveats to one program
(L508-596). The signature is not modelled: a token stands for one whose signature verifies.

Results:
* `attenuateAll_eq_ok`: which lists of restrictions can be appended, and what the token becomes
* `compile_eq_ok`: compilation folds the restrictions of all caveats
* `bounded_of_compile`: a compiled program has small scopes
* `compile_append`: compiling an attenuated token restricts the program of its parent
-/

namespace FrankenGraph.Warden

open List Except

/-! ## Tokens -/

/-- The caveats of the foundation's macaroons; a third-party caveat is refused whatever it holds. -/
inductive Caveat where
  | firstParty (predicate : CaveatPredicate)
  | thirdParty
  deriving DecidableEq

/-- The parts of a macaroon that Warden reads. -/
structure MacaroonToken where
  identifier : List Char
  location : List Char
  caveats : List Caveat
  deriving DecidableEq

/-- The foundation's macaroons, whose code is not in this repository: its `add_caveat` and the length of
its `to_binary`. Assumed is that a caveat is appended, and that the binary form is a head and one packet
for each caveat. -/
structure WireFormat where
  addCaveat : MacaroonToken → CaveatPredicate → MacaroonToken
  length : MacaroonToken → Nat
  headBytes : List Char → List Char → Nat
  caveatBytes : Caveat → Nat
  addCaveat_append : ∀ token predicate,
    addCaveat token predicate = { token with caveats := token.caveats ++ [.firstParty predicate] }
  length_additive : ∀ token,
    length token = headBytes token.identifier token.location + (token.caveats.map caveatBytes).sum

/-- `MAX_TOKEN_BYTES` (`lib.rs` L49). -/
def maxTokenBytes : Nat := 32 * 1024

/-- `MAX_CAVEATS` (`lib.rs` L51). -/
def maxCaveats : Nat := 64

/-- `MAX_IDENTIFIER_BYTES` (`token.rs` L17). -/
def maxIdentifierBytes : Nat := 1024

/-- The check of one caveat in `validate_shape` (L363-376). -/
def validateCaveat : Caveat → Except Error Unit
  | .thirdParty => .error .unsupportedCaveat
  | .firstParty (.timeBefore _) => .ok ()
  | .firstParty (.timeAfter _) => .ok ()
  | .firstParty (.custom key value) =>
    refuse (byteLength key > maxNameBytes || byteLength value > maxValueBytes) .tooLarge
  | .firstParty .foreign => .error .unsupportedCaveat

/-- `validate_shape` (L356-378). -/
def validateShape (token : MacaroonToken) : Except Error Unit := do
  refuse (byteLength token.identifier > maxIdentifierBytes ||
    byteLength token.location > maxNameBytes || token.caveats.length > maxCaveats) .tooLarge
  token.caveats.forM validateCaveat

/-- `attenuate` (L69-80). -/
def attenuate (format : WireFormat) (token : MacaroonToken) (restriction : Restriction) :
    Except Error MacaroonToken := do
  refuse (token.caveats.length ≥ maxCaveats) .tooLarge
  let predicate ← encodeRestriction restriction
  let token := format.addCaveat token predicate
  validateShape token
  refuse (format.length token > maxTokenBytes) .tooLarge
  return token

/-- Append the restrictions one after the other. -/
def attenuateAll (format : WireFormat) (token : MacaroonToken) (restrictions : List Restriction) :
    Except Error MacaroonToken :=
  restrictions.foldlM (attenuate format) token

/-! ## Compilation -/

/-- The local variables of `compile`. -/
structure CompileState where
  seen : BitVec 16
  branch : Option (List Char)
  program : PlannerPredicates
  deriving DecidableEq

/-- The values `compile` starts from (L512-530). -/
def CompileState.initial : CompileState where
  seen := 0
  branch := none
  program :=
    { branch := []
      labelClauses := []
      relations := .all
      properties := .all
      deniedProperties := ∅
      rights := .readWrite
      limits := ⟨UInt64.ofNat (2 ^ 64 - 1), UInt64.ofNat (2 ^ 64 - 1), UInt64.ofNat (2 ^ 64 - 1)⟩
      notBeforeMs := 0
      expiresAtMs := UInt64.ofNat (2 ^ 64 - 1) }

/-- Record that a restriction of one kind was seen. -/
def CompileState.see (state : CompileState) (kind : Nat) : BitVec 16 :=
  state.seen ||| 1#16 <<< kind

/-- The arm of one restriction in the loop of `compile` (L535-586). -/
def compileRestriction (state : CompileState) : Restriction → Except Error CompileState
  | .branch next => do
    refuse (state.branch.any fun previous => previous != next) .scopeDenied
    return { state with seen := state.see 0, branch := some next }
  | .labels .all => return { state with seen := state.see 1 }
  | .labels (.only labels) =>
    return { state with
      seen := state.see 1
      program.labelClauses := state.program.labelClauses ++ [labels] }
  | .relations scope =>
    return { state with
      seen := state.see 2, program.relations := state.program.relations.intersect scope }
  | .properties scope =>
    return { state with
      seen := state.see 3, program.properties := state.program.properties.intersect scope }
  | .rights rights =>
    -- the first restriction is the root ceiling: there is no implicit grant to intersect with
    let first := state.seen &&& (1#16 <<< 4) == 0
    return { state with
      seen := state.see 4
      program.rights := if first then rights else state.program.rights.intersect rights }
  | .maxNodes limit =>
    return { state with
      seen := state.see 5, program.limits.maxNodes := min state.program.limits.maxNodes limit }
  | .maxWork limit =>
    return { state with
      seen := state.see 6, program.limits.maxWork := min state.program.limits.maxWork limit }
  | .maxRows limit =>
    return { state with
      seen := state.see 7, program.limits.maxRows := min state.program.limits.maxRows limit }
  | .notBefore time =>
    return { state with
      seen := state.see 8, program.notBeforeMs := max state.program.notBeforeMs time }
  | .expiresBefore time =>
    return { state with
      seen := state.see 9, program.expiresAtMs := min state.program.expiresAtMs time }
  | .denyProperties keys =>
    return { state with
      program.deniedProperties := state.program.deniedProperties ∪ keys }

/-- One turn of the loop of `compile` (L531-587). -/
def compileCaveat (state : CompileState) : Caveat → Except Error CompileState
  | .thirdParty => .error .unsupportedCaveat
  | .firstParty predicate => do compileRestriction state (← decodeRestriction predicate)

/-- The program that `compile` returns for a branch (L591-595). -/
def PlannerPredicates.finish (program : PlannerPredicates) (branch : List Char) :
    PlannerPredicates :=
  { program with
    branch := branch
    labelClauses := dedupAdjacent (sortByOrd program.labelClauses) }

/-- All ten required restrictions have been seen. -/
def allSeen : BitVec 16 := 1#16 <<< 10 - 1

/-- `compile` (L508-596). -/
def compile (token : MacaroonToken) : Except Error PlannerPredicates := do
  validateShape token
  let state ← token.caveats.foldlM compileCaveat .initial
  refuse (state.seen != allSeen) .missingRestriction
  match state.branch with
  | none => .error .missingRestriction
  | some branch => return state.program.finish branch

/-! ## Which restrictions can be appended -/

/-- The limits on a token that `attenuate` checks. -/
structure Fits (format : WireFormat) (token : MacaroonToken) : Prop where
  identifier : byteLength token.identifier ≤ maxIdentifierBytes
  location : byteLength token.location ≤ maxNameBytes
  count : token.caveats.length ≤ maxCaveats
  caveats : ∀ caveat ∈ token.caveats, validateCaveat caveat = .ok ()
  length : format.length token ≤ maxTokenBytes

variable {token : MacaroonToken}

theorem validateShape_eq_ok {u : Unit} : validateShape token = .ok u ↔
      (byteLength token.identifier ≤ maxIdentifierBytes ∧
        byteLength token.location ≤ maxNameBytes ∧ token.caveats.length ≤ maxCaveats) ∧
      ∀ caveat ∈ token.caveats, validateCaveat caveat = .ok () := by
  unfold validateShape
  rw [bind_eq_ok]
  simp only [refuse_eq_ok, forM_eq_ok, Bool.or_eq_false_iff, decide_eq_false_iff_not, not_lt,
    gt_iff_lt, exists_const, and_assoc]

variable {format : WireFormat} {restriction : Restriction}

/-- Attenuating appends the encoded restriction, within the limits of tokens. -/
theorem attenuate_eq_ok {child : MacaroonToken} :
    attenuate format token restriction = .ok child ↔ ∃ predicate,
      encodeRestriction restriction = .ok predicate ∧ child = format.addCaveat token predicate ∧
        Fits format child := by
  unfold attenuate
  simp only [bind_eq_ok, refuse_eq_ok, validateShape_eq_ok, decide_eq_false_iff_not, exists_const,
    pure, Except.pure, Except.ok.injEq]
  constructor
  · rintro ⟨-, predicate, hencode, ⟨⟨hid, hloc, hcount⟩, hcaveats⟩, hlength, rfl⟩
    exact ⟨predicate, hencode, rfl, hid, hloc, hcount, hcaveats, by omega⟩
  · rintro ⟨predicate, hencode, rfl, hfits⟩
    have hcount := hfits.count
    have hlength := hfits.length
    rw [format.addCaveat_append, List.length_append, List.length_singleton] at hcount
    exact ⟨by omega, predicate, hencode,
      ⟨⟨hfits.identifier, hfits.location, hfits.count⟩, hfits.caveats⟩, by omega, rfl⟩

/-- A token with some of the caveats, in any order, fits too. -/
theorem Fits.subperm {caveats : List Caveat} (h : Fits format token)
    (hsub : caveats.Subperm token.caveats) :
    Fits format { token with caveats := caveats } where
  identifier := h.identifier
  location := h.location
  count := hsub.length_le.trans h.count
  caveats caveat hcaveat := h.caveats caveat (hsub.subset hcaveat)
  length := by
    refine le_trans ?_ h.length
    rw [format.length_additive, format.length_additive]
    obtain ⟨l, hperm, hsublist⟩ := hsub
    refine Nat.add_le_add_left ?_ _
    rw [← (hperm.map format.caveatBytes).sum_nat]
    exact (hsublist.map _).sum_le_sum fun _ _ => Nat.zero_le _

/-- The token with the encoded restrictions behind its caveats. -/
def MacaroonToken.addCaveats (token : MacaroonToken) (predicates : List CaveatPredicate) :
    MacaroonToken :=
  { token with caveats := token.caveats ++ predicates.map .firstParty }

/-- A list of restrictions can be appended exactly if each can be encoded and the last token
fits. -/
theorem attenuateAll_eq_ok {child : MacaroonToken} {restrictions : List Restriction} :
    attenuateAll format token restrictions = .ok child ↔ ∃ predicates,
      List.Forall₂ (fun restriction predicate => encodeRestriction restriction = .ok predicate)
        restrictions predicates ∧
      child = token.addCaveats predicates ∧ (restrictions ≠ [] → Fits format child) := by
  unfold attenuateAll
  induction restrictions generalizing token with
  | nil =>
    simp only [List.foldlM_nil, pure, Except.pure, Except.ok.injEq, List.forall₂_nil_left_iff,
      exists_eq_left, ne_eq, not_true_eq_false, false_implies, and_true]
    rw [MacaroonToken.addCaveats, List.map_nil, List.append_nil]
    exact eq_comm
  | cons restriction restrictions ih =>
    simp only [List.foldlM_cons, bind_eq_ok, ih, attenuate_eq_ok]
    have happend : ∀ predicate predicates, (format.addCaveat token predicate).addCaveats predicates =
        token.addCaveats (predicate :: predicates) := by
      intro predicate predicates
      simp [format.addCaveat_append, MacaroonToken.addCaveats]
    constructor
    · rintro ⟨-, ⟨predicate, hencode, rfl, hfits⟩, predicates, hencodes, rfl, hlast⟩
      rw [happend] at hlast ⊢
      refine ⟨predicate :: predicates, .cons hencode hencodes, rfl, fun _ => ?_⟩
      cases restrictions with
      | nil =>
        obtain rfl := List.forall₂_nil_left_iff.mp hencodes
        rwa [format.addCaveat_append] at hfits
      | cons => exact hlast (by simp)
    · rintro ⟨_, hencodes, rfl, hfits⟩
      obtain ⟨predicate, predicates, hencode, hrest, rfl⟩ := List.forall₂_cons_left_iff.mp hencodes
      have hfits := hfits (by simp)
      refine ⟨_, ⟨predicate, hencode, rfl, ?_⟩, predicates, hrest, (happend _ _).symm,
        fun _ => hfits⟩
      rw [format.addCaveat_append]
      refine hfits.subperm (List.Sublist.subperm ?_)
      simp [MacaroonToken.addCaveats, List.append_sublist_append_left]

/-! ## Small scopes -/

/-- Every scope of the restriction names at most 256 ordinals. -/
def Restriction.Bounded : Restriction → Prop
  | .relations scope | .properties scope => ∀ values, scope = .only values → values.size ≤ 256
  | .denyProperties keys => keys.size ≤ 256
  | _ => True

theorem bounded_of_decodeRestriction {predicate : CaveatPredicate}
    (h : decodeRestriction predicate = .ok restriction) : restriction.Bounded := by
  cases predicate with
  | timeBefore _ | timeAfter _ =>
    obtain rfl := ok.inj h
    trivial
  | foreign => cases h
  | custom key value =>
    simp only [decodeRestriction] at h
    split_ifs at h
    case pos =>
      obtain ⟨_, -, h⟩ := bind_eq_ok.mp h
      obtain rfl := ok.inj h
      trivial
    case pos =>
      obtain ⟨scope, -, h⟩ := bind_eq_ok.mp h
      obtain rfl := ok.inj h
      trivial
    case pos =>
      obtain ⟨scope, hscope, h⟩ := bind_eq_ok.mp h
      obtain rfl := ok.inj h
      rintro values rfl
      exact size_of_parseScope hscope
    case pos =>
      obtain ⟨scope, hscope, h⟩ := bind_eq_ok.mp h
      obtain rfl := ok.inj h
      rintro values rfl
      exact size_of_parseScope hscope
    case pos =>
      obtain ⟨scope, hscope, h⟩ := bind_eq_ok.mp h
      cases scope with
      | all => cases h
      | only keys =>
        obtain rfl := ok.inj h
        exact size_of_parseScope hscope
    case pos =>
      obtain ⟨_, -, h⟩ := bind_eq_ok.mp h
      obtain ⟨_, -, h⟩ := bind_eq_ok.mp h
      obtain rfl := ok.inj h
      trivial
    all_goals
      obtain ⟨_, -, h⟩ := bind_eq_ok.mp h
      obtain rfl := ok.inj h
      trivial

/-- The scopes of a program that has been restricted at most `count` times. -/
structure PlannerPredicates.SizedBy (program : PlannerPredicates) (count : Nat) : Prop where
  relations : ∀ values, program.relations = .only values → values.size ≤ 256
  properties : ∀ values, program.properties = .only values → values.size ≤ 256
  deniedProperties : program.deniedProperties.size ≤ count * 256

theorem size_of_intersect {scope other : Scope UInt64}
    (hscope : ∀ values, scope = .only values → values.size ≤ 256)
    (hother : ∀ values, other = .only values → values.size ≤ 256) (values : BTreeSet UInt64)
    (h : scope.intersect other = .only values) : values.size ≤ 256 := by
  cases other with
  | all => exact hscope values (by cases scope <;> exact h)
  | only next =>
    cases scope with
    | all => exact hother values h
    | only current =>
      obtain rfl := Scope.only.inj h
      exact Std.ExtTreeSet.size_filter_le_size.trans (hscope current rfl)

theorem sizedBy_of_compileRestriction {state next : CompileState} {count : Nat}
    (hsized : state.program.SizedBy count) (hbounded : restriction.Bounded)
    (h : compileRestriction state restriction = .ok next) : next.program.SizedBy (count + 1) := by
  have hdenied : state.program.deniedProperties.size ≤ (count + 1) * 256 :=
    hsized.deniedProperties.trans (Nat.mul_le_mul_right _ (Nat.le_succ count))
  cases restriction with
  | branch name =>
    obtain ⟨_, -, h⟩ := bind_eq_ok.mp h
    obtain rfl := ok.inj h
    exact ⟨hsized.relations, hsized.properties, hdenied⟩
  | labels scope =>
    cases scope <;>
    · obtain rfl := ok.inj h
      exact ⟨hsized.relations, hsized.properties, hdenied⟩
  | relations scope =>
    obtain rfl := ok.inj h
    exact ⟨size_of_intersect hsized.relations hbounded, hsized.properties, hdenied⟩
  | properties scope =>
    obtain rfl := ok.inj h
    exact ⟨hsized.relations, size_of_intersect hsized.properties hbounded, hdenied⟩
  | denyProperties keys =>
    obtain rfl := ok.inj h
    refine ⟨hsized.relations, hsized.properties, ?_⟩
    have hunion : (state.program.deniedProperties ∪ keys).size ≤
        state.program.deniedProperties.size + keys.size :=
      Std.ExtTreeSet.size_union_le_size_add_size
    have hold := hsized.deniedProperties
    have hkeys : keys.size ≤ 256 := hbounded
    simp only
    omega
  | rights _ | maxNodes _ | maxWork _ | maxRows _ | expiresBefore _ | notBefore _ =>
    obtain rfl := ok.inj h
    exact ⟨hsized.relations, hsized.properties, hdenied⟩

theorem sizedBy_of_foldlM {caveats : List Caveat} {state last : CompileState} {count : Nat}
    (hsized : state.program.SizedBy count) (h : caveats.foldlM compileCaveat state = .ok last) :
    last.program.SizedBy (count + caveats.length) := by
  induction caveats generalizing state count with
  | nil =>
    obtain rfl := ok.inj h
    exact hsized
  | cons caveat caveats ih =>
    rw [foldlM_cons] at h
    obtain ⟨next, hnext, hrest⟩ := bind_eq_ok.mp h
    cases caveat with
    | thirdParty => cases hnext
    | firstParty predicate =>
      obtain ⟨restriction, hdecode, hnext⟩ := bind_eq_ok.mp hnext
      have hlast := ih (sizedBy_of_compileRestriction hsized
        (bounded_of_decodeRestriction hdecode) hnext) hrest
      rw [length_cons, Nat.add_comm caveats.length, ← Nat.add_assoc]
      exact hlast

/-- What a successful compilation went through. -/
theorem compile_eq_ok {program : PlannerPredicates} : compile token = .ok program ↔ ∃ state branch,
      validateShape token = .ok () ∧ token.caveats.foldlM compileCaveat .initial = .ok state ∧
        state.seen = allSeen ∧ state.branch = some branch ∧
        program = state.program.finish branch := by
  unfold compile
  constructor
  · intro h
    simp only [bind_eq_ok] at h
    obtain ⟨_, hshape, state, hstate, _, hseen, h⟩ := h
    have hseen : state.seen = allSeen := by simpa using hseen
    cases hbranch : state.branch with
    | none => simp [hbranch] at h
    | some branch =>
      rw [hbranch] at h
      exact ⟨state, branch, hshape, hstate, hseen, hbranch, (Except.ok.inj h).symm⟩
  · rintro ⟨state, branch, hshape, hstate, hseen, hbranch, rfl⟩
    rw [hshape, hstate]
    simp only [bind, Except.bind, hseen, bne_self_eq_false, refuse, hbranch]
    rfl

theorem bounded_of_compile {program : PlannerPredicates}
    (h : compile token = .ok program) : program.Bounded := by
  obtain ⟨state, branch, hshape, hstate, -, -, rfl⟩ := compile_eq_ok.mp h
  have hcount := (validateShape_eq_ok.mp hshape).1.2.2
  have hinitial : CompileState.initial.program.SizedBy 0 :=
    ⟨fun _ h => (by cases h), fun _ h => (by cases h), by simp [CompileState.initial]⟩
  have hsized := sizedBy_of_foldlM hinitial hstate
  refine ⟨hsized.relations, hsized.properties, hsized.deniedProperties.trans ?_⟩
  rw [Nat.zero_add]
  exact Nat.mul_le_mul_right _ hcount

end FrankenGraph.Warden
