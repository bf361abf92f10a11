import FrankenGraph.Library.OrderedSet

/-!
# Capability programs

The compiled form of a capability token: `fgdb-warden/src/lib.rs` (L55-223) and
`fgdb-warden/src/planner.rs` (L11-287). A program says which vertices, labels, relations and
properties may be seen, with which rights, within which limits and when.

`PlannerPredicates.narrows` compares two programs field by field. On programs whose scopes are
small against the 64-bit ordinals the comparison is exact: it accepts exactly the programs that
allow nothing the other denies.

Results:
* `Rights.bits_intersect`: intersecting rights intersects their bits
* `Scope.mem_intersect`: intersecting scopes intersects what they contain
* `narrows_iff_within`: the comparison of programs is the comparison of what they allow
-/

namespace FrankenGraph.Warden

/-- `LabelId` (`fgdb-delta-types/src/lib.rs` L55): a catalog ordinal. -/
abbrev LabelId := UInt64

/-- `PropertyKeyId`: a catalog ordinal. -/
abbrev PropertyKeyId := UInt64

/-- `RelationId`: a catalog ordinal. -/
abbrev RelationId := UInt64

/-- `LimitDimension` (`lib.rs` L199-203). -/
inductive LimitDimension where
  | nodes
  | work
  | rows
  deriving DecidableEq, Repr

/-- `Error` (`lib.rs` L207-223). -/
inductive Error where
  | malformed
  | tooLarge
  | unsupportedCaveat
  | unauthenticated
  | wrongAuthority
  | authorityRetired
  | missingRestriction
  | scopeDenied
  | expired
  | notYetValid
  | clockWentBackwards
  | permissionDenied
  | invalidWriteImage
  | limitExceeded (dimension : LimitDimension)
  | executionStopped
  deriving DecidableEq, Repr

/-! ## Scopes -/

/-- `Scope` (`lib.rs` L57-61): an explicit universe or a finite set; an empty set denies
everything. -/
inductive Scope (α : Type) [Ord α] where
  | all
  | only (values : BTreeSet α)

namespace Scope

variable {α : Type} [Ord α] [Std.TransOrd α]

instance [Std.LawfulEqOrd α] : DecidableEq (Scope α)
  | .all, .all => isTrue rfl
  | .all, .only _ => isFalse nofun
  | .only _, .all => isFalse nofun
  | .only values, .only values' => decidable_of_iff (values = values') (by simp)

/-- `Scope::contains` (L70-75). -/
def contains : Scope α → α → Bool
  | .all, _ => true
  | .only values, value => values.contains value

/-- `Scope::intersect` (L79-87). -/
def intersect : Scope α → Scope α → Scope α
  | current, .all => current
  | .all, other => other
  | .only current, .only next => .only (current.filter fun value => next.contains value)

variable [Std.LawfulEqOrd α]

omit [Std.LawfulEqOrd α] in
@[simp]
theorem contains_only {values : BTreeSet α} {value : α} :
    (Scope.only values).contains value = true ↔ value ∈ values := by
  simp [contains]

theorem contains_intersect (scope other : Scope α) (value : α) :
    (scope.intersect other).contains value = true ↔
      scope.contains value = true ∧ other.contains value = true := by
  cases scope with
  | all => cases other <;> simp [intersect, contains]
  | only current =>
    cases other with
    | all => simp [intersect, contains]
    | only next =>
      simp only [intersect, contains_only, BTreeSet.mem_filter, Std.ExtTreeSet.contains_iff_mem]

theorem intersect_comm (scope other : Scope α) : scope.intersect other = other.intersect scope := by
  cases scope with
  | all => cases other <;> rfl
  | only current =>
    cases other with
    | all => rfl
    | only next =>
      refine congrArg Scope.only (Std.ExtTreeSet.ext_mem fun value => ?_)
      simp only [BTreeSet.mem_filter, Std.ExtTreeSet.contains_iff_mem]
      exact and_comm

theorem intersect_assoc (scope other last : Scope α) :
    (scope.intersect other).intersect last = scope.intersect (other.intersect last) := by
  cases scope with
  | all => cases other <;> cases last <;> rfl
  | only current =>
    cases other with
    | all => cases last <;> rfl
    | only next =>
      cases last with
      | all => rfl
      | only values =>
        refine congrArg Scope.only (Std.ExtTreeSet.ext_mem fun value => ?_)
        simp only [BTreeSet.mem_filter, Std.ExtTreeSet.contains_iff_mem]
        exact and_assoc

theorem intersect_right_comm (scope other last : Scope α) :
    (scope.intersect other).intersect last = (scope.intersect last).intersect other := by
  rw [intersect_assoc, intersect_comm other, ← intersect_assoc]

end Scope

/-! ## Rights -/

/-- `Rights` (L91-99). -/
inductive Rights where
  | none
  | read
  | write
  | readWrite
  | admin
  deriving DecidableEq, Repr

namespace Rights

/-- `Rights::can_read` (L103-105). -/
def canRead : Rights → Bool
  | .read | .readWrite => true
  | _ => false

/-- `Rights::can_write` (L108-110). -/
def canWrite : Rights → Bool
  | .write | .readWrite => true
  | _ => false

/-- `Rights::bits` (L112-120). -/
def bits : Rights → UInt64
  | .none => 0
  | .read => 1
  | .write => 2
  | .readWrite => 3
  | .admin => 4

/-- `Rights::from_bits` (L122-131). -/
def fromBits (bits : UInt64) : Except Error Rights :=
  if bits = 0 then .ok .none
  else if bits = 1 then .ok .read
  else if bits = 2 then .ok .write
  else if bits = 3 then .ok .readWrite
  else if bits = 4 then .ok .admin
  else .error .malformed

/-- `Rights::intersect` (L133-140). -/
def intersect (left right : Rights) : Rights :=
  if left = right then left
  else match left, right with
    | .readWrite, .read | .read, .readWrite => .read
    | .readWrite, .write | .write, .readWrite => .write
    | _, _ => .none

theorem fromBits_bits (rights : Rights) : fromBits rights.bits = .ok rights := by
  cases rights <;> rfl

theorem bits_intersect (left right : Rights) :
    (left.intersect right).bits = left.bits &&& right.bits := by
  cases left <;> cases right <;> rfl

theorem bits_injective {left right : Rights} (h : left.bits = right.bits) : left = right := by
  cases left <;> cases right <;> first | rfl | exact absurd h (by decide)

theorem intersect_right_comm (left middle right : Rights) :
    (left.intersect middle).intersect right = (left.intersect right).intersect middle := by
  apply bits_injective
  rw [bits_intersect, bits_intersect, bits_intersect, bits_intersect, UInt64.and_assoc,
    UInt64.and_comm middle.bits, ← UInt64.and_assoc]

end Rights

/-! ## Programs -/

/-- `QueryLimits` (L145-152): the ceilings of one execution. -/
structure QueryLimits where
  maxNodes : UInt64
  maxWork : UInt64
  maxRows : UInt64
  deriving DecidableEq

/-- `PlannerPredicates` (`planner.rs` L18-28): the result of compiling a token. Texts are the
lists of their characters. -/
structure PlannerPredicates where
  branch : List Char
  labelClauses : List (BTreeSet LabelId)
  relations : Scope RelationId
  properties : Scope PropertyKeyId
  deniedProperties : BTreeSet PropertyKeyId
  rights : Rights
  limits : QueryLimits
  notBeforeMs : UInt64
  expiresAtMs : UInt64
  deriving DecidableEq

namespace PlannerPredicates

/-- `allows_vertex` (L186-190): every clause must match one of the labels. -/
def allowsVertex (program : PlannerPredicates) (originalLabels : List LabelId) : Bool :=
  program.labelClauses.all fun clause => originalLabels.any fun label => clause.contains label

/-- `allows_label` (L205-209): every clause must contain the label. -/
def allowsLabel (program : PlannerPredicates) (label : LabelId) : Bool :=
  program.labelClauses.all fun clause => clause.contains label

/-- `allows_relation` (L212-214). -/
def allowsRelation (program : PlannerPredicates) (relation : RelationId) : Bool :=
  program.relations.contains relation

/-- `allows_property` (L219-221). -/
def allowsProperty (program : PlannerPredicates) (property : PropertyKeyId) : Bool :=
  program.properties.contains property && !program.deniedProperties.contains property

/-- `check_at` (L275-286). -/
def checkAt (program : PlannerPredicates) (branch : List Char) (nowMs : UInt64) :
    Except Error Unit :=
  if branch != program.branch then .error .scopeDenied
  else if nowMs < program.notBeforeMs then .error .notYetValid
  else if nowMs ≥ program.expiresAtMs then .error .expired
  else .ok ()

/-- The comparison of the relation scopes in `narrows` (L131-135). -/
def narrowsRelations (program previous : PlannerPredicates) : Bool :=
  match program.relations, previous.relations with
  | _, .all => true
  | .only next, .only old => next.isSubset old
  | .all, .only _ => false

/-- The comparison of the property scopes in `narrows` (L136-144). -/
def narrowsProperties (program previous : PlannerPredicates) : Bool :=
  match program.properties, previous.properties with
  | .only next, _ => next.toList.all fun key =>
      program.deniedProperties.contains key || previous.allowsProperty key
  | .all, .all => previous.deniedProperties.isSubset program.deniedProperties
  | .all, .only _ => false

/-- The comparison of the label clauses in `narrows` (L149-152). -/
def narrowsLabels (program previous : PlannerPredicates) : Bool :=
  previous.labelClauses.all fun old => program.labelClauses.any fun next => next.isSubset old

/-- `narrows` (L130-163). -/
def narrows (program previous : PlannerPredicates) : Bool :=
  program.branch == previous.branch
    && (program.rights.bits &&& ~~~previous.rights.bits) == 0
    && program.limits.maxNodes ≤ previous.limits.maxNodes
    && program.limits.maxWork ≤ previous.limits.maxWork
    && program.limits.maxRows ≤ previous.limits.maxRows
    && program.notBeforeMs ≥ previous.notBeforeMs
    && program.expiresAtMs ≤ previous.expiresAtMs
    && program.narrowsRelations previous
    && program.narrowsProperties previous
    && program.narrowsLabels previous

/-! ## What a program allows -/

theorem allowsVertex_iff {program : PlannerPredicates} {labels : List LabelId} :
    program.allowsVertex labels = true ↔
      ∀ clause ∈ program.labelClauses, ∃ label ∈ labels, label ∈ clause := by
  simp only [allowsVertex, List.all_eq_true, List.any_eq_true, Std.ExtTreeSet.contains_iff_mem]

theorem allowsProperty_iff {program : PlannerPredicates} {property : PropertyKeyId} :
    program.allowsProperty property = true ↔
      program.properties.contains property = true ∧ property ∉ program.deniedProperties := by
  simp only [allowsProperty, Bool.and_eq_true, Bool.not_eq_true', ← Std.ExtTreeSet.contains_iff_mem,
    Bool.not_eq_true]

theorem checkAt_eq_ok {program : PlannerPredicates} {branch : List Char} {nowMs : UInt64} {u : Unit} :
    program.checkAt branch nowMs = .ok u ↔
      branch = program.branch ∧ program.notBeforeMs ≤ nowMs ∧ nowMs < program.expiresAtMs := by
  unfold checkAt
  split_ifs with hbranch hbefore hafter
  · simp only [false_iff]
    exact fun h => (bne_iff_ne.mp hbranch) h.1
  · simp only [false_iff]
    exact fun h => UInt64.not_lt.mpr h.2.1 hbefore
  · simp only [false_iff]
    exact fun h => UInt64.not_lt.mpr hafter h.2.2
  · simp only [true_iff]
    exact ⟨by simpa using hbranch, UInt64.not_lt.mp hbefore, UInt64.not_le.mp hafter⟩

/-- The scopes of a program are small against the 2⁶⁴ ordinals: at most 64 caveats of at most 256
ordinals each. -/
structure Bounded (program : PlannerPredicates) : Prop where
  relations : ∀ values, program.relations = .only values → values.size ≤ 256
  properties : ∀ values, program.properties = .only values → values.size ≤ 256
  deniedProperties : program.deniedProperties.size ≤ 64 * 256

/-- `program` grants nothing that `previous` does not: its rights bits are among the other's, its
limits and validity interval lie within the other's, and the other allows every vertex, relation and
property that it allows. -/
structure Within (program previous : PlannerPredicates) : Prop where
  rights : program.rights.bits &&& previous.rights.bits = program.rights.bits
  maxNodes : program.limits.maxNodes ≤ previous.limits.maxNodes
  maxWork : program.limits.maxWork ≤ previous.limits.maxWork
  maxRows : program.limits.maxRows ≤ previous.limits.maxRows
  notBeforeMs : previous.notBeforeMs ≤ program.notBeforeMs
  expiresAtMs : program.expiresAtMs ≤ previous.expiresAtMs
  vertex : ∀ labels, program.allowsVertex labels = true → previous.allowsVertex labels = true
  relation : ∀ relation,
    program.allowsRelation relation = true → previous.allowsRelation relation = true
  property : ∀ property,
    program.allowsProperty property = true → previous.allowsProperty property = true

variable {program previous : PlannerPredicates}

/-- Some ordinal lies outside two small sets. -/
theorem exists_ordinal_notMem {s t : BTreeSet UInt64} (h : s.size + t.size < 2 ^ 64) :
    ∃ ordinal, ordinal ∉ s ∧ ordinal ∉ t := by
  have hsize : (s ∪ t).size < UInt64.size :=
    (Std.ExtTreeSet.size_union_le_size_add_size ).trans_lt h
  obtain ⟨i, hordinal⟩ := BTreeSet.exists_notMem
    (fun i j hij => congrArg UInt64.toFin hij : Function.Injective UInt64.ofFin) hsize
  rw [Std.ExtTreeSet.mem_union_iff, not_or] at hordinal
  exact ⟨UInt64.ofFin i, hordinal⟩

theorem narrowsRelations_iff (hprevious : previous.Bounded) :
    program.narrowsRelations previous = true ↔ ∀ relation,
      program.allowsRelation relation = true → previous.allowsRelation relation = true := by
  unfold narrowsRelations allowsRelation
  cases hold : previous.relations with
  | all => cases program.relations <;> simp [Scope.contains]
  | only old =>
    cases program.relations with
    | only next => simp only [Scope.contains_only, BTreeSet.isSubset_iff]
    | all =>
      have hsize := hprevious.relations old hold
      obtain ⟨relation, hrelation, -⟩ := exists_ordinal_notMem (s := old) (t := ∅)
        (by rw [Std.ExtTreeSet.size_empty]; omega)
      simp only [Bool.false_eq_true, Scope.contains_only, false_iff, not_forall]
      exact ⟨relation, rfl, hrelation⟩

theorem narrowsProperties_iff (hprogram : program.Bounded) (hprevious : previous.Bounded) :
    program.narrowsProperties previous = true ↔ ∀ property,
      program.allowsProperty property = true → previous.allowsProperty property = true := by
  unfold narrowsProperties
  cases hnext : program.properties with
  | only next =>
    simp only [List.all_eq_true, Std.ExtTreeSet.mem_toList, Bool.or_eq_true,
      Std.ExtTreeSet.contains_iff_mem, @allowsProperty_iff program, hnext,
      Scope.contains_only]
    constructor
    · rintro h property ⟨hmem, hdenied⟩
      exact (h property hmem).resolve_left hdenied
    · intro h property hmem
      by_cases hdenied : property ∈ program.deniedProperties
      · exact .inl hdenied
      · exact .inr (h property ⟨hmem, hdenied⟩)
  | all =>
    cases hold : previous.properties with
    | all =>
      simp only [BTreeSet.isSubset_iff, allowsProperty_iff, hnext, hold, Scope.contains, true_and]
      exact forall_congr' fun property => not_imp_not.symm
    | only old =>
      have hsize := hprevious.properties old hold
      have hdenied := hprogram.deniedProperties
      obtain ⟨property, hproperty, hnot⟩ := exists_ordinal_notMem (s := old)
        (t := program.deniedProperties) (by omega)
      simp only [Bool.false_eq_true, false_iff, not_forall, allowsProperty_iff, hnext, hold,
        Scope.contains_only]
      exact ⟨property, ⟨rfl, hnot⟩, fun h => hproperty h.1⟩

/-- A clause that contains no clause of the program is missed by a vertex the program admits: one
label outside it for each clause of the program. -/
theorem narrowsLabels_iff : program.narrowsLabels previous = true ↔ ∀ labels,
      program.allowsVertex labels = true → previous.allowsVertex labels = true := by
  simp only [narrowsLabels, List.all_eq_true, List.any_eq_true, BTreeSet.isSubset_iff,
    allowsVertex_iff]
  constructor
  · intro h labels hlabels old hold
    obtain ⟨next, hnext, hsub⟩ := h old hold
    obtain ⟨label, hlabel, hmem⟩ := hlabels next hnext
    exact ⟨label, hlabel, hsub label hmem⟩
  · intro h old hold
    by_contra hnone
    push Not at hnone
    choose! pick hpick houtside using hnone
    obtain ⟨label, hlabel, hmem⟩ := h (program.labelClauses.map pick)
      (fun clause hclause => ⟨pick clause, List.mem_map_of_mem hclause, hpick clause hclause⟩)
      old hold
    obtain ⟨clause, hclause, rfl⟩ := List.mem_map.mp hlabel
    exact houtside clause hclause hmem

theorem narrowsRights_iff {left right : Rights} :
    (left.bits &&& ~~~right.bits) = 0 ↔ left.bits &&& right.bits = left.bits := by
  cases left <;> cases right <;> decide

theorem narrows_iff_within (hprogram : program.Bounded) (hprevious : previous.Bounded)
    (hbranch : program.branch = previous.branch) :
    program.narrows previous = true ↔ program.Within previous := by
  unfold narrows
  simp only [Bool.and_eq_true, beq_iff_eq, hbranch, true_and, decide_eq_true_eq,
    narrowsRelations_iff hprevious, narrowsProperties_iff hprogram hprevious, narrowsLabels_iff,
    narrowsRights_iff]
  constructor
  · rintro ⟨⟨⟨⟨⟨⟨⟨⟨hrights, hnodes⟩, hwork⟩, hrows⟩, hbefore⟩, hexpires⟩, hrel⟩, hprop⟩, hlab⟩
    exact ⟨hrights, hnodes, hwork, hrows, hbefore, hexpires, hlab, hrel, hprop⟩
  · intro h
    exact ⟨⟨⟨⟨⟨⟨⟨⟨h.rights, h.maxNodes⟩, h.maxWork⟩, h.maxRows⟩, h.notBeforeMs⟩, h.expiresAtMs⟩,
      h.relation⟩, h.property⟩, h.vertex⟩

end PlannerPredicates

end FrankenGraph.Warden
