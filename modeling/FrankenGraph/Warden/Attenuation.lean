import FrankenGraph.Warden.Token

/-!
# Attenuation only narrows

Once every required restriction has been seen, a further restriction acts on the program alone: it
intersects a scope, adds a label clause, lowers a ceiling or shortens the validity interval. So
compiling an attenuated token restricts the program of its parent, in an order that does not matter.

Results:
* `compileCaveat_of_allSeen`: the step of compilation on a complete program
* `compile_addCaveats`: an attenuated token compiles to the restricted program of its parent
* `restrict_within`: every restriction narrows
* `finish_foldl_restrict_perm`: the order of the restrictions does not matter
* `attenuation_narrows`: the capability of an attenuated token, and the narrowing test
-/

namespace FrankenGraph.Warden

open PlannerPredicates Std.ExtTreeSet Rights UInt64 List

/-- What a restriction does to a complete program. -/
def PlannerPredicates.restrict (program : PlannerPredicates) : Restriction → PlannerPredicates
  | .branch _ | .labels .all => program
  | .labels (.only labels) => { program with labelClauses := program.labelClauses ++ [labels] }
  | .relations scope => { program with relations := program.relations.intersect scope }
  | .properties scope => { program with properties := program.properties.intersect scope }
  | .denyProperties keys => { program with deniedProperties := program.deniedProperties ∪ keys }
  | .rights rights => { program with rights := program.rights.intersect rights }
  | .maxNodes limit => { program with limits.maxNodes := min program.limits.maxNodes limit }
  | .maxWork limit => { program with limits.maxWork := min program.limits.maxWork limit }
  | .maxRows limit => { program with limits.maxRows := min program.limits.maxRows limit }
  | .notBefore time => { program with notBeforeMs := max program.notBeforeMs time }
  | .expiresBefore time => { program with expiresAtMs := min program.expiresAtMs time }

/-- A restriction to another branch is refused; every other one is compatible with `branch`. -/
def Restriction.KeepsBranch (branch : List Char) : Restriction → Prop
  | .branch next => next = branch
  | _ => True

/-! ## Compiling the appended caveats -/

/-- A state of `compile` in which all required restrictions have been seen. -/
def complete (branch : List Char) (program : PlannerPredicates) : CompileState :=
  ⟨allSeen, some branch, program⟩

theorem see_complete (branch : List Char) (program : PlannerPredicates) {kind : Nat}
    (h : kind < 10) : (complete branch program).see kind = allSeen := by
  have hall : ∀ kind : Fin 10, allSeen ||| 1#16 <<< kind.val = allSeen := by decide
  exact hall ⟨kind, h⟩

variable {program : PlannerPredicates}

theorem compileRestriction_complete {branch : List Char} {restriction : Restriction}
    {next : CompileState} :
    compileRestriction (complete branch program) restriction = .ok next ↔
      restriction.KeepsBranch branch ∧ next = complete branch (program.restrict restriction) := by
  have hok : ∀ {state : CompileState}, state = complete branch (program.restrict restriction) →
      ((Except.ok state : Except Error CompileState) = .ok next ↔
        next = complete branch (program.restrict restriction)) := by
    rintro _ rfl
    exact ⟨fun h => (Except.ok.inj h).symm, fun h => h ▸ rfl⟩
  cases restriction with
  | branch name =>
    by_cases hname : name = branch
    · subst hname
      simp only [compileRestriction, see_complete name program (by decide : 0 < 10),
        Restriction.KeepsBranch, true_and]
      rw [show (complete name program).branch = some name from rfl, Option.any_some,
        bne_self_eq_false]
      exact hok rfl
    · have hne : (branch != name) = true := bne_iff_ne.mpr (Ne.symm hname)
      simp only [compileRestriction, complete, Option.any_some, hne, refuse,
        Restriction.KeepsBranch, hname, false_and, iff_false]
      intro h
      cases h
  | labels scope =>
    cases scope <;>
    · simp only [compileRestriction, see_complete branch program (by decide : 1 < 10),
        Restriction.KeepsBranch, true_and]
      exact hok rfl
  | rights rights =>
    have hfirst : ((complete branch program).seen &&& 1#16 <<< 4 == 0) = false := by
      show (allSeen &&& 1#16 <<< 4 == 0) = false
      decide
    simp only [compileRestriction, see_complete branch program (by decide : 4 < 10), hfirst,
      Restriction.KeepsBranch, true_and]
    exact hok rfl
  | relations _ | properties _ | maxNodes _ | maxWork _ | maxRows _ | notBefore _
  | expiresBefore _ | denyProperties _ =>
    simp only [compileRestriction, see_complete, Nat.reduceLT, Restriction.KeepsBranch, true_and]
    exact hok rfl

/-- The loop over the appended caveats restricts the program by their restrictions. -/
theorem foldlM_complete {restrictions : List Restriction} {predicates : List CaveatPredicate}
    (hencode : List.Forall₂
      (fun restriction predicate => encodeRestriction restriction = .ok predicate)
      restrictions predicates) {branch : List Char} {last : CompileState} :
    (predicates.map Caveat.firstParty).foldlM compileCaveat (complete branch program) = .ok last ↔
      (∀ restriction ∈ restrictions, restriction.KeepsBranch branch) ∧
        last = complete branch (restrictions.foldl restrict program) := by
  induction hencode generalizing program with
  | nil =>
    simp only [map_nil, foldlM_nil, pure, Except.pure, Except.ok.injEq, not_mem_nil,
      false_implies, implies_true, foldl_nil, true_and]
    exact eq_comm
  | @cons restriction predicate restrictions predicates hhead _ ih =>
    have hstep : compileCaveat (complete branch program) (.firstParty predicate) =
        compileRestriction (complete branch program) restriction := by
      show (do compileRestriction _ (← decodeRestriction predicate)) = _
      rw [decodeRestriction_encodeRestriction hhead]
      rfl
    rw [map_cons, foldlM_cons, hstep, bind_eq_ok, forall_mem_cons, foldl_cons]
    simp only [compileRestriction_complete]
    constructor
    · rintro ⟨-, ⟨hkeeps, rfl⟩, hrest⟩
      exact ⟨⟨hkeeps, (ih.mp hrest).1⟩, (ih.mp hrest).2⟩
    · rintro ⟨⟨hkeeps, hrest⟩, hlast⟩
      exact ⟨_, ⟨hkeeps, rfl⟩, ih.mpr ⟨hrest, hlast⟩⟩

/-- An attenuated token compiles to the restricted program of its parent, if its shape is accepted
and every restriction keeps the branch. -/
theorem compile_addCaveats {token : MacaroonToken} {parent : PlannerPredicates}
    (hparent : compile token = .ok parent) :
    ∃ branch whole, parent = finish whole branch ∧ ∀ restrictions predicates, List.Forall₂
        (fun restriction predicate => encodeRestriction restriction = .ok predicate)
        restrictions predicates → ∀ program,
      (compile (token.addCaveats predicates) = .ok program ↔
        validateShape (token.addCaveats predicates) = .ok () ∧
          (∀ restriction ∈ restrictions, restriction.KeepsBranch branch) ∧
          program = (restrictions.foldl restrict whole).finish branch) := by
  obtain ⟨state, branch, -, hstate, hseen, hbranch, rfl⟩ := compile_eq_ok.mp hparent
  have hcomplete : state = complete branch state.program := by
    rw [complete, ← hseen, ← hbranch]
  refine ⟨branch, state.program, rfl, fun restrictions predicates hencode program => ?_⟩
  have hfold : ∀ last, (token.addCaveats predicates).caveats.foldlM compileCaveat .initial =
      .ok last ↔ (∀ restriction ∈ restrictions, restriction.KeepsBranch branch) ∧
        last = complete branch (restrictions.foldl restrict state.program) := by
    intro last
    rw [MacaroonToken.addCaveats, foldlM_append, hstate, bind_eq_ok, ← foldlM_complete hencode,
      ← hcomplete]
    simp only [Except.ok.injEq, exists_eq_left']
  rw [compile_eq_ok]
  simp only [hfold]
  constructor
  · rintro ⟨-, _, hshape, ⟨hkeeps, rfl⟩, -, hsome, rfl⟩
    obtain rfl := Option.some.inj hsome
    exact ⟨hshape, hkeeps, rfl⟩
  · rintro ⟨hshape, hkeeps, rfl⟩
    exact ⟨_, branch, hshape, ⟨hkeeps, rfl⟩, rfl, rfl, rfl⟩

/-! ## Every restriction narrows -/

namespace PlannerPredicates

theorem Within.refl (program : PlannerPredicates) : program.Within program where
  rights := UInt64.and_self
  maxNodes := UInt64.le_refl _
  maxWork := UInt64.le_refl _
  maxRows := UInt64.le_refl _
  notBeforeMs := UInt64.le_refl _
  expiresAtMs := UInt64.le_refl _
  vertex _ h := h
  relation _ h := h
  property _ h := h

theorem Within.trans {first second third : PlannerPredicates} (h : first.Within second)
    (h' : second.Within third) : first.Within third where
  rights := by rw [← h.rights, UInt64.and_assoc, h'.rights]
  maxNodes := UInt64.le_trans h.maxNodes h'.maxNodes
  maxWork := UInt64.le_trans h.maxWork h'.maxWork
  maxRows := UInt64.le_trans h.maxRows h'.maxRows
  notBeforeMs := UInt64.le_trans h'.notBeforeMs h.notBeforeMs
  expiresAtMs := UInt64.le_trans h.expiresAtMs h'.expiresAtMs
  vertex labels hlabels := h'.vertex labels (h.vertex labels hlabels)
  relation relation hrelation := h'.relation relation (h.relation relation hrelation)
  property property hproperty := h'.property property (h.property property hproperty)

theorem toNat_max (a b : UInt64) : (max a b).toNat = max a.toNat b.toNat := by
  rw [show max a b = if a ≤ b then b else a from rfl]
  split_ifs with h
  · rw [le_iff_toNat_le] at h
    omega
  · rw [le_iff_toNat_le] at h
    omega

theorem le_max_uint64 (a b : UInt64) : a ≤ max a b := by
  rw [le_iff_toNat_le, toNat_max]
  omega

theorem max_right_comm_uint64 (a b c : UInt64) : max (max a b) c = max (max a c) b := by
  rw [← UInt64.toNat_inj]
  simp only [toNat_max]
  omega

theorem restrict_within (program : PlannerPredicates) (restriction : Restriction) :
    (program.restrict restriction).Within program := by
  have hrefl := Within.refl program
  cases restriction with
  | branch name => exact hrefl
  | labels scope =>
    cases scope with
    | all => exact hrefl
    | only labels =>
      refine { hrefl with vertex := fun vertexLabels h => ?_ }
      rw [allowsVertex_iff] at h ⊢
      exact fun clause hclause => h clause (List.mem_append_left _ hclause)
  | relations scope =>
    refine { hrefl with relation := fun relation h => ?_ }
    exact ((Scope.contains_intersect _ _ _).mp h).1
  | properties scope =>
    refine { hrefl with property := fun property h => ?_ }
    rw [allowsProperty_iff] at h ⊢
    exact ⟨((Scope.contains_intersect _ _ _).mp h.1).1, h.2⟩
  | denyProperties keys =>
    refine { hrefl with property := fun property h => ?_ }
    rw [allowsProperty_iff] at h ⊢
    exact ⟨h.1, fun hdenied => h.2 (Std.ExtTreeSet.mem_union_iff.mpr (.inl hdenied))⟩
  | rights rights =>
    refine { hrefl with rights := ?_ }
    show (program.rights.intersect rights).bits &&& program.rights.bits = _
    rw [Rights.bits_intersect, UInt64.and_assoc, UInt64.and_comm rights.bits, ← UInt64.and_assoc,
      UInt64.and_self]
    exact (Rights.bits_intersect _ _).symm
  | maxNodes limit => exact { hrefl with maxNodes := Std.min_le_left }
  | maxWork limit => exact { hrefl with maxWork := Std.min_le_left }
  | maxRows limit => exact { hrefl with maxRows := Std.min_le_left }
  | notBefore time => exact { hrefl with notBeforeMs := le_max_uint64 _ _ }
  | expiresBefore time => exact { hrefl with expiresAtMs := Std.min_le_left }

theorem foldl_restrict_within (program : PlannerPredicates) (restrictions : List Restriction) :
    (restrictions.foldl restrict program).Within program := by
  induction restrictions generalizing program with
  | nil => exact Within.refl program
  | cons restriction restrictions ih => exact (ih _).trans (restrict_within program restriction)

variable {program : PlannerPredicates}

/-- Sorting and deduplicating the clauses changes nothing that is allowed. -/
theorem Within.finish {previous : PlannerPredicates} (h : program.Within previous)
    (branch : List Char) : (program.finish branch).Within (previous.finish branch) := by
  have hclauses : ∀ (program : PlannerPredicates) labels,
      (program.finish branch).allowsVertex labels = true ↔ program.allowsVertex labels = true := by
    intro program labels
    simp only [allowsVertex_iff, PlannerPredicates.finish, mem_dedupAdjacent,
      (sortByOrd_perm program.labelClauses).mem_iff]
  refine ⟨h.rights, h.maxNodes, h.maxWork, h.maxRows, h.notBeforeMs, h.expiresAtMs, ?_, h.relation,
    h.property⟩
  intro labels hlabels
  rw [hclauses] at hlabels ⊢
  exact h.vertex labels hlabels

/-! ## The order of the restrictions -/

/-- The same program up to the order of its label clauses. -/
structure SameClauses (program other : PlannerPredicates) : Prop where
  clauses : program.labelClauses.Perm other.labelClauses
  rest : { program with labelClauses := [] } = { other with labelClauses := [] }

theorem SameClauses.refl (program : PlannerPredicates) : program.SameClauses program :=
  ⟨.refl _, rfl⟩

theorem SameClauses.trans {first second third : PlannerPredicates} (h : first.SameClauses second)
    (h' : second.SameClauses third) : first.SameClauses third :=
  ⟨h.clauses.trans h'.clauses, h.rest.trans h'.rest⟩

variable {other : PlannerPredicates}

theorem SameClauses.finish_eq (h : program.SameClauses other)
    (branch : List Char) : program.finish branch = other.finish branch := by
  have hrest := h.rest
  unfold finish
  rw [sortByOrd_eq_of_perm h.clauses]
  simp only [mk.injEq, true_and] at hrest ⊢
  exact hrest.2

theorem SameClauses.restrict (h : program.SameClauses other) (restriction : Restriction) :
    (program.restrict restriction).SameClauses (other.restrict restriction) := by
  obtain ⟨hclauses, hrest⟩ := h
  obtain ⟨branch, clauses, relations, properties, denied, rights, limits, before, expires⟩ := program
  simp only [mk.injEq, true_and] at hrest
  obtain ⟨rfl, rfl, rfl, rfl, rfl, rfl, rfl, rfl⟩ := hrest
  cases restriction with
  | labels scope =>
    cases scope with
    | all => exact ⟨hclauses, rfl⟩
    | only labels => exact ⟨hclauses.append_right [labels], rfl⟩
  | branch _ | relations _ | properties _ | denyProperties _ | rights _ | maxNodes _ | maxWork _
  | maxRows _ | expiresBefore _ | notBefore _ => exact ⟨hclauses, rfl⟩

theorem SameClauses.foldl_restrict (h : program.SameClauses other)
    (restrictions : List Restriction) :
    (restrictions.foldl PlannerPredicates.restrict program).SameClauses
      (restrictions.foldl PlannerPredicates.restrict other) := by
  induction restrictions generalizing program other with
  | nil => exact h
  | cons restriction restrictions ih => exact ih (h.restrict restriction)

theorem union_right_comm (s t u : BTreeSet UInt64) : s ∪ t ∪ u = s ∪ u ∪ t := by
  refine Std.ExtTreeSet.ext_mem fun a => ?_
  simp only [Std.ExtTreeSet.mem_union_iff]
  exact or_right_comm

theorem min_right_comm_uint64 (a b c : UInt64) : min (min a b) c = min (min a c) b := by
  ac_rfl

/-- Two restrictions act on different parts of a program, or on one part in either order. -/
theorem restrict_comm (program : PlannerPredicates) (first second : Restriction) :
    ((program.restrict first).restrict second).SameClauses
      ((program.restrict second).restrict first) := by
  cases first with
  | labels a =>
    cases a with
    | all =>
      cases second with
      | labels scope => cases scope <;> exact ⟨.refl _, rfl⟩
      | _ => exact ⟨.refl _, rfl⟩
    | only labels =>
      cases second with
      | labels b =>
        cases b with
        | all => exact ⟨.refl _, rfl⟩
        | only labels' =>
          refine ⟨?_, rfl⟩
          simp only [restrict, append_assoc]
          exact .append_left _ (.swap _ _ _)
      | _ => exact ⟨.refl _, rfl⟩
  | _ =>
    cases second with
    | labels scope => cases scope <;> exact ⟨.refl _, rfl⟩
    | _ =>
      -- two parts, or one part narrowed twice by an operation that commutes with itself
      refine ⟨.refl _, ?_⟩
      simp only [restrict, Scope.intersect_right_comm, union_right_comm, intersect_right_comm,
        min_right_comm_uint64, max_right_comm_uint64]

theorem foldl_restrict_perm {restrictions restrictions' : List Restriction}
    (h : restrictions.Perm restrictions') (program : PlannerPredicates) :
    (restrictions.foldl restrict program).SameClauses (restrictions'.foldl restrict program) := by
  induction h generalizing program with
  | nil => exact .refl program
  | cons restriction _ ih => exact ih (program.restrict restriction)
  | swap first second restrictions => exact (restrict_comm program second first).foldl_restrict _
  | trans _ _ ih ih' => exact (ih program).trans (ih' program)

end PlannerPredicates

/-! ## The capability of an attenuated token -/

/-- The label lists, labels, relations, properties, rights, times and budgets that a program admits
are admitted by `previous`. -/
structure PlannerPredicates.AdmitsAtMost (program previous : PlannerPredicates) : Prop where
  vertex : ∀ labels, program.allowsVertex labels = true → previous.allowsVertex labels = true
  label : ∀ label, program.allowsLabel label = true → previous.allowsLabel label = true
  relation : ∀ relation,
    program.allowsRelation relation = true → previous.allowsRelation relation = true
  property : ∀ property,
    program.allowsProperty property = true → previous.allowsProperty property = true
  read : program.rights.canRead = true → previous.rights.canRead = true
  write : program.rights.canWrite = true → previous.rights.canWrite = true
  admin : program.rights = .admin → previous.rights = .admin
  time : ∀ branch nowMs, program.checkAt branch nowMs = .ok () → previous.checkAt branch nowMs = .ok ()
  nodes : ∀ amount, amount ≤ program.limits.maxNodes → amount ≤ previous.limits.maxNodes
  work : ∀ amount, amount ≤ program.limits.maxWork → amount ≤ previous.limits.maxWork
  rows : ∀ amount, amount ≤ program.limits.maxRows → amount ≤ previous.limits.maxRows

theorem Rights.admits_of_bits {left right : Rights} (h : left.bits &&& right.bits = left.bits) :
    (left.canRead = true → right.canRead = true) ∧
      (left.canWrite = true → right.canWrite = true) ∧ (left = .admin → right = .admin) := by
  revert h
  cases left <;> cases right <;> decide

theorem PlannerPredicates.Within.admitsAtMost {previous : PlannerPredicates}
    (h : program.Within previous) (hbranch : program.branch = previous.branch) :
    program.AdmitsAtMost previous where
  vertex := h.vertex
  label label hlabel := by
    -- one label is allowed exactly if a vertex with that label alone is
    have hsingle : ∀ program : PlannerPredicates,
        program.allowsLabel label = program.allowsVertex [label] := by
      intro program
      simp [PlannerPredicates.allowsLabel, PlannerPredicates.allowsVertex]
    rw [hsingle] at hlabel ⊢
    exact h.vertex _ hlabel
  relation := h.relation
  property := h.property
  read := (Rights.admits_of_bits h.rights).1
  write := (Rights.admits_of_bits h.rights).2.1
  admin := (Rights.admits_of_bits h.rights).2.2
  time branch nowMs htime := by
    rw [PlannerPredicates.checkAt_eq_ok] at htime ⊢
    exact ⟨htime.1.trans hbranch, UInt64.le_trans h.notBeforeMs htime.2.1,
      UInt64.lt_of_lt_of_le htime.2.2 h.expiresAtMs⟩
  nodes _ hle := UInt64.le_trans hle h.maxNodes
  work _ hle := UInt64.le_trans hle h.maxWork
  rows _ hle := UInt64.le_trans hle h.maxRows

/-- Permuting the restrictions keeps the token within its limits and its program unchanged. -/
theorem compile_of_perm {format : WireFormat} {token child : MacaroonToken}
    {restrictions restrictions' : List Restriction} {parent : PlannerPredicates}
    (hparent : compile token = .ok parent)
    (hchild : attenuateAll format token restrictions = .ok child)
    (hprogram : compile child = .ok program) (hperm : restrictions'.Perm restrictions) :
    ∃ child', attenuateAll format token restrictions' = .ok child' ∧
      compile child' = .ok program := by
  obtain ⟨predicates, hencode, rfl, hfits⟩ := attenuateAll_eq_ok.mp hchild
  obtain ⟨predicates', hencode', hpredicates⟩ := perm_comp_forall₂ hperm hencode
  have hcaveats : (token.addCaveats predicates').caveats.Perm (token.addCaveats predicates).caveats :=
    (hpredicates.map _).append_left _
  refine ⟨token.addCaveats predicates', attenuateAll_eq_ok.mpr
    ⟨predicates', hencode', rfl, fun hne => ?_⟩, ?_⟩
  · exact (hfits fun hnil => hne (hnil ▸ hperm).eq_nil).subperm hcaveats.subperm
  · obtain ⟨branch, whole, -, hiff⟩ := compile_addCaveats hparent
    obtain ⟨hshape, hkeeps, rfl⟩ := (hiff _ _ hencode _).mp hprogram
    refine (hiff _ _ hencode' _).mpr ⟨?_, fun restriction hmem =>
      hkeeps restriction (hperm.mem_iff.mp hmem),
      ((foldl_restrict_perm hperm whole).finish_eq branch).symm⟩
    rw [validateShape_eq_ok] at hshape ⊢
    exact ⟨⟨hshape.1.1, hshape.1.2.1, hcaveats.length_eq.trans_le hshape.1.2.2⟩,
      fun caveat hcaveat => hshape.2 caveat (hcaveats.mem_iff.mp hcaveat)⟩

/-- Attenuation only narrows, in any order of the restrictions, and the narrowing test on compiled
programs of one branch is exact. -/
theorem attenuation_narrows :
    (∀ (format : WireFormat) (token child : MacaroonToken) (restrictions : List Restriction)
      (parent program : PlannerPredicates), compile token = .ok parent →
      attenuateAll format token restrictions = .ok child → compile child = .ok program →
      program.AdmitsAtMost parent ∧ program.narrows parent = true ∧
        ∀ restrictions' : List Restriction, restrictions'.Perm restrictions →
          ∃ child', attenuateAll format token restrictions' = .ok child' ∧
            compile child' = .ok program) ∧
    (∀ (token token' : MacaroonToken) (program previous : PlannerPredicates),
      compile token = .ok program → compile token' = .ok previous →
      program.branch = previous.branch →
      (program.narrows previous = true ↔ program.Within previous)) := by
  refine ⟨?_, ?_⟩
  · intro format token child restrictions parent program hparent hchild hprogram
    have hbounded := bounded_of_compile hparent
    have hbounded' := bounded_of_compile hprogram
    obtain ⟨predicates, hencode, rfl, -⟩ := attenuateAll_eq_ok.mp hchild
    obtain ⟨branch, whole, rfl, hiff⟩ := compile_addCaveats hparent
    obtain ⟨-, -, hrestricted⟩ := (hiff _ _ hencode _).mp hprogram
    have hwithin : program.Within (whole.finish branch) :=
      hrestricted ▸ (PlannerPredicates.foldl_restrict_within whole restrictions).finish branch
    have hbranch : program.branch = (whole.finish branch).branch := by
      rw [hrestricted]
      rfl
    exact ⟨hwithin.admitsAtMost hbranch,
      (PlannerPredicates.narrows_iff_within hbounded' hbounded hbranch).mpr hwithin,
      fun restrictions' hperm => compile_of_perm hparent hchild hprogram hperm⟩
  · intro token token' program previous hprogram hprevious hbranch
    exact PlannerPredicates.narrows_iff_within (bounded_of_compile hprogram)
      (bounded_of_compile hprevious) hbranch

/-- A root token with the ten required restrictions. -/
def sampleToken : MacaroonToken where
  identifier := "fgdb-warden:1:00:6d:0:0".toList
  location := "fgdb/warden/v1".toList
  caveats :=
    [.custom branchKey "main".toList, .custom labelsKey ['*'], .custom relationsKey ['*'],
      .custom propertiesKey ['*'], .custom rightsKey ['3'], .custom maxNodesKey "100".toList,
      .custom maxWorkKey "100".toList, .custom maxRowsKey "100".toList, .timeAfter 5,
      .timeBefore 90].map .firstParty

/-- A wire format with fixed-size packets. -/
def sampleFormat : WireFormat where
  addCaveat token predicate := { token with caveats := token.caveats ++ [.firstParty predicate] }
  length token := 64 + (token.caveats.map fun _ => 300).sum
  headBytes _ _ := 64
  caveatBytes _ := 300
  addCaveat_append _ _ := rfl
  length_additive _ := rfl

/-- Two label clauses, a deny list and the right to read. -/
def sampleRestrictions : List Restriction :=
  [.labels (.only {1, 2}), .labels (.only {2, 3}), .denyProperties {7}, .rights .read, .maxRows 10]

/-- The program of the sample token. -/
def sampleParent : PlannerPredicates where
  branch := "main".toList
  labelClauses := []
  relations := .all
  properties := .all
  deniedProperties := ∅
  rights := .readWrite
  limits := ⟨100, 100, 100⟩
  notBeforeMs := 5
  expiresAtMs := 90

/-- The program of the attenuated sample token. -/
def sampleProgram : PlannerPredicates :=
  { sampleParent with
    labelClauses := [{2, 1}, {3, 2}]
    deniedProperties := {7}
    rights := .read
    limits.maxRows := 10 }

/-- The sample token with the encoded restrictions. -/
def sampleChild : MacaroonToken :=
  sampleToken.addCaveats
    [.custom labelsKey "0000000000000001,0000000000000002".toList,
      .custom labelsKey "0000000000000002,0000000000000003".toList,
      .custom denyPropertiesKey "0000000000000007".toList, .custom rightsKey ['1'],
      .custom maxRowsKey "10".toList]

/-- The attenuated sample token keeps its parent's ceilings and compiles to one program, also with
its restrictions appended in reverse. -/
theorem attenuation_narrows_sample : compile sampleToken = .ok sampleParent ∧
      attenuateAll sampleFormat sampleToken sampleRestrictions = .ok sampleChild ∧
      compile sampleChild = .ok sampleProgram ∧ sampleProgram.AdmitsAtMost sampleParent ∧
      sampleProgram.narrows sampleParent = true ∧
      ∃ child, attenuateAll sampleFormat sampleToken sampleRestrictions.reverse = .ok child ∧
        compile child = .ok sampleProgram := by
  have hparent : compile sampleToken = .ok sampleParent := by decide +kernel
  have hchild : attenuateAll sampleFormat sampleToken sampleRestrictions = .ok sampleChild := by
    decide +kernel
  have hprogram : compile sampleChild = .ok sampleProgram := by decide +kernel
  obtain ⟨hadmits, hnarrows, hperm⟩ := attenuation_narrows.1 sampleFormat sampleToken sampleChild
    sampleRestrictions sampleParent sampleProgram hparent hchild hprogram
  exact ⟨hparent, hchild, hprogram, hadmits, hnarrows, hperm _ (List.reverse_perm _)⟩

end FrankenGraph.Warden
