import FrankenGraph.Library.Fallible
import FrankenGraph.Library.Quorum

/-!
# Members, configurations and quorums

The configuration half of `crates/fgdb-order/src/lib.rs` (L53-198):
member coordinates, the error type, and the verified stable or joint
configuration with its two quorum rules. A `BTreeSet` is `Std.ExtTreeSet`, which
iterates in ascending order.

Results:
* `Configuration.quorumIndex_isGreatest`: `quorum_index` is the greatest index that a
  quorum of the voters has reached, and two quorums share a voter.
-/

namespace FrankenGraph.Order

/-- `u64::MAX`. -/
def u64Max : ℕ := 2 ^ 64 - 1

/-- `u64::checked_add`. -/
def checkedAdd (a b : ℕ) : Option ℕ := if a + b ≤ u64Max then some (a + b) else none

/-- `u64::saturating_add`. -/
def saturatingAdd (a b : ℕ) : ℕ := min (a + b) u64Max

/-- `MemberId(u128)`. Zero is never a member of a configuration. -/
abbrev MemberId := ℕ

/-- `BTreeSet<MemberId>`. -/
abbrev MemberSet := Std.ExtTreeSet MemberId compare

/-- `[u8; 32]`. -/
abbrev Digest := BitVec 256

/-- `Domain([u8; 32])`. -/
structure Domain where
  digest : Digest
deriving DecidableEq

/-- `enum Error` (L539-567). -/
inductive Error
  | invalidConfiguration
  | invalidLimits
  | pipelineConfigurationBusy
  | invalidRecoveryState
  | wrongDomain
  | wrongConfiguration
  | wrongRecipient
  | unknownMember
  | notVoter
  | notLeader
  | invalidLeadershipTarget
  | leadershipTransferInProgress
  | staleLeadershipTransfer
  | awaitingDurability
  | stalePersistence
  | recoveryRequired
  | logFull
  | appendTooLarge
  | invalidMessage
  | committedConflict
  | entryIdentityConflict
  | counterExhausted
  | invalidSnapshot
  | snapshotRequired
  | snapshotConflict
  | staleSnapshotTransfer
deriving DecidableEq

/-! ## Configurations -/

/-- `struct JointVoters`. -/
structure JointVoters where
  old : MemberSet
  new : MemberSet
  old_ne : old.toList ≠ []
  new_ne : new.toList ≠ []
deriving DecidableEq

/-- `struct Configuration`. Every admitted voter group is nonempty. -/
structure Configuration where
  domain : Domain
  identity : Digest
  voters : MemberSet
  learners : MemberSet
  joint : Option JointVoters
  voters_ne : voters.toList ≠ []
deriving DecidableEq

namespace Configuration

/-- `collect_voters` (L87-100). -/
def collectVoters (voters : List MemberId) : Except Error {s : MemberSet // s.toList ≠ []} := do
  let members ← voters.foldlM (fun (members : MemberSet) member =>
    if member = 0 ∨ 1024 ≤ members.size ∨ member ∈ members then
      .error .invalidConfiguration
    else .ok (members.insert member)) ∅
  if h : members.toList = [] then .error .invalidConfiguration else .ok ⟨members, h⟩

/-- `Configuration::stable` (L102-126). -/
def stable (domain : Domain) (identity : Digest) (voters learners : List MemberId) :
    Except Error Configuration := do
  let voterSet ← collectVoters voters
  let learnerSet ← learners.foldlM (fun (learnerSet : MemberSet) member =>
    if member = 0 ∨ 1024 ≤ voterSet.1.size + learnerSet.size ∨ member ∈ voterSet.1 ∨
        member ∈ learnerSet then
      .error .invalidConfiguration
    else .ok (learnerSet.insert member)) ∅
  .ok { domain, identity, voters := voterSet.1, learners := learnerSet, joint := none,
        voters_ne := voterSet.2 }

/-- `Configuration::joint` (L132-144). -/
def jointOf (domain : Domain) (identity : Digest) (oldVoters newVoters learners : List MemberId) :
    Except Error Configuration := do
  let old ← collectVoters oldVoters
  let new ← collectVoters newVoters
  let configuration ← stable domain identity (old.1 ∪ new.1).toList learners
  .ok { configuration with
        joint := some { old := old.1, new := new.1, old_ne := old.2, new_ne := new.2 } }

/-- `members` (L168-170). -/
def members (c : Configuration) : List MemberId := (c.voters ∪ c.learners).toList

/-- `contains` (L172-174). -/
def contains (c : Configuration) (member : MemberId) : Bool :=
  c.voters.contains member || c.learners.contains member

/-- The `majority` closure of `quorum`. -/
def majority (members voters : MemberSet) : Bool :=
  decide (voters.toList.length / 2 < voters.toList.countP fun member => members.contains member)

/-- `quorum` (L176-183). -/
def quorum (c : Configuration) (members : MemberSet) : Bool :=
  match c.joint with
  | none => majority members c.voters
  | some joint => majority members joint.old && majority members joint.new

/-- The `majority_index` closure of `quorum_index`: the element
`select_nth_unstable` puts at rank `(len - 1) / 2`. -/
def majorityIndex (matched : MemberId → ℕ) (voters : MemberSet) : ℕ :=
  Quorum.orderStatistic (voters.toList.map matched)

/-- `quorum_index` (L185-197). -/
def quorumIndex (c : Configuration) (matched : MemberId → ℕ) : ℕ :=
  match c.joint with
  | none => majorityIndex matched c.voters
  | some joint => min (majorityIndex matched joint.old) (majorityIndex matched joint.new)

/-! ## Quorums meet -/

/-- The voter groups that must each reach a majority. -/
def groups (c : Configuration) : List MemberSet :=
  match c.joint with
  | none => [c.voters]
  | some joint => [joint.old, joint.new]

theorem groups_ne (c : Configuration) : c.groups ≠ [] := by
  unfold groups; split <;> simp

variable {c : Configuration}

theorem nonempty_of_mem_groups {g : MemberSet} (hg : g ∈ c.groups) : g.toList ≠ [] := by
  unfold groups at hg
  split at hg
  · rw [List.mem_singleton] at hg; rw [hg]; exact c.voters_ne
  · rename_i joint _
    rcases List.mem_pair.mp hg with rfl | rfl
    · exact joint.old_ne
    · exact joint.new_ne

/-- A set of members with a strict majority in every voter group. -/
def IsQuorum (c : Configuration) (A : Set MemberId) : Prop :=
  ∀ g ∈ c.groups, ∃ p : MemberId → Bool, (∀ m, p m = true → m ∈ A) ∧ Quorum.Majority g.toList p

theorem IsQuorum.mono {A B : Set MemberId} (hsub : A ⊆ B) (h : c.IsQuorum A) : c.IsQuorum B := by
  intro g hg
  obtain ⟨p, hp, hmaj⟩ := h g hg
  exact ⟨p, fun m hm => hsub (hp m hm), hmaj⟩

/-- Two quorums of one configuration share a member. -/
theorem IsQuorum.inter {A B : Set MemberId} (hA : c.IsQuorum A)
    (hB : c.IsQuorum B) : ∃ m, m ∈ A ∧ m ∈ B := by
  obtain ⟨g, hg⟩ := List.exists_mem_of_ne_nil _ c.groups_ne
  obtain ⟨p, hp, hmp⟩ := hA g hg
  obtain ⟨r, hr, hmr⟩ := hB g hg
  obtain ⟨m, _, h1, h2⟩ := Quorum.majority_inter hmp hmr
  exact ⟨m, hp m h1, hr m h2⟩

theorem majority_spec {members voters : MemberSet} (h : majority members voters = true) :
    Quorum.Majority voters.toList members.contains := by
  unfold majority at h
  unfold Quorum.Majority
  exact of_decide_eq_true h

theorem quorum_iff {members : MemberSet} :
    c.quorum members = true ↔ ∀ g ∈ c.groups, majority members g = true := by
  unfold quorum groups
  cases c.joint <;> simp

theorem le_quorumIndex_iff {matched : MemberId → ℕ} {i : ℕ} :
    i ≤ c.quorumIndex matched ↔ ∀ g ∈ c.groups, i ≤ majorityIndex matched g := by
  unfold quorumIndex groups
  cases c.joint <;> simp

theorem quorum_isQuorum {members : MemberSet}
    (h : c.quorum members = true) : c.IsQuorum {m | m ∈ members} := by
  intro g hg
  exact ⟨members.contains, fun m hm => Std.ExtTreeSet.contains_iff_mem.mp hm,
    majority_spec (quorum_iff.mp h g hg)⟩

theorem majorityIndex_spec (matched : MemberId → ℕ) {g : MemberSet} (hg : g.toList ≠ []) {k : ℕ}
    (hk : k ≤ majorityIndex matched g) :
    Quorum.Majority g.toList fun m => decide (k ≤ matched m) := by
  have hmaj := Quorum.majority_orderStatistic (l := g.toList.map matched) (by simpa using hg)
  unfold Quorum.Majority at hmaj ⊢
  rw [List.length_map, List.countP_map] at hmaj
  refine hmaj.trans_le (List.countP_mono_left fun m _ hm => ?_)
  simp only [Function.comp_apply, decide_eq_true_eq] at hm ⊢
  exact hk.trans hm

/-- The members that have reached `quorum_index` form a quorum. -/
theorem quorumIndex_spec (c : Configuration) (matched : MemberId → ℕ) :
    c.IsQuorum {m | c.quorumIndex matched ≤ matched m} := by
  intro g hg
  exact ⟨fun m => decide (c.quorumIndex matched ≤ matched m), fun m hm => of_decide_eq_true hm,
    majorityIndex_spec matched (nonempty_of_mem_groups hg) (le_quorumIndex_iff.mp le_rfl g hg)⟩

/-! ## The two rules agree -/

/-- A configuration that one of the two constructors has admitted. -/
def Admitted (c : Configuration) : Prop :=
  (∃ domain identity voters learners, stable domain identity voters learners = .ok c) ∨
    ∃ domain identity old new learners, jointOf domain identity old new learners = .ok c

/-- The voters whose match index has reached `i`. -/
def reached (c : Configuration) (matched : MemberId → ℕ) (i : ℕ) : MemberSet :=
  c.voters.filter fun m => decide (i ≤ matched m)

/-- Every listed member is among the voters that are collected. -/
theorem mem_collectVoters {voters : List MemberId} {s : {s : MemberSet // s.toList ≠ []}}
    (h : collectVoters voters = .ok s) {m : MemberId} (hm : m ∈ voters) : m ∈ s.1 := by
  obtain ⟨members, hfold, hs⟩ := bind_eq_ok.mp h
  have hmem : m ∈ members ∨ m ∈ [] := by
    refine foldlM_keeps (fun l (set : MemberSet) => m ∈ set ∨ m ∈ l) ?_ (.inr hm) hfold
    intro a l set next hset hnext
    split at hnext
    · cases hnext
    · cases hnext
      rw [Std.ExtTreeSet.mem_insert, Std.LawfulEqCmp.compare_eq_iff_eq]
      rw [List.mem_cons] at hset
      tauto
  split at hs
  · cases hs
  · cases hs
    exact hmem.resolve_right List.not_mem_nil

theorem stable_spec {domain : Domain} {identity : Digest} {voters learners : List MemberId}
    (h : stable domain identity voters learners = .ok c) :
    c.joint = none ∧ ∀ m ∈ voters, m ∈ c.voters := by
  obtain ⟨voterSet, hv, h⟩ := bind_eq_ok.mp h
  obtain ⟨learnerSet, hl, h⟩ := bind_eq_ok.mp h
  cases h
  exact ⟨rfl, fun m hm => mem_collectVoters hv hm⟩

/-- Each voter group of an admitted configuration consists of voters. -/
theorem Admitted.mem_voters (hc : c.Admitted) {g : MemberSet} (hg : g ∈ c.groups) {m : MemberId}
    (hm : m ∈ g) : m ∈ c.voters := by
  rcases hc with ⟨_, _, _, _, h⟩ | ⟨_, _, _, _, _, h⟩
  · rw [groups, (stable_spec h).1, List.mem_singleton] at hg
    rwa [← hg]
  · obtain ⟨old, _, h⟩ := bind_eq_ok.mp h
    obtain ⟨new, _, h⟩ := bind_eq_ok.mp h
    obtain ⟨stableOne, hstable, h⟩ := bind_eq_ok.mp h
    cases h
    refine (stable_spec hstable).2 m ?_
    rw [Std.ExtTreeSet.mem_toList, Std.ExtTreeSet.mem_union_iff]
    rcases List.mem_pair.mp hg with rfl | rfl
    · exact .inl hm
    · exact .inr hm

/-- A group of voters has a majority at `i` exactly if `i` is at most its index. -/
theorem majority_reached_iff (hc : c.Admitted) {g : MemberSet} (hg : g ∈ c.groups)
    {matched : MemberId → ℕ} {i : ℕ} :
    majority (c.reached matched i) g = true ↔ i ≤ majorityIndex matched g := by
  have hsame : g.toList.countP (fun m => (c.reached matched i).contains m) =
      g.toList.countP (fun m => decide (i ≤ matched m)) := by
    refine List.countP_congr fun m hm => ?_
    have hvoter := hc.mem_voters hg (Std.ExtTreeSet.mem_toList.mp hm)
    rw [Std.ExtTreeSet.contains_iff_mem, reached, Std.ExtTreeSet.mem_filter]
    simp [hvoter]
  unfold majority
  rw [hsame, decide_eq_true_eq]
  constructor
  · intro h
    refine Quorum.le_orderStatistic ?_
    unfold Quorum.Majority
    rwa [List.length_map, List.countP_map]
  · exact majorityIndex_spec matched (nonempty_of_mem_groups hg)

/-- `quorum_index` is the greatest index the voters have reached with a `quorum`, and two member
sets that pass `quorum` share a voter. -/
theorem quorumIndex_isGreatest (hc : c.Admitted) :
    (∀ matched, IsGreatest {i | c.quorum (c.reached matched i) = true} (c.quorumIndex matched)) ∧
      ∀ A B, c.quorum A = true → c.quorum B = true → ∃ m ∈ c.voters, m ∈ A ∧ m ∈ B := by
  refine ⟨fun matched => ?_, fun A B hA hB => ?_⟩
  · have hiff : ∀ i, c.quorum (c.reached matched i) = true ↔ i ≤ c.quorumIndex matched := by
      intro i
      rw [quorum_iff, le_quorumIndex_iff]
      exact forall₂_congr fun g hg => majority_reached_iff hc hg
    exact ⟨(hiff _).mpr le_rfl, fun i hi => (hiff i).mp hi⟩
  · obtain ⟨g, hg⟩ := List.exists_mem_of_ne_nil _ c.groups_ne
    obtain ⟨m, hm, hmA, hmB⟩ := Quorum.majority_inter (majority_spec (quorum_iff.mp hA g hg))
      (majority_spec (quorum_iff.mp hB g hg))
    exact ⟨m, hc.mem_voters hg (Std.ExtTreeSet.mem_toList.mp hm),
      Std.ExtTreeSet.contains_iff_mem.mp hmA, Std.ExtTreeSet.contains_iff_mem.mp hmB⟩

/-- A joint configuration that moves from one voter to three. -/
theorem quorumIndex_isGreatest_growing : ∃ c, jointOf ⟨0⟩ 0 [1] [1, 2, 3] [] = .ok c ∧
    IsGreatest {i | c.quorum (c.reached id i) = true} (c.quorumIndex id) := by
  have hok : (jointOf ⟨0⟩ 0 [1] [1, 2, 3] []).isOk = true := by decide
  cases h : jointOf ⟨0⟩ 0 [1] [1, 2, 3] [] with
  | error e => rw [h] at hok; cases hok
  | ok c => exact ⟨c, rfl, (quorumIndex_isGreatest (.inr ⟨_, _, _, _, _, h⟩)).1 id⟩

end Configuration

end FrankenGraph.Order
