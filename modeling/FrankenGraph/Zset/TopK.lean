import FrankenGraph.Zset.Checked
import FrankenGraph.Library.Merge

/-!
# Incremental ordered windows

`IncrementalTopK` (`zset/incremental/topk.rs`): the whole input bag is kept, and with it
the occurrences from `offset` on, at most `count` of them, in the order of the keys. A tick walks over
the old counts and the staged replacements in one ordered merge and never expands a count.

Results:
* `coeff_selectWindow`: the walk takes what dropping and taking occurrences takes
* `prepare_cases`: which ticks are accepted, and what they stage
* `checkedPrepare_follows`: a refused request only ends a tick earlier
* `topk_exact`: rows, deltas and refusals along every run
-/

namespace FrankenGraph.Zset

open Std List Std.ExtTreeMap

/-- `TopKError` (L19-24) without `Delta`, which is `CallError.refused`. -/
inductive TopKError where
  | negativeMultiplicity
  deriving DecidableEq, Repr

variable {T : Type} [Ord T] [TransOrd T]

/-- `IncrementalTopK` (L45-50). -/
structure IncrementalTopK (T : Type) [Ord T] [TransOrd T] where
  counts : ZSet T
  rows : ZSet T
  offset : UInt64
  count : UInt64

/-- `TopKUpdate` (L204-209). -/
structure TopKUpdate (T : Type) [Ord T] [TransOrd T] where
  replacements : BTreeMap T Int
  rows : ZSet T
  delta : ZSet T

/-- The retained counts merged with the staged replacements, which come in the place of the counts of
their keys (L153-171). -/
def windowEntries (counts : ZSet T) (replacements : BTreeMap T Int) : List (T × Int) :=
  overlayBy Prod.fst counts.iter replacements.toList

variable [LawfulEqOrd T] [DecidableEq T]

/-- The walk of `select_window` (L152-200): `skip` occurrences are passed over, and `remaining`
ones are selected. -/
def walk : List (T × Int) → Int → Int → ZSet T → ZSet T
  | [], _, _, rows => rows
  | (key, weight) :: entries, skip, remaining, rows =>
    if remaining = 0 then rows
    else if weight ≤ skip then walk entries (skip - weight) remaining rows
    else
      let available := weight - skip
      let selected := if available < remaining then available else remaining
      walk entries 0 (remaining - selected) (rows.accumulate key selected)

/-- `select_window` (L140-201). -/
def selectWindow (counts : ZSet T) (replacements : BTreeMap T Int) (offset count : UInt64) : ZSet T :=
  walk (windowEntries counts replacements) offset.toNat count.toNat ZSet.new

namespace IncrementalTopK

/-- `new` (L53-60). -/
def new (offset count : UInt64) : IncrementalTopK T where
  counts := ZSet.new
  rows := ZSet.new
  offset := offset
  count := count

/-- The check of a replacement (L105-110). -/
def checkWeight (change : T × Int) : Option TopKError :=
  if change.2 < 0 then some .negativeMultiplicity else none

/-- `prepare` (L97-127). -/
def prepare (s : IncrementalTopK T) (changes : ZSet T) : Except TopKError (TopKUpdate T) := do
  let replacements := s.counts.prepareIntegration changes
  replacements.toList.foldlM (guarded checkWeight fun _ _ => ()) ()
  let rows := selectWindow s.counts replacements s.offset s.count
  return { replacements, rows, delta := rows.minus s.rows }

/-- `prepare` (L97-127) with its requests; those of `select_window` are asked as one part. -/
def checkedPrepare (s : IncrementalTopK T) (changes : ZSet T) :
    Effect (CallError ZSetError TopKError) Answers (TopKUpdate T) := do
  asking Checked.event
  let replacements ← asking (Checked.prepareIntegration s.counts changes)
  rounds Checked.event (pure ()) checkWeight (fun _ _ => ()) replacements.toList ()
  asking Checked.work
  let rows := selectWindow s.counts replacements s.offset s.count
  let delta ← asking (Checked.minus rows s.rows)
  asking Checked.event
  return { replacements, rows, delta }

/-- `TopKUpdate::commit` (L223-233). -/
def commit (s : IncrementalTopK T) (update : TopKUpdate T) : IncrementalTopK T × ZSet T :=
  ({ s with counts := s.counts.publish update.replacements, rows := update.rows }, update.delta)

/-- A call of `prepare` whose update is committed or dropped. -/
def run (s : IncrementalTopK T) (call : Call (ZSet T)) :
    Ended (CallError ZSetError TopKError) (ZSet T) × IncrementalTopK T :=
  call.run checkedPrepare commit s

theorem checkedPrepare_follows (s : IncrementalTopK T) (changes : ZSet T) :
    Follows (s.checkedPrepare changes) (s.prepare changes) := by
  refine .asking_bind (Checked.request_computes _) ?_
  refine .asking_bind (Checked.prepareIntegration_computes s.counts changes) ?_
  refine (rounds_follows (Checked.request_computes _) (.pure rfl) _ _ _ _).bind fun _ _ => ?_
  refine .asking_bind Checked.work_computes (.asking_bind (Checked.minus_computes _ s.rows) ?_)
  exact .asking_bind (Checked.request_computes _) .pure

end IncrementalTopK

/-! ## The walk -/

/-- The walk selects what remains of the occurrences after some are dropped, up to a number. -/
theorem coeff_walk (entries : List (T × Int)) (hentries : ∀ e ∈ entries, 0 ≤ e.2)
    (skip remaining : Nat) (rows : ZSet T) (k : T) :
    (walk entries skip remaining rows).coeff k =
      rows.coeff k + ((((occurrences entries).drop skip).take remaining).count k : Int) := by
  induction entries generalizing skip remaining rows with
  | nil => simp [walk, occurrences]
  | cons e entries ih =>
    obtain ⟨key, weight⟩ := e
    obtain ⟨hweight, hnonneg⟩ := forall_mem_cons.mp hentries
    obtain ⟨n, rfl⟩ := Int.eq_ofNat_of_zero_le hweight
    have hoccurrences : occurrences ((key, (n : Int)) :: entries) =
        replicate n key ++ occurrences entries := by
      simp [occurrences]
    rw [walk, hoccurrences]
    by_cases hremaining : remaining = 0
    · simp [hremaining]
    rw [if_neg (by exact_mod_cast hremaining)]
    by_cases hskip : n ≤ skip
    · -- The whole key is passed over.
      have hdrop : (replicate n key ++ occurrences entries).drop skip =
          (occurrences entries).drop (skip - n) := by
        rw [drop_append, drop_replicate, Nat.sub_eq_zero_of_le hskip, length_replicate]
        rfl
      rw [if_pos (by exact_mod_cast hskip), show (skip : Int) - n = ((skip - n : Nat) : Int) by omega,
        ih hnonneg, hdrop]
    · rw [if_neg (by exact_mod_cast hskip)]
      dsimp only
      have hselected : (if (n : Int) - skip < remaining then (n : Int) - skip else remaining) =
          ((min (n - skip) remaining : Nat) : Int) := by
        split_ifs <;> omega
      have hrest : (remaining : Int) - ((min (n - skip) remaining : Nat) : Int) =
          ((remaining - (n - skip) : Nat) : Int) := by
        omega
      have hdrop : (replicate n key ++ occurrences entries).drop skip =
          replicate (n - skip) key ++ occurrences entries := by
        rw [drop_append_of_le_length (by rw [length_replicate]; omega), drop_replicate]
      have hzero := ih hnonneg 0 (remaining - (n - skip))
      rw [Nat.cast_zero] at hzero
      rw [hselected, hrest, hzero, ZSet.coeff_accumulate, hdrop, take_append,
        take_replicate, length_replicate, count_append, count_replicate,
        drop_zero, Nat.min_comm]
      by_cases hkey : key = k
      · simp [hkey, add_assoc]
      · simp [hkey]

/-! ## Listings of a bag -/

/-- A list has every key as often as a bag does, in the order of the keys. -/
structure Lists (bag : T → Int) (l : List T) : Prop where
  ordered : l.Pairwise fun a b => (compare a b).isLE
  count_eq : ∀ k, (l.count k : Int) = bag k

theorem Lists.unique {bag : T → Int} {l l' : List T} (h : Lists bag l) (h' : Lists bag l') : l = l' := by
  refine List.Perm.eq_of_pairwise (fun a b _ _ hab hba => ?_) h.ordered h'.ordered ?_
  · exact LawfulEqOrd.eq_of_compare (OrientedCmp.isLE_antisymm hab hba)
  · refine perm_iff_count.mpr fun k => ?_
    have heq := (h.count_eq k).trans (h'.count_eq k).symm
    exact_mod_cast heq

omit [LawfulEqOrd T] [DecidableEq T] in
theorem ordered_occurrences {entries : List (T × Int)} (h : Ascending Prod.fst entries) :
    (occurrences entries).Pairwise fun a b => (compare a b).isLE := by
  induction entries with
  | nil => exact List.Pairwise.nil
  | cons e entries ih =>
    obtain ⟨hfirst, hrest⟩ := pairwise_cons.mp h
    change (replicate e.2.toNat e.1 ++ occurrences entries).Pairwise _
    refine pairwise_append.mpr ⟨?_, ih hrest, fun a ha b hb => ?_⟩
    · refine pairwise_replicate.mpr (.inr ?_)
      rw [@ReflCmp.compare_self T compare _ e.1]
      rfl
    · obtain ⟨e', he', hb⟩ := mem_flatMap.mp hb
      rw [eq_of_mem_replicate ha, eq_of_mem_replicate hb, hfirst e' he']
      rfl

variable {counts : ZSet T} {replacements : BTreeMap T Int}

omit [DecidableEq T] in
/-- An entry of the merge is a replacement, or an old count that is not replaced. -/
theorem mem_windowEntries {k : T} {w : Int} : (k, w) ∈ windowEntries counts replacements ↔
      replacements[k]? = some w ∨ replacements[k]? = none ∧ counts.weight k = some w := by
  have hcounts : Ascending Prod.fst counts.iter := counts.entries.ascending_toList
  rw [windowEntries, mem_overlayBy hcounts replacements.ascending_toList,
    mem_toList_iff_getElem?_eq_some, ZSet.mem_iter]
  refine or_congr_right ?_
  rw [and_comm]
  refine and_congr_left fun _ => ?_
  constructor
  · intro hnot
    cases hreplaced : replacements[k]? with
    | none => rfl
    | some w' =>
      exact absurd rfl (hnot (k, w') (mem_toList_iff_getElem?_eq_some.mpr hreplaced))
  · rintro hnone ⟨k', w'⟩ hmem rfl
    cases hnone.symm.trans (mem_toList_iff_getElem?_eq_some.mp hmem)

/-- The occurrences of the merge list the counts after the tick. -/
theorem lists_windowEntries (hnonneg : ∀ k, 0 ≤ nextCount counts replacements k) :
    (∀ e ∈ windowEntries counts replacements, 0 ≤ e.2) ∧
      Lists (nextCount counts replacements) (occurrences (windowEntries counts replacements)) := by
  have hordered : Ascending Prod.fst (windowEntries counts replacements) :=
    pairwise_overlayBy counts.entries.ascending_toList replacements.ascending_toList
  have hvalue : ∀ k w, (k, w) ∈ windowEntries counts replacements →
      w = nextCount counts replacements k := by
    intro k w hmem
    rcases mem_windowEntries.mp hmem with hreplaced | ⟨hnone, hold⟩
    · rw [nextCount, hreplaced]
      rfl
    · rw [nextCount, hnone]
      exact (ZSet.weight_eq_some.mp hold).2.symm
  have hentries : ∀ e ∈ windowEntries counts replacements, 0 ≤ e.2 := by
    intro e he
    rw [hvalue e.1 e.2 he]
    exact hnonneg e.1
  refine ⟨hentries, ordered_occurrences hordered, fun k => ?_⟩
  rw [count_occurrences _ hentries]
  obtain ⟨hin, hout⟩ := sum_single_of_nodup hordered.nodup_map k fun w : Int => w
  by_cases hk : k ∈ (windowEntries counts replacements).map Prod.fst
  · obtain ⟨⟨k', w⟩, hmem, rfl⟩ := mem_map.mp hk
    rw [hin w hmem]
    exact hvalue _ _ hmem
  · rw [hout hk]
    have hnot : ∀ w, (k, w) ∉ windowEntries counts replacements := fun w hmem =>
      hk (mem_map.mpr ⟨_, hmem, rfl⟩)
    unfold nextCount
    cases hreplaced : replacements[k]? with
    | some w => exact absurd (mem_windowEntries.mpr (.inl hreplaced)) (hnot w)
    | none =>
      cases hold : counts.weight k with
      | some w => exact absurd (mem_windowEntries.mpr (.inr ⟨hreplaced, hold⟩)) (hnot w)
      | none => exact (ZSet.weight_eq_none.mp hold).symm

/-- The selected window has the occurrences that are left when the first ones are dropped. -/
theorem coeff_selectWindow (hnonneg : ∀ k, 0 ≤ nextCount counts replacements k)
    (offset count : UInt64) {l : List T} (hl : Lists (nextCount counts replacements) l) (k : T) :
    (selectWindow counts replacements offset count).coeff k =
      (((l.drop offset.toNat).take count.toNat).count k : Int) := by
  obtain ⟨hentries, hlists⟩ := lists_windowEntries hnonneg
  rw [selectWindow, coeff_walk _ hentries, ZSet.coeff_new, zero_add, hl.unique hlists]

/-! ## Accepted ticks -/

namespace IncrementalTopK

variable {s : IncrementalTopK T} {changes : ZSet T}

/-- The integrated count of a key after a tick. -/
def next (s : IncrementalTopK T) (changes : ZSet T) (k : T) : Int :=
  s.counts.coeff k + changes.coeff k

/-- A tick is accepted when no count becomes negative, and otherwise refused. -/
theorem prepare_cases (hs : ∀ k, 0 ≤ s.counts.coeff k) (changes : ZSet T) :
    (∃ update, s.prepare changes = .ok update ∧ (∀ k, 0 ≤ s.next changes k) ∧
      update.replacements = s.counts.prepareIntegration changes ∧
      update.rows = selectWindow s.counts update.replacements s.offset s.count ∧
      update.delta = update.rows.minus s.rows) ∨
    s.prepare changes = .error .negativeMultiplicity ∧ ∃ k, s.next changes k < 0 := by
  have hloop := foldlM_guarded checkWeight (fun (_ : Unit) (_ : T × Int) => ())
    (s.counts.prepareIntegration changes).toList ()
  have hchecks_iff := ZSet.refuses_none_iff TopKError.negativeMultiplicity hs changes
  unfold prepare
  dsimp only
  rw [hloop]
  cases hchecks : (s.counts.prepareIntegration changes).toList.findSome? checkWeight with
  | none => exact .inl ⟨_, rfl, hchecks_iff.mp hchecks, rfl, rfl, rfl⟩
  | some error =>
    cases error
    refine .inr ⟨rfl, ?_⟩
    by_contra hnone
    push Not at hnone
    cases hchecks.symm.trans (hchecks_iff.mpr hnone)

end IncrementalTopK

/-! ## Runs -/

/-- The states that committed ticks lead to, with their inputs. A tick that fails, or whose guard is
dropped, publishes nothing. -/
inductive TopKRuns (offset count : UInt64) : List (ZSet T) → IncrementalTopK T → Prop where
  | start : TopKRuns offset count [] (.new offset count)
  | commit {inputs : List (ZSet T)} {s : IncrementalTopK T} {changes : ZSet T}
      {update : TopKUpdate T} (hrun : TopKRuns offset count inputs s)
      (hok : s.prepare changes = .ok update) :
      TopKRuns offset count (inputs ++ [changes]) (s.commit update).1

namespace TopKRuns

variable {offset count : UInt64} {inputs : List (ZSet T)} {s : IncrementalTopK T}

/-- What every state that committed ticks lead to holds. -/
structure Sound (offset count : UInt64) (inputs : List (ZSet T)) (s : IncrementalTopK T) : Prop where
  offset_eq : s.offset = offset
  count_eq : s.count = count
  counts_eq : ∀ k, s.counts.coeff k = integrated inputs k
  nonneg : ∀ k, 0 ≤ integrated inputs k
  rows_eq : ∀ (l : List T), Lists (integrated inputs) l → ∀ k,
    s.rows.coeff k = (((l.drop offset.toNat).take count.toNat).count k : Int)

theorem sound (h : TopKRuns offset count inputs s) : Sound offset count inputs s := by
  induction h with
  | start =>
    refine ⟨rfl, rfl, fun k => ZSet.coeff_new, fun k => le_rfl, fun l hl k => ?_⟩
    have hempty : l = [] := by
      refine hl.unique ⟨List.Pairwise.nil, fun k => rfl⟩
    rw [hempty, drop_nil, take_nil]
    exact ZSet.coeff_new
  | @commit inputs s changes update hrun hok ih =>
    have hs : ∀ k, 0 ≤ s.counts.coeff k := fun k => by
      rw [ih.counts_eq]
      exact ih.nonneg k
    rcases IncrementalTopK.prepare_cases hs changes with
      ⟨update', hok', hnonneg, hreplacements, hrows, -⟩ | ⟨herror, -⟩
    · cases hok.symm.trans hok'
      have hnext : ∀ k, s.next changes k = integrated (inputs ++ [changes]) k := fun k => by
        rw [IncrementalTopK.next, ih.counts_eq, integrated_concat]
      have hcount : ∀ k, nextCount s.counts update.replacements k =
          integrated (inputs ++ [changes]) k := fun k => by
        rw [hreplacements, nextCount_eq, ← hnext]
        rfl
      refine ⟨ih.offset_eq, ih.count_eq, fun k => ?_, fun k => ?_, fun l hl k => ?_⟩
      · change (s.counts.publish update.replacements).coeff k = _
        rw [ZSet.coeff_publish]
        exact hcount k
      · rw [← hnext]
        exact hnonneg k
      · change update.rows.coeff k = _
        rw [hrows, ih.offset_eq, ih.count_eq]
        refine coeff_selectWindow (fun k => ?_) offset count ?_ k
        · rw [hcount, ← hnext]
          exact hnonneg k
        · rwa [show nextCount s.counts update.replacements = integrated (inputs ++ [changes]) from
            funext hcount]
    · cases hok.symm.trans herror

end TopKRuns

/-- Along every run, for every offset and count: the integrated input has exactly one listing in the
order of the keys, and the rows are what is left of it when `offset` occurrences are dropped and
`count` are taken. A call commits what was prepared and returns the difference of the rows, or it
leaves the state as it was; it fails with an error of its own only when an integrated count would be
negative, for any key, and always then when no request is refused. -/
theorem topk_exact (offset count : UInt64) (inputs : List (ZSet T)) (s : IncrementalTopK T)
    (h : TopKRuns offset count inputs s) :
    (∃ l, Lists (integrated inputs) l ∧ ∀ k,
      s.rows.coeff k = (((l.drop offset.toNat).take count.toNat).count k : Int)) ∧
    (∀ l, Lists (integrated inputs) l → ∀ k,
      s.rows.coeff k = (((l.drop offset.toNat).take count.toNat).count k : Int)) ∧
    ∀ call : Call (ZSet T), Transacts (s.prepare call.input) s.commit call s (s.run call) ∧
      (∀ output, (s.run call).1 = .committed output → ∀ k,
        output.coeff k = (s.run call).2.rows.coeff k - s.rows.coeff k) ∧
      (false ∉ call.answers → ((s.run call).1 = .failed (.own .negativeMultiplicity) ↔
        ∃ k, integrated (inputs ++ [call.input]) k < 0)) ∧
      ((s.run call).1 = .failed (.own .negativeMultiplicity) →
        ∃ k, integrated (inputs ++ [call.input]) k < 0) := by
  have hsound := h.sound
  have hs : ∀ k, 0 ≤ s.counts.coeff k := fun k => by
    rw [hsound.counts_eq]
    exact hsound.nonneg k
  refine ⟨?_, hsound.rows_eq, fun call => ?_⟩
  · have hcount : nextCount s.counts ∅ = integrated inputs := funext fun k => by
      rw [nextCount, getElem?_empty, Option.getD_none, hsound.counts_eq]
    have hnonneg : ∀ k, 0 ≤ nextCount s.counts ∅ k := fun k => by
      rw [hcount]
      exact hsound.nonneg k
    have hlists := (lists_windowEntries hnonneg).2
    rw [hcount] at hlists
    exact ⟨_, hlists, hsound.rows_eq _ hlists⟩
  have hcall : Transacts _ _ call s (s.run call) :=
    Call.run_transacts (s.checkedPrepare_follows call.input)
  have hnext : ∀ k, s.next call.input k = integrated (inputs ++ [call.input]) k := fun k => by
    rw [IncrementalTopK.next, hsound.counts_eq, integrated_concat]
  have hiff : s.prepare call.input = .error .negativeMultiplicity ↔
      ∃ k, integrated (inputs ++ [call.input]) k < 0 := by
    rcases IncrementalTopK.prepare_cases hs call.input with ⟨update, hok, hnonneg, -⟩ | ⟨herror, k, hneg⟩
    · refine iff_of_false (fun herror => ?_) ?_
      · cases hok.symm.trans herror
      · rintro ⟨k, hneg⟩
        rw [← hnext] at hneg
        exact absurd hneg (Int.not_lt.mpr (hnonneg k))
    · exact iff_of_true herror ⟨k, hnext k ▸ hneg⟩
  refine ⟨hcall, fun output hcommitted k => ?_, fun hgranted => ?_, fun hfailed => ?_⟩
  · obtain ⟨update, hok, hstate, houtput⟩ := hcall.committed output hcommitted
    rcases IncrementalTopK.prepare_cases hs call.input with
      ⟨update', hok', -, -, -, hdelta⟩ | ⟨herror, -⟩
    · cases hok.symm.trans hok'
      rw [hstate, houtput, ← ZSet.coeff_minus]
      exact congrArg (ZSet.coeff · k) hdelta
    · cases hok.symm.trans herror
  · rw [hcall.failed_iff hgranted, hiff]
  · exact hiff.mp (hcall.own_error _ hfailed)

/-- A window of two occurrences after the first one cuts a key at both ends. -/
theorem topk_exact_sample :
    ∃ s : IncrementalTopK Nat, TopKRuns 1 2 [ZSet.fromUpdates [(5, 4)]] s ∧ s.rows.coeff 5 = 2 := by
  obtain ⟨update, hok⟩ : ∃ update, (IncrementalTopK.new 1 2 : IncrementalTopK Nat).prepare
      (ZSet.fromUpdates [(5, 4)]) = .ok update := ⟨_, rfl⟩
  have hrun := @TopKRuns.commit Nat _ _ _ _ 1 2 [] _ _ update .start hok
  have hlists : Lists (integrated [(ZSet.fromUpdates [(5, 4)] : ZSet Nat)]) [5, 5, 5, 5] := by
    refine ⟨by decide, fun k => ?_⟩
    by_cases hk : k = 5
    · subst hk
      rfl
    · have hcoeff : (ZSet.fromUpdates [(5, 4)] : ZSet Nat).coeff k = 0 := by
        rw [ZSet.fromUpdates, ZSet.coeff_foldl_accumulate (fun e : Nat × Int => e.1) (fun e => e.2),
          ZSet.coeff_new]
        simp [Ne.symm hk]
      simp [integrated, hcoeff, Ne.symm hk]
  exact ⟨_, hrun, (topk_exact 1 2 _ _ hrun).2.1 _ hlists 5⟩

/-- A count would be negative, but the control ends the tick first. -/
theorem topk_refused_first : integrated [ZSet.fromUpdates [(5, -1)]] 5 < 0 ∧
    ((IncrementalTopK.new 0 1 : IncrementalTopK Nat).run
      ⟨ZSet.fromUpdates [(5, -1)], [false], true⟩).1 = .failed (.refused .control) :=
  ⟨by decide, rfl⟩

end FrankenGraph.Zset
