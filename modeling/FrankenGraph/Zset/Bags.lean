import FrankenGraph.Zset.ZSet

/-!
# Integrated bags

The differences of Z-sets (`zset.rs`), and the integrated inputs of the operators that keep bags: every
key has the sum of the weights that the ticks gave it.

Results:
* `ZSet.coeff_minus`: the difference of two Z-sets
* `nextCount_eq`: the weight of a key after a tick
* `count_occurrences`: how often a key is listed
-/

namespace FrankenGraph.Zset

open Std

variable {T : Type} [Ord T] [TransOrd T] [LawfulEqOrd T] [DecidableEq T]

namespace ZSet

/-- `negated` (L251-263). -/
def negated (z : ZSet T) : ZSet T :=
  z.iter.foldl (fun result e => result.accumulate e.1 (-e.2)) new

/-- `plus` (L265-274). -/
def plus (z other : ZSet T) : ZSet T :=
  z.integrate other

/-- `minus` (L277-285). -/
def minus (z other : ZSet T) : ZSet T :=
  z.plus other.negated

theorem coeff_negated (z : ZSet T) (k : T) : z.negated.coeff k = -z.coeff k := by
  rw [negated, coeff_foldl_accumulate (fun e : T × Int => e.1) (fun e => -e.2), coeff_new, zero_add,
    sum_iter_single z k (fun w => -w) neg_zero]

theorem coeff_minus (z other : ZSet T) (k : T) :
    (z.minus other).coeff k = z.coeff k - other.coeff k := by
  rw [minus, plus, coeff_integrate, coeff_negated, sub_eq_add_neg]

end ZSet

omit [LawfulEqOrd T] [DecidableEq T] in
/-- The integrated weight of a key. -/
def integrated (inputs : List (ZSet T)) (k : T) : Int :=
  (inputs.map fun delta => delta.coeff k).sum

omit [LawfulEqOrd T] [DecidableEq T] in
theorem integrated_concat (inputs : List (ZSet T)) (delta : ZSet T) (k : T) :
    integrated (inputs ++ [delta]) k = integrated inputs k + delta.coeff k := by
  simp [integrated]

omit [LawfulEqOrd T] [DecidableEq T] in
/-- The weight of a key under staged replacements: its replacement, or else its old weight. -/
def nextCount (counts : ZSet T) (replacements : BTreeMap T Int) (k : T) : Int :=
  (replacements[k]?).getD (counts.coeff k)

theorem nextCount_eq (counts delta : ZSet T) (k : T) :
    nextCount counts (counts.prepareIntegration delta) k = counts.coeff k + delta.coeff k := by
  rw [nextCount, ← ZSet.coeff_publish, ZSet.coeff_publish_prepareIntegration]

/-! ## Occurrences -/

omit [Ord T] [TransOrd T] [LawfulEqOrd T] [DecidableEq T] in
/-- The occurrences of a list of counted keys, in its order. -/
def occurrences (entries : List (T × Int)) : List T :=
  entries.flatMap fun e => List.replicate e.2.toNat e.1

omit [Ord T] [TransOrd T] [LawfulEqOrd T] in
theorem count_occurrences (entries : List (T × Int)) (hentries : ∀ e ∈ entries, 0 ≤ e.2) (k : T) :
    ((occurrences entries).count k : Int) =
      (entries.map fun e => if e.1 = k then e.2 else 0).sum := by
  induction entries with
  | nil => rfl
  | cons e entries ih =>
    obtain ⟨hweight, hnonneg⟩ := List.forall_mem_cons.mp hentries
    have hoccurrences : occurrences (e :: entries) =
        List.replicate e.2.toNat e.1 ++ occurrences entries := by
      simp [occurrences]
    rw [hoccurrences, List.count_append, List.count_replicate, Nat.cast_add, ih hnonneg, List.map_cons,
      List.sum_cons]
    by_cases hkey : e.1 = k
    · simp [hkey, Int.toNat_of_nonneg hweight]
    · simp [hkey]

end FrankenGraph.Zset
