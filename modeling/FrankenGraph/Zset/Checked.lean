import FrankenGraph.Zset.Bags
import FrankenGraph.Zset.Weights
import FrankenGraph.Library.Ticks

/-!
# Z-sets whose steps may be refused

The operations of `zset.rs` as they are called: each step asks a control, and each weight must be
admitted by the limb limit. Both answer from outside, so a statement for all answers holds for every
limit and every control; the limbs are ample when no answer is a refusal. A failed call returns its
receiver as the failure leaves it.

A weight is the integer that its one representation stands for, and a checked operation asks whether
its limit admits it: `checked_eq` says that this is what the operations of `zweight.rs` do.

Results:
* `Checked.checked_eq`: an operation on weights is a request and the exact integer
* `Checked.accumulate_outcome`, `Checked.integrate_outcome`: a call computes its operation, or fails
  with its receiver as it was
* `zset_group_laws`: Z-sets are the free abelian group on their keys
-/

namespace FrankenGraph.Zset

open Std

/-- `ZSetError` (L31-40): what was refused. -/
inductive ZSetError where
  | arithmetic
  | weightAdmission
  | control
  | callback
  deriving DecidableEq, Repr

variable {T U : Type} [Ord T] [TransOrd T] [LawfulEqOrd T] [DecidableEq T]
  [Ord U] [TransOrd U] [LawfulEqOrd U] [DecidableEq U]

namespace ZSet

/-- `product` (L352-370), without its checks. -/
def product (z : ZSet T) (other : ZSet U) : ZSet (T × U) :=
  z.iter.foldl (fun p left => other.iter.foldl
    (fun p right => p.accumulate (left.1, right.1) (left.2 * right.2)) p) new

theorem coeff_plus (z other : ZSet T) (k : T) :
    (z.plus other).coeff k = z.coeff k + other.coeff k :=
  coeff_integrate z other k

theorem coeff_product (z : ZSet T) (other : ZSet U) (a : T) (b : U) :
    (z.product other).coeff (a, b) = z.coeff a * other.coeff b := by
  have hrow : ∀ (p : ZSet (T × U)) (left : T × Int),
      (other.iter.foldl (fun p right => p.accumulate (left.1, right.1) (left.2 * right.2)) p).coeff
        (a, b) = p.coeff (a, b) + if left.1 = a then left.2 * other.coeff b else 0 := by
    intro p left
    rw [coeff_foldl_accumulate (fun right : U × Int => (left.1, right.1)), add_right_inj]
    by_cases hleft : left.1 = a
    · simp only [Prod.mk.injEq, hleft, true_and, if_true]
      exact sum_iter_single other b (left.2 * ·) (mul_zero _)
    · simp [hleft]
  rw [product, coeff_foldl hrow, coeff_new, zero_add]
  exact sum_iter_single z a (· * other.coeff b) (zero_mul _)

end ZSet

namespace Checked

/-- `event` (L373-378). -/
def event : Effect ZSetError Answers Unit :=
  request .control

/-- `admit` (L380-388). -/
def admitWeight : Effect ZSetError Answers Unit :=
  request .weightAdmission

/-- A checked operation on weights (`zweight.rs` L124-216), for the integer it stands for. -/
def checked (result : Int) : Effect ZSetError Answers Int := do
  request .arithmetic
  return result

/-- A step of a call on a receiver. -/
def step {ρ α : Type} (receiver : ρ) (code : Effect ZSetError Answers α) :
    Effect (ZSetError × ρ) Answers α :=
  code.translate id (·, receiver)

/-- A call on a local value, which is lost when the call fails. -/
def localCall {ρ α : Type} (code : Effect (ZSetError × ρ) Answers α) : Effect ZSetError Answers α :=
  code.translate id Prod.fst

/-- `accumulate` (L157-188). -/
def accumulate (z : ZSet T) (key : T) (w : Int) : Effect (ZSetError × ZSet T) Answers (ZSet T) := do
  step z event
  step z admitWeight
  if hw : w = 0 then return z
  else
    match z.weight key with
    | none => do
      step z event
      return z.insert key w hw
    | some old => do
      step z event
      let next ← step z (checked (old + w))
      return z.set key next

/-- `from_updates` (L145-155). -/
def fromUpdates (updates : List (T × Int)) : Effect ZSetError Answers (ZSet T) :=
  localCall (updates.foldlM (fun z e => accumulate z e.1 e.2) .new)

/-- A round that accumulates a weight that an operation computes. -/
def round (z : ZSet T) (key : T) (w : Int) : Effect (ZSetError × ZSet T) Answers (ZSet T) := do
  step z event
  let w ← step z (checked w)
  accumulate z key w

/-- `map` (L208-222) with a projection that does not fail. -/
def map (z : ZSet T) (project : T → U) : Effect ZSetError Answers (ZSet U) :=
  localCall (z.iter.foldlM (fun result e => round result (project e.1) e.2) .new)

/-- `checked_clone` (L226-232). -/
def clone (z : ZSet T) : Effect ZSetError Answers (ZSet T) :=
  map z id

/-- `negated` (L251-263). -/
def negated (z : ZSet T) : Effect ZSetError Answers (ZSet T) :=
  localCall (z.iter.foldlM (fun result e => round result e.1 (-e.2)) .new)

/-- `prepare_integration` (L319-338). -/
def prepareIntegration (z delta : ZSet T) : Effect ZSetError Answers (BTreeMap T Int) :=
  delta.iter.foldlM (fun replacements e => do
    event
    admitWeight
    let next ← checked (match z.weight e.1 with
      | some old => old + e.2
      | none => e.2)
    event
    return replacements.insert e.1 next) ∅

/-- `integrate` (L292-300), through `prepare_update` (L305-317) and its commit. -/
def integrate (z delta : ZSet T) : Effect (ZSetError × ZSet T) Answers (ZSet T) := do
  let replacements ← step z (prepareIntegration z delta)
  step z event
  return z.publish replacements

/-- `plus` (L265-274). -/
def plus (z other : ZSet T) : Effect ZSetError Answers (ZSet T) := do
  let result ← clone z
  localCall (integrate result other)

/-- `minus` (L277-285). -/
def minus (z other : ZSet T) : Effect ZSetError Answers (ZSet T) := do
  let inverse ← negated other
  plus z inverse

/-- `product` (L352-370). -/
def product (z : ZSet T) (other : ZSet U) : Effect ZSetError Answers (ZSet (T × U)) :=
  localCall (z.iter.foldlM (fun p left => do
    step p event
    other.iter.foldlM (fun p right => round p (left.1, right.1) (left.2 * right.2)) p) .new)

/-- The requests of a part of a call that has no error of its own: its events, admissions and checked
operations, with one answer for all of a kind. -/
def work : Effect ZSetError Answers Unit := do
  event
  admitWeight
  request .arithmetic

/-! ## What the calls compute -/

/-- An operation under a limit does what the request and the exact integer do. -/
theorem checked_eq {B E : Type} {big : BigInts B E} {result : Int}
    {op : Nat → Except E (ZWeight big)} (h : Exact ZWeight.value result op) (limit : Nat)
    (rest : Answers) :
    (checked result).exec ((op limit).toBool :: rest) =
      (((op limit).map ZWeight.value).mapError fun _ => .arithmetic, rest) := by
  cases hop : op limit with
  | error e => rfl
  | ok w =>
    change (Except.ok result, rest) = (.ok w.value, rest)
    rw [h.exact limit w hop]

/-- Code whose one result is `a`: it fails only when something is refused. -/
abbrev Computes {ε α : Type} (code : Effect ε Answers α) (a : α) : Prop :=
  Outcome code (· = a) fun _ => True

theorem checked_outcome {E : ZSetError → Prop} (result : Int) (h : E .arithmetic) :
    Outcome (checked result) (· = result) E :=
  .bind (.request h) fun _ _ => .pure rfl

theorem step_outcome {ρ α : Type} {receiver : ρ} {code : Effect ZSetError Answers α} {Q : α → Prop}
    (h : Outcome code Q fun _ => True) :
    Outcome (step receiver code) Q fun e => e.2 = receiver :=
  .translate (h.weaken (fun _ h => h) fun _ _ => rfl)

theorem localCall_computes {ρ α : Type} {code : Effect (ZSetError × ρ) Answers α} {a : α}
    (h : Computes code a) : Computes (localCall code) a :=
  .translate h

/-- Accumulating computes the new Z-set, or fails with the old one. -/
theorem accumulate_outcome (z : ZSet T) (key : T) (w : Int) :
    Outcome (accumulate z key w) (· = z.accumulate key w) fun e => e.2 = z := by
  unfold accumulate ZSet.accumulate
  refine .bind (step_outcome (.request trivial)) fun _ _ => ?_
  refine .bind (step_outcome (.request trivial)) fun _ _ => ?_
  split_ifs with hw
  · exact .pure rfl
  cases z.weight key with
  | none => exact .bind (step_outcome (.request trivial)) fun _ _ => .pure rfl
  | some old =>
    refine .bind (step_outcome (.request trivial)) fun _ _ => ?_
    refine .bind (step_outcome (checked_outcome _ trivial)) fun next hnext => .pure ?_
    rw [hnext]

theorem round_computes (z : ZSet T) (key : T) (w : Int) :
    Computes (round z key w) (z.accumulate key w) := by
  refine .bind (step_outcome (.request trivial)).anyError fun _ _ => ?_
  refine .bind (step_outcome (checked_outcome w trivial)).anyError fun _ hw => ?_
  rw [hw]
  exact (accumulate_outcome z key w).anyError

theorem fromUpdates_computes (updates : List (T × Int)) :
    Computes (fromUpdates updates) (ZSet.fromUpdates updates) := by
  refine localCall_computes (Outcome.foldlM ?_ updates _)
  intro z e
  exact (accumulate_outcome z e.1 e.2).anyError

omit [Ord T] [TransOrd T] [LawfulEqOrd T] [DecidableEq T] in
/-- A loop that accumulates a computed weight for each entry. -/
theorem rounds_computes (key : T × Int → U) (w : T × Int → Int) (l : List (T × Int)) :
    Computes (localCall (l.foldlM (fun z e => round z (key e) (w e)) .new))
      (l.foldl (fun z e => z.accumulate (key e) (w e)) .new) := by
  refine localCall_computes (Outcome.foldlM ?_ l _)
  intro z e
  exact round_computes z (key e) (w e)

omit [LawfulEqOrd T] [DecidableEq T] in
theorem map_computes (z : ZSet T) (project : T → U) : Computes (map z project) (z.map project) :=
  rounds_computes (fun e => project e.1) Prod.snd z.iter

theorem request_computes (e : ZSetError) : Computes (request e) () :=
  (Outcome.request trivial).weaken (fun _ _ => rfl) fun _ h => h

theorem work_computes : Computes work () :=
  .bind (request_computes _) fun _ _ => .bind (request_computes _) fun _ _ => request_computes _

theorem clone_computes (z : ZSet T) : Computes (clone z) z := by
  have hcopy : z.iter.foldl (fun z e => z.accumulate e.1 e.2) .new = z := by
    refine ZSet.ext_coeff fun k => ?_
    rw [ZSet.coeff_foldl_accumulate Prod.fst Prod.snd, ZSet.coeff_new, zero_add]
    exact ZSet.sum_iter_single z k id rfl
  have hloop := rounds_computes Prod.fst Prod.snd z.iter
  rwa [hcopy] at hloop

theorem negated_computes (z : ZSet T) : Computes (negated z) z.negated :=
  rounds_computes Prod.fst (fun e => -e.2) z.iter

omit [LawfulEqOrd T] [DecidableEq T] in
theorem prepareIntegration_computes (z delta : ZSet T) :
    Computes (prepareIntegration z delta) (z.prepareIntegration delta) := by
  refine .foldlM (fun replacements e => ?_) delta.iter ∅
  refine .bind (.request trivial) fun _ _ => .bind (.request trivial) fun _ _ => ?_
  refine .bind (checked_outcome _ trivial) fun next hnext => ?_
  exact .bind (.request trivial) fun _ _ => .pure (congrArg (replacements.insert e.1) hnext)

/-- Integrating computes the new Z-set, or fails with the old one. -/
theorem integrate_outcome (z delta : ZSet T) :
    Outcome (integrate z delta) (· = z.integrate delta) fun e => e.2 = z := by
  refine .bind (step_outcome (prepareIntegration_computes z delta)) fun replacements h => ?_
  refine .bind (step_outcome (.request trivial)) fun _ _ => .pure ?_
  rw [h]
  rfl

theorem plus_computes (z other : ZSet T) : Computes (plus z other) (z.plus other) := by
  refine .bind (clone_computes z) fun _ hclone => ?_
  rw [hclone]
  exact localCall_computes (integrate_outcome z other).anyError

theorem minus_computes (z other : ZSet T) : Computes (minus z other) (z.minus other) := by
  refine .bind (negated_computes other) fun _ hnegated => ?_
  rw [hnegated]
  exact plus_computes z other.negated

theorem product_computes (z : ZSet T) (other : ZSet U) :
    Computes (product z other) (z.product other) := by
  refine localCall_computes (.foldlM (fun p left => ?_) z.iter _)
  refine .bind (step_outcome (.request trivial)).anyError fun _ _ => ?_
  exact .foldlM (fun p right => round_computes p _ _) other.iter p

end Checked

open Checked (Computes)

/-- Z-sets are the free abelian group on their keys. No zero weight is kept, and every function of
finite support is the weights of one Z-set. `plus` and `minus` are the sum and the difference key by
key, `from_updates` does not depend on the order of the updates, `product` is bilinear, and the
difference of two Z-sets takes the old one to the new one. `accumulate` and `integrate` leave their
receiver as it was when they fail. A weight has one representation, and its operations are exact: each
of them is the step of the calls above that asks whether the limit admits it. -/
theorem zset_group_laws (T U : Type) [Ord T] [TransOrd T] [LawfulEqOrd T] [DecidableEq T]
    [Ord U] [TransOrd U] [LawfulEqOrd U] [DecidableEq U] {B E : Type} (big : BigInts B E) :
    (∀ (z : ZSet T) (k : T), z.weight k ≠ some 0) ∧
    (∀ f : T →₀ ℤ, ∃! z : ZSet T, ∀ k, z.coeff k = f k) ∧
    (∀ x y : ZSet T, Computes (Checked.plus x y) (x.plus y) ∧
      Computes (Checked.minus x y) (x.minus y) ∧
      ∀ k, (x.plus y).coeff k = x.coeff k + y.coeff k ∧
        (x.minus y).coeff k = x.coeff k - y.coeff k) ∧
    (∀ updates : List (T × Int),
      Computes (Checked.fromUpdates updates) (ZSet.fromUpdates updates) ∧
      ∀ updates', updates.Perm updates' → ZSet.fromUpdates updates' = ZSet.fromUpdates updates) ∧
    (∀ (x y : ZSet T) (u v : ZSet U), Computes (Checked.product x u) (x.product u) ∧
      (x.plus y).product u = (x.product u).plus (y.product u) ∧
      x.product (u.plus v) = (x.product u).plus (x.product v)) ∧
    (∀ new old : ZSet T, Computes (Checked.integrate old (new.minus old)) new) ∧
    (∀ (z : ZSet T) (answers rest : Answers) (error : ZSetError) (z' : ZSet T),
      (∀ key w, (Checked.accumulate z key w).exec answers = (.error (error, z'), rest) → z' = z) ∧
      ∀ delta, (Checked.integrate z delta).exec answers = (.error (error, z'), rest) → z' = z) ∧
    (∀ w other : ZWeight big, (w.value = other.value → w = other) ∧
      Exact ZWeight.value w.value w.checkedClone ∧
      Exact ZWeight.value (-w.value) w.checkedNeg ∧
      Exact ZWeight.value (w.value + other.value) (w.checkedAdd other) ∧
      Exact ZWeight.value (w.value - other.value) (w.checkedSub other) ∧
      Exact ZWeight.value (w.value * other.value) (w.checkedMul other)) ∧
    ∀ (result : Int) (op : Nat → Except E (ZWeight big)), Exact ZWeight.value result op →
      ∀ (limit : Nat) (rest : Answers), (Checked.checked result).exec ((op limit).toBool :: rest) =
        (((op limit).map ZWeight.value).mapError fun _ => .arithmetic, rest) := by
  refine ⟨fun z k h => z.nonzero k 0 h rfl, fun f => ?_, fun x y => ?_, fun updates => ?_,
    fun x y u v => ⟨Checked.product_computes x u, ?_, ?_⟩, fun new old => ?_,
    fun z answers rest error z' => ⟨fun key w herror => ?_, fun delta herror => ?_⟩,
    fun w other => ⟨ZWeight.ext_value, w.checkedClone_exact, w.checkedNeg_exact,
      w.checkedBinary_exact other big.add_exact, w.checkedBinary_exact other big.sub_exact,
      w.checkedBinary_exact other big.mul_exact⟩, fun result op => Checked.checked_eq⟩
  · have hvalues : ∀ k, (ZSet.fromUpdates (f.support.toList.map fun k => (k, f k))).coeff k =
        f k := by
      intro k
      unfold ZSet.fromUpdates
      rw [ZSet.coeff_foldl_accumulate Prod.fst Prod.snd, ZSet.coeff_new, zero_add, List.map_map]
      refine (sum_eq_single_of_nodup f.support.nodup_toList _ k fun b _ hb => if_neg hb).trans ?_
      simp [eq_comm]
    exact ⟨_, hvalues, fun z hz => ZSet.ext_coeff fun k => (hz k).trans (hvalues k).symm⟩
  · exact ⟨Checked.plus_computes x y, Checked.minus_computes x y, fun k =>
      ⟨ZSet.coeff_plus x y k, ZSet.coeff_minus x y k⟩⟩
  · refine ⟨Checked.fromUpdates_computes updates, fun updates' hperm => ZSet.ext_coeff fun k => ?_⟩
    unfold ZSet.fromUpdates
    rw [ZSet.coeff_foldl_accumulate Prod.fst Prod.snd, ZSet.coeff_foldl_accumulate Prod.fst Prod.snd]
    exact congrArg _ (hperm.map _).sum_eq.symm
  · refine ZSet.ext_coeff fun ⟨a, b⟩ => ?_
    simp only [ZSet.coeff_plus, ZSet.coeff_product, add_mul]
  · refine ZSet.ext_coeff fun ⟨a, b⟩ => ?_
    simp only [ZSet.coeff_plus, ZSet.coeff_product, mul_add]
  · have hnew : old.integrate (new.minus old) = new := by
      refine ZSet.ext_coeff fun k => ?_
      rw [ZSet.coeff_integrate, ZSet.coeff_minus, add_sub_cancel]
    refine (Checked.integrate_outcome old (new.minus old)).weaken (fun _ h => ?_) fun _ _ => trivial
    rw [h, hnew]
  · have houtcome := Checked.accumulate_outcome z key w answers
    rw [herror] at houtcome
    exact houtcome.1
  · have houtcome := Checked.integrate_outcome z delta answers
    rw [herror] at houtcome
    exact houtcome.1

/-- Two updates in either order, and a sum of weights that leaves the range of `i128`. -/
theorem zset_group_laws_swapped :
    (ZSet.fromUpdates [(1, 2), (3, 4)] : ZSet Nat) = ZSet.fromUpdates [(3, 4), (1, 2)] ∧
      ∀ w, (ZWeight.fromI128 ⟨2 ^ 127 - 1, by decide⟩ : ZWeight limbless).checkedAdd
        (ZWeight.fromI128 ⟨1, by decide⟩) 0 = .ok w → w.value = 2 ^ 127 := by
  have hlaws := zset_group_laws Nat Nat limbless
  exact ⟨(hlaws.2.2.2.1 [(3, 4), (1, 2)]).2 _ (.swap _ _ _),
    (hlaws.2.2.2.2.2.2.2.1 _ _).2.2.2.1.exact 0⟩

end FrankenGraph.Zset
