import Mathlib

/-!
# Signed machine integers

A signed integer of `w` bits is an integer with a proof that it fits. Checked operations compute in `ℤ`
and then test; division truncates toward zero and is `Int.tdiv` and `Int.tmod`.

An expression of the source is written with the operators of `Steps`, which check every step.

Results:
* `checkedInt_eq_some`: a checked operation is the exact one
* `Steps.add_val` and its like: a step that fits is the exact one
* `abs_tmod_lt`: the remainder of a truncating division
-/

namespace FrankenGraph

/-- The range of a signed integer of `w + 1` bits. -/
def Fits (w : ℕ) (x : ℤ) : Prop := -2 ^ w ≤ x ∧ x < 2 ^ w

instance (w : ℕ) (x : ℤ) : Decidable (Fits w x) := inferInstanceAs (Decidable (_ ∧ _))

/-- `i64`. -/
abbrev I64 := { x : ℤ // Fits 63 x }

/-- The value when it fits. -/
def checkedInt (w : ℕ) (x : ℤ) : Option { x : ℤ // Fits w x } :=
  if h : Fits w x then some ⟨x, h⟩ else none

theorem checkedInt_eq_some {w : ℕ} {x : ℤ} {y : { x : ℤ // Fits w x }} :
    checkedInt w x = some y ↔ x = y.1 := by
  unfold checkedInt
  split
  · rw [Option.some.injEq, Subtype.ext_iff]
  · next h =>
    constructor
    · intro h'
      cases h'
    · rintro rfl
      exact absurd y.2 h

theorem fits_neg {w : ℕ} {x : ℤ} (h : Fits w x) (hmin : x ≠ -2 ^ w) : Fits w (-x) := by
  obtain ⟨hlow, hhigh⟩ := h
  constructor
  · omega
  · omega

theorem abs_tmod_lt (a : ℤ) {b : ℤ} (hb : 0 < b) : |a.tmod b| < b := by
  have hlt := Int.tmod_lt_of_pos a hb
  have hgt := Int.tmod_lt_of_pos (-a) hb
  rw [Int.neg_tmod] at hgt
  rw [abs_lt]
  omega

/-- An integer computed in steps of `w + 1` bits: nothing from the first step on that does not fit. -/
structure Steps (w : ℕ) where
  run : Option ℤ

namespace Steps

variable {w : ℕ} {x y : ℤ}

/-- A value at hand. -/
def val (x : ℤ) : Steps w := ⟨some x⟩

/-- One step. -/
def step (op : ℤ → ℤ → ℤ) (a b : Steps w) : Steps w :=
  ⟨a.run.bind fun x => b.run.bind fun y => if Fits w (op x y) then some (op x y) else none⟩

instance : Coe ℤ (Steps w) := ⟨val⟩
instance : Coe ℕ (Steps w) := ⟨fun n => val n⟩
instance (n : ℕ) : OfNat (Steps w) n := ⟨val n⟩
instance : Add (Steps w) := ⟨step (· + ·)⟩
instance : Sub (Steps w) := ⟨step (· - ·)⟩
instance : Mul (Steps w) := ⟨step (· * ·)⟩
instance : Div (Steps w) := ⟨step (· / ·)⟩
instance : Mod (Steps w) := ⟨step (· % ·)⟩

theorem run_val : (val x : Steps w).run = some x := rfl

theorem ofNat_val (n : ℕ) [n.AtLeastTwo] : (OfNat.ofNat n : Steps w) = val (OfNat.ofNat n) := rfl

theorem one_val : (1 : Steps w) = val 1 := rfl

theorem zero_val : (0 : Steps w) = val 0 := rfl

theorem step_val {op : ℤ → ℤ → ℤ} (h : Fits w (op x y)) :
    step op (val x) (val y) = (val (op x y) : Steps w) := by
  simp only [step, val, Option.bind_some, if_pos h]

theorem add_val (h : Fits w (x + y)) : (val x + val y : Steps w) = val (x + y) := step_val h

theorem sub_val (h : Fits w (x - y)) : (val x - val y : Steps w) = val (x - y) := step_val h

theorem mul_val (h : Fits w (x * y)) : (val x * val y : Steps w) = val (x * y) := step_val h

theorem div_val (h : Fits w (x / y)) : (val x / val y : Steps w) = val (x / y) := step_val h

theorem mod_val (h : Fits w (x % y)) : (val x % val y : Steps w) = val (x % y) := step_val h

end Steps

end FrankenGraph
