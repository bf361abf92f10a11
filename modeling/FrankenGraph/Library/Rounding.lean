import Mathlib

/-!
# Rounding to the nearest integer, ties to even

Results:
* `NearestEven.unique`: at most one integer is the nearest with ties to even
* `nearestEven_roundHalfEven`: a quotient of naturals by division and remainder
* `NearestEven.neg`: rounding is odd
-/

namespace FrankenGraph

/-- `c` is the integer nearest to `x`, the even one of two. -/
def NearestEven (x : ℚ) (c : ℤ) : Prop := |x - c| ≤ 1 / 2 ∧ (|x - c| = 1 / 2 → Even c)

/-- The quotient of naturals, rounded half to even. -/
def roundHalfEven (a b : ℕ) : ℕ :=
  a / b + if b < 2 * (a % b) ∨ 2 * (a % b) = b ∧ (a / b) % 2 = 1 then 1 else 0

theorem NearestEven.neg {x : ℚ} {c : ℤ} (h : NearestEven x c) : NearestEven (-x) (-c) := by
  have habs : |-x - ((-c : ℤ) : ℚ)| = |x - c| := by
    rw [← abs_neg]
    congr 1
    push_cast
    ring
  obtain ⟨hle, heven⟩ := h
  rw [NearestEven, habs]
  exact ⟨hle, fun heq => (heven heq).neg⟩

theorem NearestEven.unique {x : ℚ} {c c' : ℤ} (h : NearestEven x c) (h' : NearestEven x c') :
    c = c' := by
  obtain ⟨hle, heven⟩ := h
  obtain ⟨hle', heven'⟩ := h'
  obtain ⟨hlow, hhigh⟩ := abs_le.mp hle
  obtain ⟨hlow', hhigh'⟩ := abs_le.mp hle'
  -- They are at most one apart, and if they are, `x` is halfway and both are even.
  have hup : c - c' ≤ 1 := by
    have : ((c - c' : ℤ) : ℚ) ≤ 1 := by push_cast; linarith
    exact_mod_cast this
  have hdown : c' - c ≤ 1 := by
    have : ((c' - c : ℤ) : ℚ) ≤ 1 := by push_cast; linarith
    exact_mod_cast this
  by_contra hne
  have hapart : c = c' + 1 ∨ c' = c + 1 := by omega
  have hboth : |x - c| = 1 / 2 ∧ |x - c'| = 1 / 2 := by
    obtain rfl | rfl := hapart
    · push_cast at hlow hhigh ⊢
      have hx : x = c' + 1 / 2 := by linarith
      rw [hx]
      constructor
      · rw [show (c' : ℚ) + 1 / 2 - (c' + 1) = -(1 / 2) by ring, abs_neg]
        norm_num
      · rw [show (c' : ℚ) + 1 / 2 - c' = 1 / 2 by ring]
        norm_num
    · push_cast at hlow' hhigh' ⊢
      have hx : x = c + 1 / 2 := by linarith
      rw [hx]
      constructor
      · rw [show (c : ℚ) + 1 / 2 - c = 1 / 2 by ring]
        norm_num
      · rw [show (c : ℚ) + 1 / 2 - (c + 1) = -(1 / 2) by ring, abs_neg]
        norm_num
  obtain ⟨k, hk⟩ := heven hboth.1
  obtain ⟨k', hk'⟩ := heven' hboth.2
  omega

/-- Division, remainder and one comparison round correctly. -/
theorem nearestEven_roundHalfEven (a : ℕ) {b : ℕ} (hb : 0 < b) :
    NearestEven ((a : ℚ) / b) (roundHalfEven a b : ℕ) := by
  have hpos : (0 : ℚ) < b := by exact_mod_cast hb
  have hdiv : (b : ℚ) * (a / b : ℕ) + (a % b : ℕ) = a := by exact_mod_cast Nat.div_add_mod a b
  have hlt : a % b < b := Nat.mod_lt a hb
  have hltq : ((a % b : ℕ) : ℚ) < b := by exact_mod_cast hlt
  have hnonneg : (0 : ℚ) ≤ (a % b : ℕ) := by positivity
  have hx : (a : ℚ) / b = (a / b : ℕ) + ((a % b : ℕ) : ℚ) / b := by
    field_simp
    linarith
  set q := a / b with hq
  set r := a % b with hr
  have hfrac : 0 ≤ (r : ℚ) / b := by positivity
  rw [NearestEven, hx]
  unfold roundHalfEven
  rw [← hq, ← hr]
  split
  · next hup =>
    have hhalf : (b : ℚ) ≤ 2 * r := by
      obtain h | ⟨h, -⟩ := hup
      · exact_mod_cast h.le
      · exact_mod_cast h.ge
    have hge : 1 / 2 ≤ (r : ℚ) / b := by
      rw [div_le_div_iff₀ two_pos hpos]
      linarith
    have hle : (r : ℚ) / b < 1 := (div_lt_one hpos).mpr hltq
    have hdist : (q : ℚ) + (r : ℚ) / b - (((q + 1 : ℕ) : ℤ) : ℚ) = -(1 - (r : ℚ) / b) := by
      push_cast
      ring
    rw [hdist, abs_neg, abs_of_pos (by linarith)]
    refine ⟨by linarith, fun htie => ?_⟩
    have htwice : 2 * r = b := by
      have : (r : ℚ) / b = 1 / 2 := by linarith
      rw [div_eq_div_iff hpos.ne' two_ne_zero] at this
      have h2 : (2 * r : ℚ) = b := by linarith
      exact_mod_cast h2
    have hodd : q % 2 = 1 := by
      obtain h | ⟨-, h⟩ := hup
      · omega
      · exact h
    rw [Int.even_coe_nat]
    exact Nat.even_iff.mpr (by omega)
  · next hdown =>
    have hhalf : (2 * r : ℚ) ≤ b := by
      have : 2 * r ≤ b := by omega
      exact_mod_cast this
    have hle : (r : ℚ) / b ≤ 1 / 2 := by
      rw [div_le_div_iff₀ hpos two_pos]
      linarith
    have hdist : (q : ℚ) + (r : ℚ) / b - (((q + 0 : ℕ) : ℤ) : ℚ) = (r : ℚ) / b := by
      push_cast
      ring
    rw [hdist, abs_of_nonneg hfrac]
    refine ⟨hle, fun htie => ?_⟩
    have htwice : 2 * r = b := by
      rw [div_eq_div_iff hpos.ne' two_ne_zero] at htie
      have h2 : (2 * r : ℚ) = b := by linarith
      exact_mod_cast h2
    rw [Int.even_coe_nat]
    exact Nat.even_iff.mpr (by omega)

end FrankenGraph
