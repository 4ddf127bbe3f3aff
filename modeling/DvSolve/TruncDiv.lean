import Mathlib.Tactic

/-! Truncated division over intervals: where its extremes lie, and the numbers next to a given
one in a residue class. -/
namespace DvSolve
namespace TruncDiv

variable {x y l u k : ℤ}

theorem hull_fixed (hk : k ≠ 0) (hl : l ≤ x) (hu : x ≤ u) :
    min (l.tdiv k) (u.tdiv k) ≤ x.tdiv k ∧ x.tdiv k ≤ max (l.tdiv k) (u.tdiv k) := by
  rcases lt_or_gt_of_ne hk with hk | hk
  · obtain ⟨j,rfl⟩ : ∃ j, k = -j := ⟨-k,by ring⟩
    have h1 := Int.tdiv_le_tdiv (c := j) (by omega) hl
    have h2 := Int.tdiv_le_tdiv (c := j) (by omega) hu
    simp only [Int.tdiv_neg]
    omega
  · have h1 := Int.tdiv_le_tdiv hk hl
    have h2 := Int.tdiv_le_tdiv hk hu
    omega

theorem tdiv_shrinks (hx : 0 ≤ x) (hl : 0 < l) (hy : l ≤ y) : x.tdiv y ≤ x.tdiv l := by
  rw [Int.tdiv_eq_ediv_of_nonneg hx,Int.tdiv_eq_ediv_of_nonneg hx]
  have hq := Int.mul_ediv_self_le (x := x) (k := y) (by omega)
  exact (Int.le_ediv_iff_mul_le hl).mpr (by nlinarith)

theorem le_hull (hx : x ≤ u) (hl : 0 < l) (hy : l ≤ y) {h : ℤ} (hh : y ≤ h) :
    x.tdiv y ≤ u.tdiv (if 0 ≤ u then l else h) := by
  have hmono := Int.tdiv_le_tdiv (show 0 < y by omega) hx
  split_ifs with hu
  · exact hmono.trans (tdiv_shrinks hu hl hy)
  · have := tdiv_shrinks (x:=-u) (by omega) (show 0 < y by omega) hh
    rw [Int.neg_tdiv,Int.neg_tdiv] at this
    omega

theorem hull_le {a : ℤ} (hx : a ≤ x) (hl : 0 < l) (hy : l ≤ y) {h : ℤ} (hh : y ≤ h) :
    a.tdiv (if a < 0 then l else h) ≤ x.tdiv y := by
  have hmono := Int.tdiv_le_tdiv (show 0 < y by omega) hx
  split_ifs with ha
  · have := tdiv_shrinks (x:=-a) (by omega) hl hy
    rw [Int.neg_tdiv,Int.neg_tdiv] at this
    omega
  · exact (tdiv_shrinks (not_lt.mp ha) (show 0 < y by omega) hh).trans hmono

theorem natAbs_tdiv_le (x y : ℤ) : (x.tdiv y).natAbs ≤ x.natAbs := by
  rw [Int.natAbs_tdiv]
  exact Nat.div_le_self _ _

/-- A quotient of an `n` bit number is one, but for the opposite of the least. -/
theorem tdiv_range {n : ℕ} (h1 : -2^n ≤ x) (h2 : x < 2^n) (hx : ¬(x = -2^n ∧ y = -1)) :
    -2^n ≤ x.tdiv y ∧ x.tdiv y < 2^n := by
  have hn := natAbs_tdiv_le x y
  refine ⟨by omega,?_⟩
  by_contra hge
  have hmin : x = -2^n := by omega
  rcases lt_trichotomy y 0 with h | h | h
  · obtain ⟨j,rfl⟩ : ∃ j, y = -j := ⟨-y,by ring⟩
    have := tdiv_shrinks (x:=-x) (l:=2) (y:=j) (by omega) (by omega) (by omega)
    rw [Int.neg_tdiv,Int.neg_tdiv] at this
    rw [Int.tdiv_neg] at hge
    have h2 : (-x).tdiv 2 < 2^n := by
      rw [Int.tdiv_eq_ediv_of_nonneg (by omega)]
      omega
    rw [Int.neg_tdiv] at h2
    omega
  · subst h
    simp at hge
  · have := Int.tdiv_le_tdiv (a := x) (b := 0) h (by omega)
    simp at this
    omega

theorem tmod_range (hy : y ≠ 0) :
    (0 ≤ x → 0 ≤ x.tmod y) ∧ (x ≤ 0 → x.tmod y ≤ 0) ∧ |x.tmod y| < |y| := by
  refine ⟨Int.tmod_nonneg y,fun hx => ?_,?_⟩
  · have := Int.tmod_nonneg y (a := -x) (by omega)
    rw [Int.neg_tmod] at this
    omega
  · have h := Nat.mod_lt x.natAbs (Int.natAbs_pos.mpr hy)
    rw [← Int.natAbs_tmod] at h
    rw [Int.abs_eq_natAbs,Int.abs_eq_natAbs]
    exact_mod_cast h

theorem emod_le_self (hx : 0 ≤ x) (hk : 0 < k) : x%k ≤ x := by
  have h := Int.emod_def x k
  have := mul_nonneg hk.le (Int.ediv_nonneg hx hk.le)
  omega

theorem residue_up (hk : 0 < k) (hx : l ≤ x) : l+(x%k-l%k+k)%k ≤ x := by
  have h : (x%k-l%k+k)%k = (x-l)%k := by
    rw [Int.add_emod_right,← Int.sub_emod]
  have hle := emod_le_self (x:=x-l) (by omega) hk
  omega

theorem residue_down (hk : 0 < k) (hx : x ≤ u) : x ≤ u-(u%k-x%k+k)%k := by
  have h : (u%k-x%k+k)%k = (u-x)%k := by
    rw [Int.add_emod_right,← Int.sub_emod]
  have hle := emod_le_self (x:=u-x) (by omega) hk
  omega

end TruncDiv
end DvSolve
