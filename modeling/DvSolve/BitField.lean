import Mathlib.Data.Nat.Bitwise
import Mathlib.Order.Bounds.Basic
import Mathlib.Tactic

/-! Fields of the binary digits of a number, and the numbers next to a given one that hold a
given field. -/
namespace DvSolve

def field (lo n y : ℕ) : ℕ := y/2^lo%2^n

/-- The least number from `x` up whose field is `v`: in the group of `x`, the numbers of the
same digits above the field, or in the next. -/
def nextField (lo n v x : ℕ) : ℕ :=
  let base := x/2^(lo+n)*2^(lo+n)+v*2^lo
  if x ≤ base then base else if x < base+2^lo then x else base+2^(lo+n)

def prevField (lo n v x : ℕ) : Option ℕ :=
  let base := x/2^(lo+n)*2^(lo+n)+v*2^lo
  if base+2^lo ≤ x+1 then some (base+2^lo-1)
  else if base ≤ x then some x
  else if x < 2^(lo+n) then none else some (base-2^(lo+n)+2^lo-1)

variable {lo n v x y : ℕ}

theorem field_lt (lo n y : ℕ) : field lo n y < 2^n := Nat.mod_lt _ (by positivity)

theorem run_le (lo : ℕ) (hv : v < 2^n) : v*2^lo+2^lo ≤ 2^(lo+n) := by
  have h := Nat.mul_le_mul_right (2^lo) (Nat.succ_le_of_lt hv)
  rw [Nat.succ_mul,← pow_add] at h
  rwa [add_comm lo n]

theorem field_group (hv : v < 2^n) {q r : ℕ} (hr : r < 2^lo) :
    field lo n (q*2^(lo+n)+v*2^lo+r) = v := by
  have h : q*2^(lo+n)+v*2^lo+r = (q*2^n+v)*2^lo+r := by ring
  rw [field,h,Nat.add_comm,Nat.add_mul_div_right _ _ (by positivity),Nat.div_eq_of_lt hr,
    zero_add,Nat.mul_add_mod',Nat.mod_eq_of_lt hv]

theorem field_split (lo n y : ℕ) :
    y = y/2^(lo+n)*2^(lo+n)+field lo n y*2^lo+y%2^lo := by
  have h1 := Nat.div_add_mod y (2^lo)
  have h2 := Nat.div_add_mod (y/2^lo) (2^n)
  rw [Nat.div_div_eq_div_mul,← pow_add] at h2
  rw [field]
  calc y = 2^lo*(y/2^lo)+y%2^lo := h1.symm
    _ = 2^lo*(2^n*(y/2^(lo+n))+y/2^lo%2^n)+y%2^lo := by rw [h2]
    _ = y/2^(lo+n)*2^(lo+n)+y/2^lo%2^n*2^lo+y%2^lo := by ring

theorem nextField_isLeast (hv : v < 2^n) :
    IsLeast {y | x ≤ y ∧ field lo n y = v} (nextField lo n v x) := by
  have hrun := run_le lo hv
  have hpos : 0 < 2^lo := by positivity
  have hx := field_split lo n x
  have hxr := run_le lo (field_lt lo n x)
  unfold nextField
  dsimp only
  constructor
  · split_ifs with h1 h2
    · exact ⟨h1,field_group hv hpos⟩
    · obtain ⟨r,hr⟩ := Nat.exists_eq_add_of_lt (not_le.mp h1)
      refine ⟨le_rfl,?_⟩
      rw [hr,add_assoc]
      exact field_group hv (by omega)
    · refine ⟨by omega,?_⟩
      have heq : x/2^(lo+n)*2^(lo+n)+v*2^lo+2^(lo+n) = (x/2^(lo+n)+1)*2^(lo+n)+v*2^lo+0 := by ring
      rw [heq]
      exact field_group hv hpos
  · rintro y ⟨hxy,hy⟩
    have hsplit := field_split lo n y
    rw [hy] at hsplit
    rcases lt_trichotomy (y/2^(lo+n)) (x/2^(lo+n)) with hq | hq | hq
    · have := Nat.mul_le_mul_right (2^(lo+n)) (Nat.succ_le_of_lt hq)
      rw [Nat.succ_mul] at this
      omega
    · rw [hq] at hsplit
      split_ifs <;> omega
    · have := Nat.mul_le_mul_right (2^(lo+n)) (Nat.succ_le_of_lt hq)
      rw [Nat.succ_mul] at this
      split_ifs <;> omega

theorem prevField_isGreatest (hv : v < 2^n) {z : ℕ} (h : prevField lo n v x = some z) :
    IsGreatest {y | y ≤ x ∧ field lo n y = v} z := by
  have hrun := run_le lo hv
  have hpos : 0 < 2^lo := by positivity
  have hx := field_split lo n x
  have hxr := run_le lo (field_lt lo n x)
  unfold prevField at h
  dsimp only at h
  constructor
  · split_ifs at h with h1 h2 h3 <;> rw [Option.some.injEq] at h <;> subst h
    · refine ⟨by omega,?_⟩
      rw [Nat.add_sub_assoc hpos]
      exact field_group hv (by omega)
    · obtain ⟨r,hr⟩ := Nat.exists_eq_add_of_le h2
      refine ⟨le_rfl,?_⟩
      rw [hr]
      exact field_group hv (by omega)
    · obtain ⟨q,hq⟩ : ∃ q, x/2^(lo+n) = q+1 :=
        Nat.exists_eq_add_of_le' (Nat.div_pos (not_lt.mp h3) (by positivity))
      rw [hq,Nat.succ_mul] at h1 h2 hx ⊢
      refine ⟨by omega,?_⟩
      have heq : q*2^(lo+n)+2^(lo+n)+v*2^lo-2^(lo+n)+2^lo-1 = q*2^(lo+n)+v*2^lo+(2^lo-1) := by omega
      rw [heq]
      exact field_group hv (by omega)
  · rintro y ⟨hxy,hy⟩
    have hsplit := field_split lo n y
    rw [hy] at hsplit
    rcases lt_trichotomy (y/2^(lo+n)) (x/2^(lo+n)) with hq | hq | hq
    · have := Nat.mul_le_mul_right (2^(lo+n)) (Nat.succ_le_of_lt hq)
      rw [Nat.succ_mul] at this
      split_ifs at h <;> rw [Option.some.injEq] at h <;> omega
    · rw [hq] at hsplit
      split_ifs at h <;> rw [Option.some.injEq] at h <;> omega
    · have := Nat.mul_le_mul_right (2^(lo+n)) (Nat.succ_le_of_lt hq)
      rw [Nat.succ_mul] at this
      omega

theorem prevField_none (h : prevField lo n v x = none) (hy : field lo n y = v) :
    x < y := by
  have hsplit := field_split lo n y
  rw [hy] at hsplit
  unfold prevField at h
  dsimp only at h
  split_ifs at h with h1 h2 h3
  rw [Nat.div_eq_of_lt h3] at h1 h2
  omega

end DvSolve
