import Mathlib.Tactic
import Mathlib.Data.Nat.Factorization.Basic

/-! Set bits of a word: their number, and the lowest cleared by `x &&& (x - 1)`. -/
namespace DvSolve
namespace SetBits

variable {w : ℕ} {x : BitVec w}

def setBits {w : ℕ} (x : BitVec w) : Finset ℕ := (Finset.range w).filter fun j => x.getLsbD j = true

theorem mem_setBits {j : ℕ} : j ∈ setBits x ↔ x.getLsbD j = true := by
  simp only [setBits,Finset.mem_filter,Finset.mem_range,and_iff_right_iff_imp]
  exact BitVec.lt_of_getLsbD

theorem cpop_eq_card (x : BitVec w) : x.cpop.toNat = (setBits x).card := by
  have h : ∀ n acc, x.cpopNatRec n acc =
      acc + ((Finset.range n).filter fun j => x.getLsbD j = true).card := by
    intro n
    induction n with
    | zero => simp
    | succ n ih =>
      intro acc
      rw [BitVec.cpopNatRec_succ,ih,Finset.range_add_one,Finset.filter_insert]
      cases hx : x.getLsbD n with
      | true =>
        rw [if_pos rfl,Finset.card_insert_of_notMem (by simp)]
        simp
        omega
      | false => simp
  rw [BitVec.toNat_cpop,h,Nat.zero_add]
  rfl

theorem exists_lowest (hx : x ≠ 0#w) :
    ∃ t ∈ setBits x, setBits (x &&& (x-1#w)) = (setBits x).erase t := by
  have hne : x.toNat ≠ 0 := fun h => hx (BitVec.eq_of_toNat_eq (by simpa using h))
  obtain ⟨t,k,hk,hX⟩ := Nat.exists_eq_two_pow_mul_odd hne
  obtain ⟨q,rfl⟩ := hk
  have hpos : 0 < 2^t := Nat.two_pow_pos t
  have hsub : (x-1#w).toNat = 2^t*(2*q)+(2^t-1) := by
    have hw : 0 < w := by
      rcases Nat.eq_zero_or_pos w with rfl | h
      · exact absurd (BitVec.eq_nil x ▸ rfl) hx
      · exact h
    have h1 : (1#w).toNat = 1 := by
      rw [BitVec.toNat_ofNat]
      exact Nat.mod_eq_of_lt (Nat.one_lt_two_pow (by omega))
    rw [BitVec.toNat_sub_of_le (by rw [BitVec.le_def,h1]; omega),h1,hX]
    have : 2^t*(2*q+1) = 2^t*(2*q)+2^t := by ring
    omega
  have hbit : ∀ j, x.getLsbD j = if j < t then false else (2*q+1).testBit (j-t) := fun j => by
    have := Nat.testBit_two_pow_mul_add (2*q+1) hpos j
    rw [Nat.add_zero] at this
    rw [← BitVec.testBit_toNat,hX,this]
    simp
  have hbit' : ∀ j, ¬j < t → (x-1#w).getLsbD j = (2*q).testBit (j-t) := fun j hj => by
    rw [← BitVec.testBit_toNat,hsub,Nat.testBit_two_pow_mul_add _ (by omega),if_neg hj]
  refine ⟨t,mem_setBits.mpr (by simp [hbit]),?_⟩
  ext j
  rw [Finset.mem_erase,mem_setBits,mem_setBits,BitVec.getLsbD_and]
  by_cases hj : j < t
  · simp [hbit,hj]
  · rw [hbit' j hj,hbit j,if_neg hj]
    obtain ⟨d,rfl⟩ : ∃ d, j = t+d := ⟨j-t,by omega⟩
    rw [Nat.add_sub_cancel_left]
    cases d with
    | zero => simp
    | succ d =>
      have h1 : (2*q+1).testBit (d+1) = q.testBit d := by
        rw [Nat.testBit_succ]
        congr 1
        omega
      have h2 : (2*q).testBit (d+1) = q.testBit d := by
        rw [Nat.testBit_succ]
        congr 1
        omega
      rw [h1,h2]
      simp

theorem setBits_eq_empty : setBits x = ∅ ↔ x = 0#w := by
  constructor
  · intro h
    apply BitVec.eq_of_getLsbD_eq
    intro i _
    have hi : i ∉ setBits x := by simp [h]
    rw [mem_setBits] at hi
    simpa using hi
  · rintro rfl
    ext j
    simp [mem_setBits]

theorem ne_zero_iff : x ≠ 0#w ↔ ∃ j, x.getLsbD j = true := by
  rw [ne_eq,← setBits_eq_empty,← ne_eq,← Finset.nonempty_iff_ne_empty]
  exact exists_congr fun j => mem_setBits

/-- The word `2^r - 1` has the lowest `r` bits set. -/
theorem getLsbD_ones {r : ℕ} (hr : r < w) (j : ℕ) :
    ((1#w <<< r)-1#w).getLsbD j = decide (j < r) := by
  have hw : 1 < 2^w := Nat.one_lt_two_pow (by omega)
  have h1 : (1#w).toNat = 1 := by
    rw [BitVec.toNat_ofNat]
    exact Nat.mod_eq_of_lt hw
  have hshift : (1#w <<< r).toNat = 2^r := by
    rw [BitVec.toNat_shiftLeft,h1,Nat.shiftLeft_eq,Nat.one_mul]
    exact Nat.mod_eq_of_lt (Nat.pow_lt_pow_right (by decide) hr)
  have hpos := Nat.two_pow_pos r
  rw [← BitVec.testBit_toNat,BitVec.toNat_sub_of_le (by rw [BitVec.le_def,h1,hshift]; omega),hshift,h1,
    Nat.testBit_two_pow_sub_one]

end SetBits
end DvSolve
