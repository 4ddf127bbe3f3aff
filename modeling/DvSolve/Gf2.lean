import Mathlib.Tactic

/-! Polynomials over GF(2) in the logical right shift.
`shiftPoly p x n` is the sum over the bits `k < n` of `p` of `x` shifted right by
`k`. It is linear in `p` and in `x`, multiplication by a power of the shift moves
the bits of `p`, and a polynomial with constant term `1` is injective.
`dot` is the value of a row of a linear system. -/
namespace DvSolve
namespace Gf2

/-- The polynomial with the first `n` bits of `p`, applied to `x`. -/
def shiftPoly (p x : ℕ) : ℕ → ℕ
  | 0 => 0
  | n+1 => shiftPoly p x n ^^^ if p.testBit n then x >>> n else 0

theorem shiftPoly_succ (p x n : ℕ) :
    shiftPoly p x (n+1) = shiftPoly p x n ^^^ if p.testBit n then x >>> n else 0 := rfl

theorem shiftPoly_congr {p q : ℕ} (x : ℕ) {n : ℕ} (h : ∀ k < n, p.testBit k = q.testBit k) :
    shiftPoly p x n = shiftPoly q x n := by
  induction n with
  | zero => rfl
  | succ n ih => rw [shiftPoly_succ,shiftPoly_succ,ih fun k hk => h k (by omega),h n (by omega)]

@[simp] theorem shiftPoly_zero (x n : ℕ) : shiftPoly 0 x n = 0 := by
  induction n with
  | zero => rfl
  | succ n ih => simp [shiftPoly_succ,ih]

theorem shiftPoly_one (x : ℕ) {n : ℕ} (hn : 0 < n) : shiftPoly 1 x n = x := by
  induction n, hn using Nat.le_induction with
  | base => simp [shiftPoly]
  | succ n hn ih =>
    have hne : n ≠ 0 := by omega
    have hbit : Nat.testBit 1 n = false := by
      simpa [hne] using (Nat.testBit_one_eq_true_iff_self_eq_zero (i := n)).not
    rw [shiftPoly_succ,ih,hbit]
    simp

theorem shiftPoly_xor_left (p q x n : ℕ) :
    shiftPoly (p ^^^ q) x n = shiftPoly p x n ^^^ shiftPoly q x n := by
  induction n with
  | zero => simp [shiftPoly]
  | succ n ih =>
    rw [shiftPoly_succ,shiftPoly_succ,shiftPoly_succ,ih,Nat.testBit_xor]
    cases p.testBit n <;> cases q.testBit n <;> simp <;> grind

theorem shiftPoly_xor_right (p x y n : ℕ) :
    shiftPoly p (x ^^^ y) n = shiftPoly p x n ^^^ shiftPoly p y n := by
  induction n with
  | zero => simp [shiftPoly]
  | succ n ih =>
    rw [shiftPoly_succ,shiftPoly_succ,shiftPoly_succ,ih]
    cases p.testBit n
    · simp
    · rw [if_pos rfl,if_pos rfl,if_pos rfl,Nat.shiftRight_xor_distrib]
      grind

theorem shiftPoly_width (p : ℕ) {x w n : ℕ} (hx : x < 2^w) (hn : w ≤ n) :
    shiftPoly p x n = shiftPoly p x w := by
  induction n, hn using Nat.le_induction with
  | base => rfl
  | succ n hn ih =>
    have hpow : 2^w ≤ 2^n := Nat.pow_le_pow_right (by norm_num) hn
    have hz : x >>> n = 0 := by
      rw [Nat.shiftRight_eq_div_pow]
      exact Nat.div_eq_of_lt (hx.trans_le hpow)
    rw [shiftPoly_succ,ih,hz]
    simp

theorem shiftPoly_shift (p x k n : ℕ) :
    shiftPoly (p <<< k) x (n+k) = shiftPoly p x n >>> k := by
  induction n with
  | zero =>
    have hlow : ∀ i < 0+k, (p <<< k).testBit i = Nat.testBit 0 i := by
      intro i hi
      have hik : ¬ i ≥ k := by omega
      simp [Nat.testBit_shiftLeft,hik]
    rw [shiftPoly_congr x hlow]
    simp [shiftPoly]
  | succ n ih =>
    have hbit : (p <<< k).testBit (n+k) = p.testBit n := by
      simp [Nat.testBit_shiftLeft]
    rw [Nat.add_right_comm,shiftPoly_succ,ih,hbit,shiftPoly_succ,Nat.shiftRight_xor_distrib]
    cases p.testBit n
    · simp
    · simp [Nat.shiftRight_add]

/-- The highest bit of `x` reaches the result only through the constant term. -/
theorem shiftPoly_testBit_top (p : ℕ) {x t : ℕ} (hx : x < 2^(t+1)) (n : ℕ) :
    (shiftPoly p x (n+1)).testBit t = (p.testBit 0 && x.testBit t) := by
  induction n with
  | zero =>
    rw [shiftPoly_succ]
    cases p.testBit 0 <;> simp [shiftPoly]
  | succ n ih =>
    have hpow : 2^(t+1) ≤ 2^(n+1+t) := Nat.pow_le_pow_right (by norm_num) (by omega)
    have hz : x.testBit (n+1+t) = false := Nat.testBit_lt_two_pow (hx.trans_le hpow)
    rw [shiftPoly_succ,Nat.testBit_xor,ih]
    cases p.testBit (n+1)
    · simp
    · simp [hz]

theorem shiftPoly_injective {p x y n : ℕ} (hp : p.testBit 0 = true)
    (h : shiftPoly p x (n+1) = shiftPoly p y (n+1)) : x = y := by
  by_contra hne
  -- the highest bit in which they differ
  have hz : x ^^^ y ≠ 0 := by
    intro hxy
    have hy : x ^^^ y ^^^ y = 0 ^^^ y := by rw [hxy]
    rw [Nat.xor_assoc,Nat.xor_self,Nat.xor_zero,Nat.zero_xor] at hy
    exact hne hy
  have htop : (x ^^^ y).testBit (Nat.log2 (x ^^^ y)) = true := Nat.testBit_log2 hz
  have hlt : x ^^^ y < 2^(Nat.log2 (x ^^^ y) + 1) := Nat.lt_log2_self
  have hbit := shiftPoly_testBit_top p hlt n
  rw [shiftPoly_xor_right,h,Nat.xor_self,hp,htop] at hbit
  simp at hbit

/-- Parity of the columns `k < n` that stand in the row `f` and hold in `x`. -/
def dot (x : ℕ → Bool) (f : ℕ) : ℕ → Bool
  | 0 => false
  | n+1 => dot x f n ^^ (f.testBit n && x n)

@[simp] theorem dot_zero (x : ℕ → Bool) (n : ℕ) : dot x 0 n = false := by
  induction n with
  | zero => rfl
  | succ n ih => simp [dot,ih]

theorem dot_xor (x : ℕ → Bool) (f g n : ℕ) : dot x (f ^^^ g) n = (dot x f n ^^ dot x g n) := by
  induction n with
  | zero => rfl
  | succ n ih =>
    rw [dot,dot,dot,ih,Nat.testBit_xor]
    cases dot x f n <;> cases dot x g n <;> cases f.testBit n <;> cases g.testBit n <;>
      cases x n <;> rfl

theorem dot_eq_false {x : ℕ → Bool} {f n : ℕ} (h : ∀ k < n, (f.testBit k && x k) = false) :
    dot x f n = false := by
  induction n with
  | zero => rfl
  | succ n ih =>
    rw [dot,ih fun k hk => h k (by omega),h n (by omega)]
    rfl

theorem dot_of_low (x : ℕ → Bool) {f n : ℕ} (h : ∀ k < n, f.testBit k = false) :
    dot x f n = false := dot_eq_false fun k hk => by rw [h k hk,Bool.false_and]

theorem dot_two_pow (x : ℕ → Bool) {k n : ℕ} (h : k < n) : dot x (2^k) n = x k := by
  induction n, h using Nat.le_induction with
  | base =>
    rw [dot,dot_of_low x fun j hj => Nat.testBit_two_pow_of_ne (by omega), Nat.testBit_two_pow_self]
    simp
  | succ n hn ih =>
    rw [dot,ih,Nat.testBit_two_pow_of_ne (by omega)]
    simp

end Gf2
end DvSolve
