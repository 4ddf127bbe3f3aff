import Mathlib.Tactic

/-! Binary numerals as bit functions.
A word is a function from columns to bits, column 0 least significant, read up to
a width; its sum with another word is the ripple of a carry through the columns. -/
namespace DvSolve
namespace Bits

/-- The number in the first `n` columns of `f`. -/
def low (f : ℕ → Bool) : ℕ → ℕ
  | 0 => 0
  | n+1 => low f n + (f n).toNat * 2^n

@[simp] theorem low_zero (f : ℕ → Bool) : low f 0 = 0 := rfl

theorem low_succ (f : ℕ → Bool) (n : ℕ) : low f (n+1) = low f n + (f n).toNat * 2^n := rfl

theorem low_lt (f : ℕ → Bool) (n : ℕ) : low f n < 2^n := by
  induction n with
  | zero => simp
  | succ n ih =>
    have hb := Bool.toNat_le (f n)
    rw [low_succ,pow_succ]
    nlinarith

theorem low_congr {f g : ℕ → Bool} {n : ℕ} (h : ∀ k < n, f k = g k) : low f n = low g n := by
  induction n with
  | zero => rfl
  | succ n ih => rw [low_succ,low_succ,ih fun k hk => h k (by omega),h n (by omega)]

theorem low_mod (f : ℕ → Bool) {k n : ℕ} (h : k ≤ n) : low f n % 2^k = low f k := by
  induction n, h using Nat.le_induction with
  | base => exact Nat.mod_eq_of_lt (low_lt f k)
  | succ n hn ih =>
    have hd : 2^k ∣ (f n).toNat * 2^n := Dvd.dvd.mul_left (pow_dvd_pow 2 hn) _
    rw [low_succ,Nat.add_mod,Nat.mod_eq_zero_of_dvd hd,Nat.add_zero,Nat.mod_mod,ih]

@[simp] theorem low_false (n : ℕ) : low (fun _ => false) n = 0 := by
  induction n with
  | zero => rfl
  | succ n ih => simp [low_succ,ih]

theorem low_eq_zero {f : ℕ → Bool} {n : ℕ} (h : ∀ k < n, f k = false) : low f n = 0 := by
  rw [low_congr h,low_false]

theorem testBit_low (f : ℕ → Bool) (n k : ℕ) :
    (low f n).testBit k = (decide (k < n) && f k) := by
  induction n with
  | zero => simp
  | succ n ih =>
    have hlt := low_lt f n
    have hadd : low f (n+1) = 2^n * (f n).toNat + low f n := by rw [low_succ]; ring
    rw [hadd,Nat.testBit_two_pow_mul_add _ hlt]
    split_ifs with hk
    · rw [ih]
      simp [hk,Nat.lt_succ_of_lt hk]
    · rcases Nat.eq_or_lt_of_le (Nat.le_of_not_lt hk) with rfl | hlt'
      · cases f n <;> simp
      · have hb : (f n).toNat < 2^(k-n) := by
          have h1 := Bool.toNat_lt (f n)
          have h2 : 2^1 ≤ 2^(k-n) := Nat.pow_le_pow_right (by norm_num) (by omega)
          omega
        rw [Nat.testBit_lt_two_pow hb]
        simp [show ¬ k < n+1 by omega]

theorem low_testBit (x n : ℕ) : low x.testBit n = x % 2^n := by
  refine Nat.eq_of_testBit_eq fun k => ?_
  rw [testBit_low,Nat.testBit_mod_two_pow]

/-- Shifting a word up by `s` columns and masking it with one bit. -/
def shiftAnd (f : ℕ → Bool) (s : ℕ) (b : Bool) (k : ℕ) : Bool :=
  if k < s then false else f (k-s) && b

theorem low_shiftAnd (f : ℕ → Bool) (s : ℕ) (b : Bool) (n : ℕ) :
    low (shiftAnd f s b) (s+n) = b.toNat * 2^s * low f n := by
  induction n with
  | zero =>
    refine low_eq_zero fun k hk => ?_
    have hks : k < s := hk
    simp [shiftAnd,hks]
  | succ n ih =>
    have hk : shiftAnd f s b (s+n) = (f n && b) := by simp [shiftAnd]
    rw [← Nat.add_assoc,low_succ,ih,hk,low_succ]
    cases b <;> cases f n <;> simp [pow_add]
    ring

def carry (f g : ℕ → Bool) (c : Bool) : ℕ → Bool
  | 0 => c
  | n+1 => (f n && g n) || ((f n ^^ g n) && carry f g c n)

def sum (f g : ℕ → Bool) (c : Bool) (n : ℕ) : Bool := (f n ^^ g n) ^^ carry f g c n

theorem low_sum (f g : ℕ → Bool) (c : Bool) (n : ℕ) :
    low (sum f g c) n + (carry f g c n).toNat * 2^n = low f n + low g n + c.toNat := by
  induction n with
  | zero => simp [carry]
  | succ n ih =>
    have hcol : (sum f g c n).toNat + 2 * (carry f g c (n+1)).toNat =
        (f n).toNat + (g n).toNat + (carry f g c n).toNat := by
      simp only [sum,carry]
      cases f n <;> cases g n <;> cases carry f g c n <;> rfl
    rw [low_succ,low_succ,low_succ]
    calc low (sum f g c) n + (sum f g c n).toNat * 2^n + (carry f g c (n+1)).toNat * 2^(n+1)
        = low (sum f g c) n + ((sum f g c n).toNat + 2 * (carry f g c (n+1)).toNat) * 2^n := by
          ring
      _ = low (sum f g c) n + ((f n).toNat + (g n).toNat + (carry f g c n).toNat) * 2^n := by
          rw [hcol]
      _ = low f n + (f n).toNat * 2^n + (low g n + (g n).toNat * 2^n) + c.toNat := by
          nlinarith [ih]

theorem low_sum_mod (f g : ℕ → Bool) (c : Bool) (n : ℕ) :
    low (sum f g c) n = (low f n + low g n + c.toNat) % 2^n := by
  rw [← low_sum,Nat.add_mul_mod_self_right,Nat.mod_eq_of_lt (low_lt _ n)]

theorem low_not (f : ℕ → Bool) (n : ℕ) : low (fun k => !f k) n + low f n + 1 = 2^n := by
  induction n with
  | zero => rfl
  | succ n ih =>
    rw [low_succ,low_succ,pow_succ]
    cases f n <;> simp <;> omega

theorem carry_shiftAnd (f g : ℕ → Bool) (s : ℕ) (b : Bool) {k : ℕ} (hk : k ≤ s) :
    carry f (shiftAnd g s b) false k = false := by
  induction k with
  | zero => rfl
  | succ k ih =>
    have hks : k < s := hk
    simp [carry,ih (by omega),shiftAnd,hks]

theorem sum_shiftAnd (f g : ℕ → Bool) (s : ℕ) (b : Bool) {k : ℕ} (hk : k < s) :
    sum f (shiftAnd g s b) false k = f k := by
  simp [sum,carry_shiftAnd f g s b hk.le,shiftAnd,hk]

theorem carry_shiftAnd_false (f g : ℕ → Bool) (s k : ℕ) :
    carry f (shiftAnd g s false) false k = false := by
  induction k with
  | zero => rfl
  | succ k ih => simp [carry,ih,shiftAnd]

theorem sum_shiftAnd_false (f g : ℕ → Bool) (s k : ℕ) :
    sum f (shiftAnd g s false) false k = f k := by
  simp [sum,carry_shiftAnd_false,shiftAnd]

/-- The partial products of `f` by the first `n` columns of `g`, summed row by row. -/
def mulRows (f g : ℕ → Bool) : ℕ → ℕ → Bool
  | 0 => fun _ => false
  | n+1 => sum (mulRows f g n) (shiftAnd f n (g n)) false

theorem mulRows_one (f g : ℕ → Bool) (k : ℕ) : mulRows f g 1 k = (f k && g 0) := by
  have hc : ∀ k, carry (fun _ => false) (shiftAnd f 0 (g 0)) false k = false := fun k => by
    induction k with
    | zero => rfl
    | succ k ih => simp [carry,ih]
  simp [mulRows,sum,hc,shiftAnd]

/-- Shift-and-add multiplication is multiplication modulo the width. -/
theorem low_mulRows (f g : ℕ → Bool) (w : ℕ) {n : ℕ} (hn : n ≤ w) :
    low (mulRows f g n) w ≡ low f w * low g n [MOD 2^w] := by
  induction n with
  | zero =>
    simp only [mulRows,low_false,low_zero,Nat.mul_zero]
    rfl
  | succ n ih =>
    have hw : w = n + (w-n) := by omega
    have hlow : low f (w-n) = low f w % 2^(w-n) := (low_mod f (Nat.sub_le w n)).symm
    -- the row loses only columns at or above the width
    have hrow : low (shiftAnd f n (g n)) w ≡ (g n).toNat * 2^n * low f w [MOD 2^w] := by
      have h1 : low (shiftAnd f n (g n)) w = (g n).toNat * 2^n * low f (w-n) := by
        conv_lhs => rw [hw]
        exact low_shiftAnd f n (g n) (w-n)
      rw [h1,hlow,Nat.mul_assoc,Nat.mul_assoc]
      refine Nat.ModEq.mul_left _ ?_
      have h2 := (Nat.mod_modEq (low f w) (2^(w-n))).mul_left' (2^n)
      rwa [← pow_add,← hw] at h2
    calc low (mulRows f g (n+1)) w
        ≡ low (mulRows f g n) w + low (shiftAnd f n (g n)) w [MOD 2^w] := by
          rw [mulRows,low_sum_mod,Bool.toNat_false,Nat.add_zero]
          exact Nat.mod_modEq _ _
      _ ≡ low f w * low g n + (g n).toNat * 2^n * low f w [MOD 2^w] :=
          (ih (by omega)).add hrow
      _ = low f w * low g (n+1) := by rw [low_succ]; ring

/-- `f` moved up by `s` columns, filled with zeros. -/
def up (f : ℕ → Bool) (s k : ℕ) : Bool := if k < s then false else f (k-s)

def down (w : ℕ) (e : Bool) (f : ℕ → Bool) (s k : ℕ) : Bool := if k+s < w then f (k+s) else e

@[simp] theorem up_zero (f : ℕ → Bool) : up f 0 = f := by
  funext k
  simp [up]

theorem down_zero {w k : ℕ} (e : Bool) (f : ℕ → Bool) (hk : k < w) : down w e f 0 k = f k := by
  simp [down,hk]

theorem up_up (f : ℕ → Bool) (s t : ℕ) : up (up f s) t = up f (s+t) := by
  funext k
  unfold up
  split_ifs with h1 h2 h3 h4
  · rfl
  · omega
  · rfl
  · omega
  · omega
  · rw [Nat.sub_sub,Nat.add_comm]

theorem down_down {w k : ℕ} (e : Bool) (f : ℕ → Bool) (s t : ℕ) :
    down w e (down w e f s) t k = down w e f (s+t) k := by
  unfold down
  split_ifs with h1 h2 h3 h4
  · rw [Nat.add_assoc,Nat.add_comm t]
  · omega
  · omega
  · rfl
  · omega
  · rfl

theorem mod_two_pow_succ (y i : ℕ) :
    y % 2^(i+1) = y % 2^i + if y.testBit i then 2^i else 0 := by
  rw [← low_testBit,low_succ,low_testBit]
  cases y.testBit i <;> simp

theorem low_succ_lt (f g : ℕ → Bool) (n : ℕ) :
    decide (low f (n+1) < low g (n+1)) =
      ((!f n && g n) || (!(f n && !g n) && decide (low f n < low g n))) := by
  have hf := low_lt f n
  have hg := low_lt g n
  rw [Bool.eq_iff_iff,low_succ,low_succ]
  cases f n <;> cases g n <;> simp <;> omega

/-- The number a list of bits spells, most significant bit first. -/
def val : List Bool → ℕ
  | [] => 0
  | b :: bs => b.toNat * 2^bs.length + val bs

theorem val_eq_low (bs : List Bool) :
    val bs = low (fun k => bs.getD (bs.length-1-k) false) bs.length := by
  induction bs with
  | nil => rfl
  | cons b bs ih =>
    have hrest : ∀ k < bs.length,
        (b :: bs).getD (bs.length+1-1-k) false = bs.getD (bs.length-1-k) false := by
      intro k hk
      obtain ⟨j,hj⟩ : ∃ j, bs.length - k = j+1 := ⟨bs.length-k-1,by omega⟩
      have h1 : bs.length + 1 - 1 - k = j+1 := by omega
      have h2 : bs.length - 1 - k = j := by omega
      rw [h1,h2,List.getD_cons_succ]
    rw [val,List.length_cons,low_succ,low_congr hrest,← ih]
    simp [Nat.add_comm]

theorem val_lt (bs : List Bool) : val bs < 2^bs.length := by
  rw [val_eq_low]
  exact low_lt _ _

end Bits
end DvSolve
