import Mathlib.Tactic

/-! Two's complement: the number a `w`-bit pattern spells, signed or unsigned. -/
namespace DvSolve
namespace TwosComp

variable {s : Bool} {W : ℕ} {v u : ℤ}

/-- The low `w` bits of `u`, read with signedness `s`. -/
def wrap (u : ℤ) (w : ℕ) (s : Bool) : ℤ :=
  if s ∧ 2^w ≤ 2*(u % 2^w) then u % 2^w-2^w else u % 2^w

/-- The low `w` bits of `v` as a pattern. -/
def pat (v : ℤ) (w : ℕ) : ℕ := (v % 2^w).toNat

/-- `v` is a number of `w` bits and signedness `s`. -/
def InTy (v : ℤ) (w : ℕ) (s : Bool) : Prop :=
  if s then -2^w ≤ 2*v ∧ 2*v < 2^w else 0 ≤ v ∧ v < 2^w

theorem two_pow_pos (w : ℕ) : (0 : ℤ) < 2^w := by positivity

theorem emod_bounds (u : ℤ) (w : ℕ) : 0 ≤ u % 2^w ∧ u % 2^w < 2^w :=
  ⟨Int.emod_nonneg u (two_pow_pos w).ne',Int.emod_lt_of_pos u (two_pow_pos w)⟩

theorem wrap_inTy (u : ℤ) (w : ℕ) (s : Bool) : InTy (wrap u w s) w s := by
  obtain ⟨h0,h1⟩ := emod_bounds u w
  unfold wrap InTy
  cases s with
  | false => simp [h0,h1]
  | true =>
    simp only [true_and,if_true]
    split_ifs with h
    · constructor <;> omega
    · constructor <;> omega

@[simp] theorem wrap_emod (u : ℤ) (w : ℕ) (s : Bool) : wrap u w s % 2^w = u % 2^w := by
  unfold wrap
  split_ifs with h
  · rw [Int.sub_emod_right,Int.emod_emod_of_dvd _ (dvd_refl _)]
  · exact Int.emod_emod_of_dvd _ (dvd_refl _)

/-- A pattern spells one number of each type. -/
theorem InTy.eq_of_emod {v' : ℤ} {w : ℕ} (h : InTy v w s) (h' : InTy v' w s)
    (he : v % 2^w = v' % 2^w) : v = v' := by
  have hd : (2^w : ℤ) ∣ v-v' := Int.ModEq.dvd he.symm
  have hp := two_pow_pos w
  obtain ⟨k,hk⟩ := hd
  have hk0 : k = 0 := by
    unfold InTy at h h'
    have hlt : 2^w*k < 2^w*1 := by
      cases s with
      | false =>
        simp only [Bool.false_eq_true,if_false] at h h'
        omega
      | true =>
        simp only [if_true] at h h'
        omega
    have hgt : 2^w*(-1) < 2^w*k := by
      cases s with
      | false =>
        simp only [Bool.false_eq_true,if_false] at h h'
        omega
      | true =>
        simp only [if_true] at h h'
        omega
    have h1 := lt_of_mul_lt_mul_left hlt hp.le
    have h2 := lt_of_mul_lt_mul_left hgt hp.le
    omega
  rw [hk0,mul_zero] at hk
  omega

theorem wrap_of_inTy {w : ℕ} (h : InTy v w s) : wrap v w s = v :=
  (wrap_inTy v w s).eq_of_emod h (wrap_emod v w s)

theorem wrap_congr {u' : ℤ} {w : ℕ} (h : u % 2^w = u' % 2^w) (s : Bool) :
    wrap u w s = wrap u' w s := by
  unfold wrap
  rw [h]

theorem emod_of_le {u' : ℤ} {w : ℕ} (hw : w ≤ W) (h : u % 2^W = u' % 2^W) :
    u % 2^w = u' % 2^w := by
  have hd : (2^w : ℤ) ∣ 2^W := pow_dvd_pow 2 hw
  rw [← Int.emod_emod_of_dvd u hd,h,Int.emod_emod_of_dvd u' hd]

theorem wrap_wrap {w : ℕ} (hW : W ≤ w) (s S : Bool) :
    wrap (wrap u w s) W S = wrap u W S :=
  wrap_congr (emod_of_le hW (wrap_emod u w s)) S

theorem InTy.mono {w : ℕ} (h : InTy v w s) (hw : w ≤ W) : InTy v W s := by
  have hp : (2^w : ℤ) ≤ 2^W := pow_le_pow_right₀ (by norm_num) hw
  unfold InTy at h ⊢
  cases s with
  | false =>
    simp only [Bool.false_eq_true,if_false] at h ⊢
    omega
  | true =>
    simp only [if_true] at h ⊢
    omega

theorem wrap_wider {w : ℕ} (h : InTy v w s) (hw : w ≤ W) : wrap v W s = v :=
  wrap_of_inTy (h.mono hw)

theorem InTy.toSigned {w : ℕ} (h : InTy v w false) (hw : w < W) : InTy v W true := by
  have hp : (2^(w+1) : ℤ) ≤ 2^W := pow_le_pow_right₀ (by norm_num) hw
  rw [pow_succ] at hp
  unfold InTy at h ⊢
  simp only [Bool.false_eq_true,if_false,if_true] at h ⊢
  omega

theorem inTy_zero (w : ℕ) (s : Bool) : InTy 0 w s := by
  have hp := two_pow_pos w
  unfold InTy
  cases s with
  | false => simp [hp]
  | true =>
    simp only [if_true]
    omega

theorem inTy_bit {b : Bool} {w : ℕ} (hw : 0 < w) : InTy (if b then 1 else 0) w false := by
  have hp : (2^1 : ℤ) ≤ 2^w := pow_le_pow_right₀ (by norm_num) hw
  unfold InTy
  simp only [Bool.false_eq_true,if_false]
  split_ifs <;> omega

theorem wrap_eq_zero {w : ℕ} (h : InTy v w s) (hw : w ≤ W) (S : Bool) :
    wrap v W S = 0 ↔ v = 0 := by
  constructor
  · intro h0
    have he : v % 2^W = 0 % 2^W := by rw [← wrap_emod v W S,h0]
    exact h.eq_of_emod (inTy_zero w s) (emod_of_le hw he)
  · rintro rfl
    exact wrap_of_inTy (inTy_zero W S)

theorem pat_lt (v : ℤ) (w : ℕ) : pat v w < 2^w := by
  obtain ⟨h0,h1⟩ := emod_bounds v w
  have : ((2^w : ℕ) : ℤ) = 2^w := by push_cast; rfl
  unfold pat
  omega

theorem pat_cast (v : ℤ) (w : ℕ) : ((pat v w : ℕ) : ℤ) = v % 2^w :=
  Int.toNat_of_nonneg (emod_bounds v w).1

theorem pat_congr {u' : ℤ} {w : ℕ} (h : u % 2^w = u' % 2^w) : pat u w = pat u' w := by
  unfold pat
  rw [h]

theorem emod_of_pat {u' : ℤ} {w : ℕ} (h : pat u w = pat u' w) : u % 2^w = u' % 2^w := by
  rw [← pat_cast u w,← pat_cast u' w,h]

@[simp] theorem pat_wrap (u : ℤ) (w : ℕ) (s : Bool) : pat (wrap u w s) w = pat u w :=
  pat_congr (wrap_emod u w s)

theorem pat_natCast (n w : ℕ) : pat n w = n % 2^w := by
  have h : ((2^w : ℕ) : ℤ) = 2^w := by push_cast; rfl
  unfold pat
  rw [← h,← Int.natCast_mod,Int.toNat_natCast]

theorem wrap_false (u : ℤ) (w : ℕ) : wrap u w false = pat u w := by
  rw [pat_cast,wrap]
  simp

theorem pat_of_inTy {w : ℕ} (h : InTy v w false) (hw : w ≤ W) : (pat v W : ℤ) = v := by
  rw [← wrap_false,wrap_wider h hw]

theorem pat_mod {w : ℕ} (hw : w ≤ W) : pat u W % 2^w = pat u w := by
  rw [← pat_natCast]
  apply pat_congr
  rw [pat_cast,Int.emod_emod_of_dvd _ (pow_dvd_pow 2 hw)]

theorem pat_testBit {w i : ℕ} (hw : w ≤ W) (hi : i < w) :
    (pat u W).testBit i = (pat u w).testBit i := by
  rw [← pat_mod hw,Nat.testBit_mod_two_pow]
  simp [hi]

theorem pat_zero (w : ℕ) : pat 0 w = 0 := by simp [pat]

theorem InTy.pat_eq_zero {w : ℕ} (h : InTy v w s) : pat v w = 0 ↔ v = 0 := by
  constructor
  · intro h0
    exact h.eq_of_emod (inTy_zero w s) (emod_of_pat (h0.trans (pat_zero w).symm))
  · rintro rfl
    exact pat_zero w

theorem InTy.pat_inj {v' : ℤ} {w : ℕ} (h : InTy v w s) (h' : InTy v' w s) :
    pat v w = pat v' w ↔ v = v' :=
  ⟨fun he => h.eq_of_emod h' (emod_of_pat he),fun he => he ▸ rfl⟩

/-- The bits from `lo` up to `w` are clear. -/
theorem high_zero_iff {n lo w : ℕ} :
    (∀ i, lo ≤ i → i < w → n.testBit i = false) ↔ n % 2^w < 2^lo := by
  constructor
  · intro h
    apply Nat.lt_pow_two_of_testBit
    intro i hi
    rw [Nat.testBit_mod_two_pow]
    by_cases hiw : i < w
    · simp [h i hi hiw]
    · simp [hiw]
  · intro h i hi hiw
    have hb : (n % 2^w).testBit i = false :=
      Nat.testBit_lt_two_pow (lt_of_lt_of_le h (Nat.pow_le_pow_right (by decide) hi))
    simpa [Nat.testBit_mod_two_pow,hiw] using hb

theorem high_one_iff {n lo w : ℕ} (hle : lo ≤ w) :
    (∀ i, lo ≤ i → i < w → n.testBit i = true) ↔ 2^w ≤ n % 2^w+2^lo := by
  have hlt : n % 2^w < 2^w := Nat.mod_lt _ (by positivity)
  have hpow : 2^lo ≤ 2^w := Nat.pow_le_pow_right (by decide) hle
  have hcompl := @high_zero_iff (2^w-(n % 2^w+1)) lo w
  rw [Nat.mod_eq_of_lt (show 2^w-(n % 2^w+1) < 2^w by omega)] at hcompl
  have hbit : ∀ i, i < w → ((2^w-(n % 2^w+1)).testBit i = false ↔ n.testBit i = true) := by
    intro i hi
    rw [Nat.testBit_two_pow_sub_succ hlt,Nat.testBit_mod_two_pow]
    simp [hi]
  constructor
  · intro h
    have := hcompl.mp fun i h1 h2 => (hbit i h2).mpr (h i h1 h2)
    omega
  · intro h i h1 h2
    exact (hbit i h2).mp (hcompl.mpr (by omega) i h1 h2)

theorem wrap_true_natCast (n w : ℕ) :
    wrap n w true = if 2^w ≤ 2*(n % 2^w) then ((n % 2^w : ℕ) : ℤ)-2^w else ((n % 2^w : ℕ) : ℤ) := by
  unfold wrap
  simp only [true_and]
  split_ifs with h1 h2 h2
  · rfl
  · exact absurd (by exact_mod_cast h1) h2
  · exact absurd (by exact_mod_cast h2) h1
  · rfl

theorem top_bit_iff {n w : ℕ} (hw : 0 < w) (hn : n < 2^w) : n.testBit (w-1) = true ↔ 2^w ≤ 2*n := by
  have hpow : 2^w = 2*2^(w-1) := by rw [← pow_succ',Nat.sub_add_cancel hw]
  have hdiv : n/2^(w-1) < 2 := (Nat.div_lt_iff_lt_mul (by positivity)).mpr (by omega)
  rw [Nat.testBit_eq_decide_div_mod_eq,decide_eq_true_eq,Nat.mod_eq_of_lt hdiv,hpow]
  constructor
  · intro h
    have := Nat.div_mul_le_self n (2^(w-1))
    rw [h] at this
    omega
  · intro h
    have : 1 ≤ n/2^(w-1) := (Nat.one_le_div_iff (by positivity)).mpr (by omega)
    omega

theorem pat_sub_two_pow {n w : ℕ} (hn : n < 2^w) (hw : w < W) :
    pat ((n : ℤ)-2^w) W = 2^w*(2^(W-w)-1)+n := by
  have hsplit : 2^W = 2^w*2^(W-w) := by rw [← pow_add,Nat.add_sub_cancel' hw.le]
  have hone : 1 ≤ 2^(W-w) := Nat.one_le_two_pow
  have hz : (2^W : ℤ) = 2^w*2^(W-w) := by exact_mod_cast hsplit
  have he : ((n : ℤ)-2^w) % 2^W = ((2^w*(2^(W-w)-1)+n : ℕ) : ℤ) := by
    push_cast [hone]
    rw [Int.emod_eq_iff (two_pow_pos W).ne']
    refine ⟨by nlinarith,?_,⟨1,by rw [hz]; ring⟩⟩
    rw [hz,Int.natAbs_of_nonneg (by positivity)]
    nlinarith
  unfold pat
  rw [he,Int.toNat_natCast]

/-- The bits a number shows at `W` bits: those of its own width, then its sign. -/
theorem wrap_testBit (u : ℤ) (w : ℕ) (s : Bool) {i : ℕ} (hi : i < W) :
    (pat (wrap u w s) W).testBit i =
      if i < w then (pat u w).testBit i else s && (pat u w).testBit (w-1) := by
  have hlt := pat_lt u w
  by_cases hiw : i < w
  · rw [if_pos hiw]
    rcases le_total W w with hle | hle
    · rw [pat_testBit (u := u) hle hi]
      congr 1
      exact pat_congr (emod_of_le hle (wrap_emod u w s))
    · rw [pat_testBit hle hiw,pat_wrap]
  · rw [if_neg hiw]
    have hgt : w < W := by omega
    unfold wrap
    rw [← pat_cast u w]
    split_ifs with hneg
    · have hw : 0 < w := by
        rcases Nat.eq_zero_or_pos w with rfl | hw
        · exact absurd hneg.2 (by omega)
        · exact hw
      rw [pat_sub_two_pow hlt hgt,Nat.testBit_two_pow_mul_add _ hlt,if_neg hiw,
        Nat.testBit_two_pow_sub_one,hneg.1,(top_bit_iff hw hlt).mpr (by exact_mod_cast hneg.2)]
      simp
      omega
    · rw [pat_natCast,Nat.testBit_mod_two_pow,
        Nat.testBit_lt_two_pow (hlt.trans_le (Nat.pow_le_pow_right (by decide) (not_lt.mp hiw))),
        Bool.and_false,eq_comm,Bool.and_eq_false_iff]
      rcases Nat.eq_zero_or_pos w with rfl | hw
      · exact Or.inr (by simp [show pat u 0 = 0 by omega])
      · rw [Bool.eq_false_iff (b := (pat u w).testBit (w-1)),ne_eq,top_bit_iff hw hlt]
        cases s with
        | false => exact Or.inl rfl
        | true => exact Or.inr fun h => hneg ⟨rfl,by exact_mod_cast h⟩

end TwosComp
end DvSolve
