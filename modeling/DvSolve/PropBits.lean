import DvSolve.Deposit
import DvSolve.FireSem

/-! Bitwise operators: `_fire_bounds_band_64`, `_fire_bounds_bor_64`,
`_fire_bounds_bxor_64` and `_fire_bounds_bnot_64`. -/
namespace DvSolve
namespace Solver

open Deposit
open BitVec (allOnes getLsbD_or ofInt ofNat testBit_toNat toInt_eq_toNat_cond toInt_sshiftRight toNat_and toNat_not toNat_ofNat toNat_or toNat_xor xor_assoc xor_zero)
open Bool (false_eq_true)
open Nat (mod_eq_of_lt pow_le_pow_right two_pow_pos)

variable {v : Variable} {vars : ℕ → Variable} {s : Engine}
variable {m n : ℕ}

def i64Min (a b : BitVec 64) : BitVec 64 := if a.toInt < b.toInt then a else b

def i64Max (a b : BitVec 64) : BitVec 64 := if b.toInt < a.toInt then a else b

def fireBoundsBand64 (r a b : ℕ) : Fire :=
  .read a fun va => .read b fun vb =>
  let alo := varLo64 va
  let ahi := varHi64 va
  let blo := varLo64 vb
  let bhi := varHi64 vb
  if alo = ahi ∧ blo = bhi then .between r (alo &&& blo) (alo &&& blo) <| .done .ok
  else
    .when (0 ≤ alo.toInt) (.between r 0#64 ahi <| .done .ok) <|
    .when (0 ≤ blo.toInt) (.between r 0#64 bhi <| .done .ok) <|
    .when (ahi.toInt < 0 ∧ bhi.toInt < 0) (.need .ub64 r (i64Min ahi bhi) <| .done .ok) <|
    .done .ok

def popcountll (x : ℕ) : ℕ := count 64 x

def pdepLoop : ℕ → ℕ → ℕ → ℕ → ℕ
  | 0, _, _, r => r
  | n+1, k, m, r =>
    if m = 0 then r
    else pdepLoop n (k/2) (m &&& (m-1)) (if k%2 = 1 then r ||| (m &&& (2^64-m)) else r)

def pdep64 (k mask : ℕ) : ℕ := pdepLoop 64 k mask 0

def lastRank (F : ℕ) : ℕ := if F = 0 then 0 else 2^popcountll F-1

def maskedCeil (lo must allow : ℕ) : ℤ :=
  let F := allow &&& (2^64-1-must)
  if (must ||| F) < lo then -1
  else
    let a := firstFrom (fun k => decide (lo ≤ (must ||| pdep64 k F))) 64 0 (lastRank F)
    (ofNat 64 (must ||| pdep64 a F)).toInt

def maskedFloor (hi must allow : ℕ) : ℤ :=
  let F := allow &&& (2^64-1-must)
  if hi < must then -1
  else
    let a := lastTo (fun k => decide ((must ||| pdep64 k F) ≤ hi)) 64 0 (lastRank F)
    (ofNat 64 (must ||| pdep64 a F)).toInt

/-- `top |= top >> 1; ..; top |= top >> 32`. -/
def smear (x : BitVec 64) : BitVec 64 :=
  let x := x ||| x >>> 1
  let x := x ||| x >>> 2
  let x := x ||| x >>> 4
  let x := x ||| x >>> 8
  let x := x ||| x >>> 16
  x ||| x >>> 32

/-- One operand `x` of an `or` whose result is fixed at `rlo`, the other being `y`. -/
def orOperand (x y : ℕ) (rlo : BitVec 64) (k : Fire) : Fire :=
  .read y fun vy =>
  let ylo := varLo64 vy
  if ylo = varHi64 vy ∧ ylo &&& ~~~rlo ≠ 0#64 then .done .conflict
  else
    let must := if ylo = varHi64 vy then rlo &&& ~~~ylo else 0#64
    .read x fun vx =>
    let xl := maskedCeil (varLo64 vx).toNat must.toNat rlo.toNat
    let xh := maskedFloor (varHi64 vx).toNat must.toNat rlo.toNat
    if xl < 0 ∨ xh < 0 ∨ xh < xl then .done .conflict
    else .between x (ofInt 64 xl) (ofInt 64 xh) k

def fireBoundsBor64 (r a b : ℕ) : Fire :=
  .read a fun va => .read b fun vb =>
  let alo := varLo64 va
  let ahi := varHi64 va
  let blo := varLo64 vb
  let bhi := varHi64 vb
  if alo = ahi ∧ blo = bhi then .between r (alo ||| blo) (alo ||| blo) <| .done .ok
  else
    .when (0 ≤ alo.toInt ∧ 0 ≤ blo.toInt)
      (.between r (i64Max alo blo) (smear (ahi ||| bhi)) <|
        .read r fun vr =>
        let rhi := varHi64 vr
        .need .ub64 a rhi <| .need .ub64 b rhi <|
        .read r fun vr =>
        let rlo := varLo64 vr
        if rlo = rhi then orOperand a b rlo <| orOperand b a rlo <| .done .ok
        else .done .ok) <|
    .when (alo = ahi ∧ 0 ≤ alo.toInt ∧ 0 ≤ blo.toInt) (.need .lb64 r alo <| .done .ok) <|
    .when (blo = bhi ∧ 0 ≤ blo.toInt ∧ 0 ≤ alo.toInt) (.need .lb64 r blo <| .done .ok) <|
    .done .ok

/-- The operand `y` of an `xor` whose other operand is fixed at `k`. -/
def xorBack (r y : ℕ) (k : BitVec 64) : Fire :=
  .read r fun vr =>
  let rlo := varLo64 vr
  if rlo = varHi64 vr then .between y (rlo ^^^ k) (rlo ^^^ k) <| .done .ok else .done .ok

def flipBit (x : ℕ) (lo hi k : BitVec 64) (rest : Fire) : Fire :=
  .when (0 ≤ lo.toInt ∧ lo.sshiftRight k.ctz.toNat = hi.sshiftRight k.ctz.toNat)
    (.between x (i64Min (lo ^^^ k) (hi ^^^ k)) (i64Max (lo ^^^ k) (hi ^^^ k)) <| .done .ok) rest

def xorBit (r y : ℕ) (k : BitVec 64) : Fire :=
  .read y fun vy => flipBit r (varLo64 vy) (varHi64 vy) k <|
  .read r fun vr => flipBit y (varLo64 vr) (varHi64 vr) k <|
  .done .ok

def isBit (lo hi : BitVec 64) : Bool := lo == hi && decide (0 < lo.toInt) && lo &&& (lo-1#64) == 0#64

def fireBoundsBxor64 (r a b : ℕ) : Fire :=
  .read a fun va => .read b fun vb =>
  let alo := varLo64 va
  let ahi := varHi64 va
  let blo := varLo64 vb
  let bhi := varHi64 vb
  if alo = ahi ∧ blo = bhi then .between r (alo ^^^ blo) (alo ^^^ blo) <| .done .ok
  else
    Fire.andThen (if alo = ahi then xorBack r b alo else if blo = bhi then xorBack r a blo
      else .done .ok) <|
    .when (0 ≤ alo.toInt ∧ 0 ≤ blo.toInt) (.between r 0#64 (smear (ahi ||| bhi)) <| .done .ok) <|
    if isBit blo bhi then xorBit r a blo
    else if isBit alo ahi then xorBit r b alo
    else .done .ok

def fireBoundsBnot64 (r a : ℕ) : Fire :=
  .read r fun rv => .read a fun av =>
  let w := if rv.width ≠ 0 then rv.width else av.width
  let mask := if w ≥ 64 then allOnes 64 else (1#64 <<< w)-1#64
  let isSigned := rv.signed || av.signed
  let flip := fun x : BitVec 64 => if isSigned then -x-1#64 else mask &&& ~~~x
  .between r (flip (varHi64 av)) (flip (varLo64 av)) <|
  .read r fun rv => .between a (flip (varHi64 rv)) (flip (varLo64 rv)) <|
  .done .ok

theorem exists_lowest (h0 : m ≠ 0) (hm : m < 2^64) :
    ∃ t < 64, ∃ q, m = 2^t*(2*q+1) := by
  obtain ⟨t,o,ho,rfl⟩ := Nat.exists_eq_two_pow_mul_odd h0
  obtain ⟨q,rfl⟩ := ho
  refine ⟨t,?_,q,rfl⟩
  by_contra hge
  have := pow_le_pow_right (show 0 < 2 by decide) (not_lt.mp hge)
  nlinarith [two_pow_pos t]

theorem pdepLoop_eq {k r : ℕ} (hm : m < 2^64) (hn : count 64 m ≤ n) :
    pdepLoop n k m r = r ||| place 64 k m := by
  induction n generalizing k m r with
  | zero =>
    by_cases h0 : m = 0
    · rw [h0,place_empty,Nat.or_zero]
      rfl
    · obtain ⟨t,ht,q,rfl⟩ := exists_lowest h0 hm
      rw [count_lowest ht] at hn
      omega
  | succ n ih =>
    rw [pdepLoop]
    split_ifs with h0 h1
    · rw [h0,place_empty,Nat.or_zero]
    · obtain ⟨t,ht,q,rfl⟩ := exists_lowest h0 hm
      rw [count_lowest ht] at hn
      rw [clear_lowest,keep_lowest hm,ih (by nlinarith [two_pow_pos t]) (by omega),
        place_lowest ht,if_pos h1,Nat.or_assoc]
    · obtain ⟨t,ht,q,rfl⟩ := exists_lowest h0 hm
      rw [count_lowest ht] at hn
      rw [clear_lowest,ih (by nlinarith [two_pow_pos t]) (by omega),place_lowest ht,if_neg h1,Nat.zero_or]

theorem pdep64_eq {k : ℕ} (hm : m < 2^64) : pdep64 k m = place 64 k m := by
  rw [pdep64,pdepLoop_eq hm,Nat.zero_or]
  exact (List.countP_le_length).trans (by simp)

/-- Every bit of `must` and none outside `allow`. -/
def Between (must allow y : ℕ) : Prop :=
  ∀ i, (must.testBit i = true → y.testBit i = true) ∧ (y.testBit i = true → allow.testBit i = true)

section Masked

variable {must allow y : ℕ}

theorem lastRank_eq (F : ℕ) : lastRank F = 2^count 64 F-1 := by
  unfold lastRank
  split_ifs with h
  · rw [h]
    simp [count]
  · rfl

theorem free_testBit (hm : must < 2^64) (hallow : allow < 2^64) (i : ℕ) :
    (allow &&& (2^64-1-must)).testBit i = (allow.testBit i && !must.testBit i) := by
  rw [Nat.testBit_and,show 2^64-1-must = 2^64-(must+1) by omega,Nat.testBit_two_pow_sub_succ hm]
  by_cases hi : i < 64
  · simp [hi]
  · rw [Nat.testBit_lt_two_pow (hallow.trans_le (pow_le_pow_right (by decide) (not_lt.mp hi)))]
    simp

theorem Between.must_le (h : Between must allow must) : must ≤ allow :=
  Nat.le_of_testBit fun i => (h i).2

theorem Between.le (h : Between must allow y) : y ≤ allow := Nat.le_of_testBit fun i => (h i).2

theorem between_self (h : must &&& allow = must) : Between must allow must := fun i =>
  ⟨id,fun hi => by
    rw [← h,Nat.testBit_and,Bool.and_eq_true] at hi
    exact hi.2⟩

theorem between_iff (hb : Between must allow must) (hallow : allow < 2^64) :
    Between must allow y ↔ ∃ k < 2^count 64 (allow &&& (2^64-1-must)),
        y = (must ||| place 64 k (allow &&& (2^64-1-must))) := by
  have hfree := free_testBit (hb.must_le.trans_lt hallow) hallow
  constructor
  · intro h
    obtain ⟨k,hk,hp⟩ := exists_rank (n:=64) (F:=allow &&& (2^64-1-must))
      (f:=y &&& (2^64-1-must)) (Nat.and_le_left.trans_lt hallow) fun i hi => by
        rw [free_testBit (hb.must_le.trans_lt hallow) (h.le.trans_lt hallow)] at hi
        rw [hfree]
        have := (h i).2
        cases hy : y.testBit i <;> simp_all
    refine ⟨k,hk,Nat.eq_of_testBit_eq fun i => ?_⟩
    rw [hp,Nat.testBit_or,free_testBit (hb.must_le.trans_lt hallow) (h.le.trans_lt hallow)]
    have := (h i).1
    cases hy : y.testBit i <;> cases hmi : must.testBit i <;> simp_all
  · rintro ⟨k,_,rfl⟩ i
    rw [Nat.testBit_or]
    refine ⟨fun h => by simp [h],fun h => ?_⟩
    rcases Bool.or_eq_true_iff.mp h with h | h
    · exact (hb i).2 h
    · have := place_testBit_le h
      simp_all

theorem must_and_free (hm : must < 2^64) (hallow : allow < 2^64) :
    must &&& (allow &&& (2^64-1-must)) = 0 :=
  Nat.eq_of_testBit_eq fun i => by
    rw [Nat.testBit_and,free_testBit hm hallow,Nat.zero_testBit]
    cases must.testBit i <;> simp

theorem toInt_ofNat_of_lt {x : ℕ} (h : x < 2^63) : (ofNat 64 x).toInt = x := by
  have h1 : (ofNat 64 x).toNat = x := by
    rw [toNat_ofNat]
    exact mod_eq_of_lt (by omega)
  rw [BitVec.toInt_eq_toNat_of_lt (by omega),h1]

theorem last_lt (F : ℕ) : 2^count 64 F-1 < 2^64 := by
  have : count 64 F ≤ 64 := (List.countP_le_length).trans (by simp)
  have := pow_le_pow_right (show 0 < 2 by decide) this
  omega

theorem maskedCeil_spec (lo : ℕ) (hb : Between must allow must) (hallow : allow < 2^63) :
    (maskedCeil lo must allow = -1 ∧ ∀ z, Between must allow z → z < lo) ∨
      ∃ y : ℕ, maskedCeil lo must allow = y ∧ Between must allow y ∧ lo ≤ y ∧
        ∀ z, Between must allow z → lo ≤ z → y ≤ z := by
  have hallow' : allow < 2^64 := by omega
  have hF : allow &&& (2^64-1-must) < 2^64 := Nat.and_le_left.trans_lt hallow'
  have hbet := fun y => between_iff (y:=y) hb hallow'
  have hdis := must_and_free (hb.must_le.trans_lt hallow') hallow'
  unfold maskedCeil
  generalize allow &&& (2^64-1-must) = F at *
  have hpos := two_pow_pos (count 64 F)
  simp only [pdep64_eq hF,lastRank_eq]
  have hlast : place 64 (2^count 64 F-1) F = F := place_top hF
  split_ifs with hlo
  · refine .inl ⟨rfl,fun z hz => ?_⟩
    obtain ⟨k,hk,rfl⟩ := (hbet z).mp hz
    have := or_place_le (n:=64) hdis (show k ≤ 2^count 64 F-1 by omega) (by omega)
    rw [hlast] at this
    omega
  · obtain ⟨h1,h2,h3⟩ := firstFrom_spec (n:=64) (a:=0) (b:=2^count 64 F-1) (u:=2^count 64 F-1)
      (p:=fun k => decide (lo ≤ (must ||| place 64 k F)))
      (fun i j hij hj hi => by
        have := or_place_le hdis hij (show j < 2^count 64 F by omega)
        simp only [decide_eq_true_eq] at hi ⊢
        omega)
      (Nat.zero_le _)
      (last_lt F)
      (le_refl _) (by simpa [hlast] using hlo) (by simp)
    simp only [decide_eq_true_eq] at h2
    generalize hr : firstFrom (fun k => decide (lo ≤ (must ||| place 64 k F))) 64 0
      (2^count 64 F-1) = r at *
    have hy : Between must allow (must ||| place 64 r F) := (hbet _).mpr ⟨r,by omega,rfl⟩
    refine .inr ⟨_,toInt_ofNat_of_lt (hy.le.trans_lt hallow),hy,h2,fun z hz hlz => ?_⟩
    obtain ⟨k,hk,rfl⟩ := (hbet z).mp hz
    refine or_place_le hdis ?_ hk
    by_contra hlt
    have := h3 k (by omega)
    simp only [decide_eq_false_iff_not] at this
    exact this hlz

theorem maskedFloor_spec (hi : ℕ) (hb : Between must allow must) (hallow : allow < 2^63) :
    (maskedFloor hi must allow = -1 ∧ ∀ z, Between must allow z → hi < z) ∨
      ∃ y : ℕ, maskedFloor hi must allow = y ∧ Between must allow y ∧ y ≤ hi ∧
        ∀ z, Between must allow z → z ≤ hi → z ≤ y := by
  have hallow' : allow < 2^64 := by omega
  have hF : allow &&& (2^64-1-must) < 2^64 := Nat.and_le_left.trans_lt hallow'
  have hbet := fun y => between_iff (y:=y) hb hallow'
  have hdis := must_and_free (hb.must_le.trans_lt hallow') hallow'
  unfold maskedFloor
  generalize allow &&& (2^64-1-must) = F at *
  have hpos := two_pow_pos (count 64 F)
  simp only [pdep64_eq hF,lastRank_eq]
  split_ifs with hhi
  · refine .inl ⟨rfl,fun z hz => ?_⟩
    exact hhi.trans_le (Nat.le_of_testBit fun i => (hz i).1)
  · obtain ⟨h1,h2,h3⟩ := lastTo_spec (n:=64) (a:=0) (b:=2^count 64 F-1) (u:=2^count 64 F-1)
      (p:=fun k => decide ((must ||| place 64 k F) ≤ hi))
      (fun i j hij hj hi => by
        have := or_place_le hdis hij (show j < 2^count 64 F by omega)
        simp only [decide_eq_true_eq] at hi ⊢
        omega)
      (Nat.zero_le _)
      (last_lt F)
      (le_refl _) (by simpa [place_zero] using hhi) (fun i h1 h2 => by omega)
    simp only [decide_eq_true_eq] at h2
    generalize hr : lastTo (fun k => decide ((must ||| place 64 k F) ≤ hi)) 64 0
      (2^count 64 F-1) = r at *
    have hy : Between must allow (must ||| place 64 r F) := (hbet _).mpr ⟨r,by omega,rfl⟩
    refine .inr ⟨_,toInt_ofNat_of_lt (hy.le.trans_lt hallow),hy,h2,fun z hz hlz => ?_⟩
    obtain ⟨k,hk,rfl⟩ := (hbet z).mp hz
    refine or_place_le hdis ?_ (by omega)
    by_contra hlt
    have := h3 k (by omega) (by omega)
    simp only [decide_eq_false_iff_not] at this
    exact this hlz

end Masked

section Words

variable {A B x y : BitVec 64}

theorem toInt_of_nonneg (h : 0 ≤ A.toInt) : A.toInt = A.toNat ∧ A.toNat < 2^63 := by
  rw [toInt_eq_toNat_cond] at h ⊢
  split_ifs at h ⊢ <;> omega

theorem toInt_of_neg (h : A.toInt < 0) : A.toInt = A.toNat-2^64 ∧ 2^63 ≤ A.toNat := by
  rw [toInt_eq_toNat_cond] at h ⊢
  split_ifs at h ⊢ <;> omega

theorem toInt_of_lt (h : A.toNat < 2^63) : A.toInt = A.toNat :=
  BitVec.toInt_eq_toNat_of_lt (by omega)

theorem toInt_of_ge (h : 2^63 ≤ A.toNat) : A.toInt = A.toNat-2^64 := by
  rw [toInt_eq_toNat_cond,if_neg (by omega)]
  norm_num

theorem i64Min_toInt (A B : BitVec 64) : (i64Min A B).toInt = min A.toInt B.toInt := by
  unfold i64Min
  split_ifs <;> omega

theorem i64Max_toInt (A B : BitVec 64) : (i64Max A B).toInt = max A.toInt B.toInt := by
  unfold i64Max
  split_ifs <;> omega

theorem and_nonneg (hA : 0 ≤ A.toInt) : 0 ≤ (A &&& B).toInt ∧ (A &&& B).toInt ≤ A.toInt := by
  obtain ⟨h1,h2⟩ := toInt_of_nonneg hA
  have hle : (A &&& B).toNat ≤ A.toNat := by
    rw [toNat_and]
    exact Nat.and_le_left
  rw [toInt_of_lt (hle.trans_lt h2),h1]
  omega

/-- The sign survives in an `and` of negative numbers, and other bits only go. -/
theorem and_neg (hA : A.toInt < 0) (hB : B.toInt < 0) : (A &&& B).toInt ≤ A.toInt := by
  obtain ⟨h1,h2⟩ := toInt_of_neg hA
  obtain ⟨h3,h4⟩ := toInt_of_neg hB
  have hle : (A &&& B).toNat ≤ A.toNat := by
    rw [toNat_and]
    exact Nat.and_le_left
  have hge : 2^63 ≤ (A &&& B).toNat := by
    rw [toNat_and]
    have hA' := Nat.testBit_of_two_pow_le_and_two_pow_add_one_gt h2 A.isLt
    have hB' := Nat.testBit_of_two_pow_le_and_two_pow_add_one_gt h4 B.isLt
    exact Nat.ge_two_pow_of_testBit (by rw [Nat.testBit_and,hA',hB']; rfl)
  rw [toInt_of_ge hge,h1]
  omega

theorem or_nonneg (hA : 0 ≤ A.toInt) (hB : 0 ≤ B.toInt) :
    A.toInt ≤ (A ||| B).toInt ∧ B.toInt ≤ (A ||| B).toInt := by
  obtain ⟨h1,h2⟩ := toInt_of_nonneg hA
  obtain ⟨h3,h4⟩ := toInt_of_nonneg hB
  have hlt : (A ||| B).toNat < 2^63 := by
    rw [toNat_or]
    exact Nat.or_lt_two_pow h2 h4
  have hA' : A.toNat ≤ (A ||| B).toNat := by rw [toNat_or]; exact Nat.left_le_or
  have hB' : B.toNat ≤ (A ||| B).toNat := by rw [toNat_or]; exact Nat.right_le_or
  rw [toInt_of_lt hlt,h1,h3]
  omega

/-- Whether some bit of `x` from `i` up, within `n` of it, is set. -/
def anyBit (x : BitVec 64) (n i : ℕ) : Prop := ∃ j, i ≤ j ∧ j < i+n ∧ x.getLsbD j = true

theorem anyBit_double (h : ∀ i, y.getLsbD i = true ↔ anyBit x n i) (i : ℕ) :
    (y ||| y >>> n).getLsbD i = true ↔ anyBit x (n+n) i := by
  rw [getLsbD_or,BitVec.getLsbD_ushiftRight,Bool.or_eq_true,h,h]
  constructor
  · rintro (⟨j,h1,h2,h3⟩ | ⟨j,h1,h2,h3⟩)
    · exact ⟨j,h1,by omega,h3⟩
    · exact ⟨j,by omega,by omega,h3⟩
  · rintro ⟨j,h1,h2,h3⟩
    by_cases hj : j < i+n
    · exact .inl ⟨j,h1,hj,h3⟩
    · exact .inr ⟨j,by omega,by omega,h3⟩

theorem smear_getLsbD (x : BitVec 64) (i : ℕ) :
    (smear x).getLsbD i = true ↔ ∃ j, i ≤ j ∧ x.getLsbD j = true := by
  have h0 : ∀ i, x.getLsbD i = true ↔ anyBit x 1 i := fun i =>
    ⟨fun h => ⟨i,le_refl _,by omega,h⟩,fun ⟨j,h1,h2,h3⟩ => by
      obtain rfl : i = j := by omega
      exact h3⟩
  have h6 := anyBit_double (anyBit_double (anyBit_double (anyBit_double (anyBit_double
    (anyBit_double h0)))))
  unfold smear
  rw [h6]
  constructor
  · rintro ⟨j,h1,_,h3⟩
    exact ⟨j,h1,h3⟩
  · rintro ⟨j,h1,h3⟩
    have := BitVec.lt_of_getLsbD h3
    exact ⟨j,h1,by omega,h3⟩

theorem exists_bit_ge {i : ℕ} (hle : m ≤ n) (hm : m.testBit i = true) :
    ∃ j, i ≤ j ∧ n.testBit j = true := by
  have h1 : 2^i ≤ n := (Nat.ge_two_pow_of_testBit hm).trans hle
  by_contra hno
  push Not at hno
  have : n < 2^i := by
    refine Nat.lt_pow_two_of_testBit n fun j hj => ?_
    simpa using hno j hj
  omega

/-- What has bits of two numbers only lies below the smear of their bounds. -/
theorem le_smear {C : BitVec 64} (hA : A.toNat ≤ x.toNat) (hB : B.toNat ≤ y.toNat)
    (hC : ∀ i, C.getLsbD i = true → A.getLsbD i = true ∨ B.getLsbD i = true) :
    C.toNat ≤ (smear (x ||| y)).toNat := by
  refine Nat.le_of_testBit fun i hi => ?_
  rw [testBit_toNat] at hi ⊢
  rw [smear_getLsbD]
  rcases hC i hi with h | h
  · rw [← testBit_toNat] at h
    obtain ⟨j,hj,hb⟩ := exists_bit_ge hA h
    rw [testBit_toNat] at hb
    exact ⟨j,hj,by rw [getLsbD_or,hb,Bool.true_or]⟩
  · rw [← testBit_toNat] at h
    obtain ⟨j,hj,hb⟩ := exists_bit_ge hB h
    rw [testBit_toNat] at hb
    exact ⟨j,hj,by rw [getLsbD_or,hb,Bool.or_true]⟩

theorem smear_lt (hx : x.toNat < 2^63) (hy : y.toNat < 2^63) : (smear (x ||| y)).toNat < 2^63 := by
  refine Nat.lt_pow_two_of_testBit _ fun i hi => ?_
  rw [testBit_toNat,← Bool.not_eq_true,smear_getLsbD]
  rintro ⟨j,hj,hb⟩
  rw [← testBit_toNat,toNat_or] at hb
  have := Nat.ge_two_pow_of_testBit hb
  have hlt := Nat.or_lt_two_pow hx hy
  have := pow_le_pow_right (show 0 < 2 by decide) (hi.trans hj)
  omega

theorem toInt_le_smear {C : BitVec 64} (ha : 0 ≤ A.toInt) (hb : 0 ≤ B.toInt)
    (hA : A.toInt ≤ x.toInt) (hB : B.toInt ≤ y.toInt) (hC : 0 ≤ C.toInt)
    (hor : ∀ i, C.getLsbD i = true → A.getLsbD i = true ∨ B.getLsbD i = true) :
    C.toInt ≤ (smear (x ||| y)).toInt := by
  have h1 := toInt_of_nonneg ha
  have h2 := toInt_of_nonneg hb
  have h3 := toInt_of_nonneg (ha.trans hA)
  have h4 := toInt_of_nonneg (hb.trans hB)
  have h5 := toInt_of_nonneg hC
  have h6 := le_smear (show A.toNat ≤ x.toNat by omega) (show B.toNat ≤ y.toNat by omega) hor
  rw [toInt_of_lt (smear_lt h3.2 h4.2)]
  omega

end Words

/-- A pattern as the 64 bit word of its number. -/
def extend {w : ℕ} (sg : Bool) (x : BitVec w) : BitVec 64 :=
  if sg then x.signExtend 64 else x.setWidth 64

structure OneType (W : List ℕ) (w : ℕ) (sg : Bool) (vars : ℕ → Variable) : Prop where
  ok : ∀ v ∈ W, (vars v).Ok
  width : ∀ v ∈ W, (vars v).width = w
  signed : ∀ v ∈ W, (vars v).signed = sg

theorem OneType.ord {W : List ℕ} {w x y : ℕ} {sg : Bool} (h : OneType W w sg vars) (hx : x ∈ W)
    (hy : y ∈ W) (c : BitVec 64) : varOrd (vars x) c = varOrd (vars y) c := by
  simp only [varOrd,h.width x hx,h.signed x hx,h.width y hy,h.signed y hy]

theorem ofInt_eq_extend {w : ℕ} {sg : Bool} (hv : v.Ok) (hw : v.width = w) (hs : v.signed = sg)
    {x : ℤ} (hlo : v.bot ≤ x) (hhi : x ≤ v.top) :
    ofInt 64 x = extend sg (ofInt w x) := by
  subst hw hs
  have hw := hv.le
  have hpos := hv.pos
  unfold extend
  cases hs : v.signed
  · apply BitVec.eq_of_toNat_eq
    simp only [Variable.bot,Variable.top,hs,false_eq_true,if_false] at hlo hhi
    have hp : (2 : ℤ)^v.width ≤ 2^64 := pow_le_pow_right₀ (by norm_num) hw
    have h2 : ((2^v.width : ℕ) : ℤ) = 2^v.width := by push_cast; rfl
    simp only [false_eq_true,if_false,BitVec.toNat_setWidth,BitVec.toNat_ofInt]
    rw [Int.emod_eq_of_lt hlo (by norm_num; omega),Int.emod_eq_of_lt hlo (by omega)]
    rw [mod_eq_of_lt (by omega)]
  · apply BitVec.eq_of_toInt_eq
    simp only [Variable.bot,Variable.top,hs,if_true] at hlo hhi
    have hp : (2 : ℤ)^(v.width-1) ≤ 2^63 := pow_le_pow_right₀ (by norm_num) (by omega)
    simp only [if_true]
    rw [BitVec.toInt_signExtend_of_le hw,toInt_ofInt_of (by omega) (by omega),
      BitVec.toInt_ofInt_eq_self hpos hlo (by omega)]

section Extend

variable {w : ℕ} {sg : Bool} {x y : BitVec w}

theorem extend_and : extend sg (x &&& y) = extend sg x &&& extend sg y := by
  cases sg <;> simp [extend]

theorem extend_or : extend sg (x ||| y) = extend sg x ||| extend sg y := by
  cases sg <;> simp [extend]

theorem extend_xor : extend sg (x ^^^ y) = extend sg x ^^^ extend sg y := by
  cases sg <;> simp [extend]

theorem setWidth_extend (h : w ≤ 64) : (extend sg x).setWidth w = x := by
  apply BitVec.eq_of_getLsbD_eq
  intro i hi
  have h64 : i < 64 := by omega
  cases sg <;> simp [extend,BitVec.getElem_signExtend,hi,h64]

theorem extend_inj (hw : w ≤ 64) (h : extend sg x = extend sg y) : x = y := by
  have hx := congrArg (BitVec.setWidth w) h
  rwa [setWidth_extend hw,setWidth_extend hw] at hx

end Extend

section Bounds

variable {x : ℤ} {b C : BitVec 64}

theorem operand_toInt (hr : rng64 v = true) (h1 : v.least ≤ x) (h2 : x ≤ v.most) :
    (ofInt 64 x).toInt = x ∧ (varLo64 v).toInt ≤ x ∧ x ≤ (varHi64 v).toInt ∧
      (v.beyond = true → 0 ≤ x) := by
  have hlo := least_of_rng64 hr
  have hhi := most_of_rng64 hr
  have h3 := BitVec.le_toInt (varLo64 v)
  have h4 := BitVec.toInt_lt (x := varHi64 v)
  refine ⟨toInt_ofInt_of (by omega) (by omega),by omega,by omega,fun hb => ?_⟩
  have : (0 : ℤ) ≤ v.least := by
    rw [Variable.least,varOrd_beyond hb]
    omega
  omega

theorem lb_of_toInt (hC : varOrd v C = x) (hb : b.toInt ≤ C.toInt)
    (hn : v.beyond = true → 0 ≤ b.toInt) : varOrd v b ≤ x := by
  rw [← hC,varOrd_of_nonneg hn,varOrd_of_nonneg fun h => (hn h).trans hb]
  exact hb

theorem ub_of_toInt (hC : varOrd v C = x) (hb : C.toInt ≤ b.toInt)
    (hn : v.beyond = true → 0 ≤ C.toInt) : x ≤ varOrd v b := by
  rw [← hC,varOrd_of_nonneg hn,varOrd_of_nonneg fun h => (hn h).trans hb]
  exact hb

theorem varLo64_eq (hv : v.Ok) (h1 : v.least = x) (h2 : v.most = x) :
    varLo64 v = ofInt 64 x := by
  refine varOrd_inj (v:=v) ?_
  rw [hv.varOrd_ofInt (hv.inType h1.le h2.ge).1 (hv.inType h1.le h2.ge).2]
  exact h1

theorem varHi64_eq (hv : v.Ok) (h1 : v.least = x) (h2 : v.most = x) :
    varHi64 v = ofInt 64 x := by
  refine varOrd_inj (v:=v) ?_
  rw [hv.varOrd_ofInt (hv.inType h1.le h2.ge).1 (hv.inType h1.le h2.ge).2]
  exact h2

theorem Pinned.fixed {W : List ℕ} {σ : ℕ → ℤ} {id : ℕ} (hp : Pinned W vars σ) (hid : id ∈ W) :
    varLo64 (vars id) = varHi64 (vars id) :=
  varOrd_inj ((hp.least id hid).trans (hp.most id hid).symm)

theorem word_of_fixed (hv : v.Ok) (hfix : varLo64 v = varHi64 v) (h1 : v.least ≤ x)
    (h2 : x ≤ v.most) : varLo64 v = ofInt 64 x := by
  have hm : v.most = v.least := by rw [Variable.most,Variable.least,hfix]
  exact varLo64_eq hv (by omega) (by omega)

end Bounds

section Operators

variable {r a b w : ℕ} {sg : Bool} {σ : ℕ → ℤ} {op : (n : ℕ) → BitVec n → BitVec n → BitVec n}

/-- `r` is the operator's result on the patterns of `a` and `b`. -/
def BitRel (op : (n : ℕ) → BitVec n → BitVec n → BitVec n) (w r a b : ℕ) (σ : ℕ → ℤ) : Prop :=
  ofInt w (σ r) = op w (ofInt w (σ a)) (ofInt w (σ b))

/-- An operator that works bit by bit, on patterns and on the words that hold them. -/
def Bitwise (op : (n : ℕ) → BitVec n → BitVec n → BitVec n) : Prop :=
  ∀ (sg : Bool) (n : ℕ) (x y : BitVec n), extend sg (op n x y) = op 64 (extend sg x) (extend sg y)

theorem BitRel.iff (hop : Bitwise op) (h : OneType [r,a,b] w sg vars)
    (hσ : Inside [r,a,b] vars σ) :
    BitRel op w r a b σ ↔ ofInt 64 (σ r) = op 64 (ofInt 64 (σ a)) (ofInt 64 (σ b)) := by
  have hext : ∀ v ∈ [r,a,b], ofInt 64 (σ v) = extend sg (ofInt w (σ v)) :=
    fun v hv => ofInt_eq_extend (h.ok v hv) (h.width v hv) (h.signed v hv)
      ((h.ok v hv).inType (hσ.least v hv) (hσ.most v hv)).1
      ((h.ok v hv).inType (hσ.least v hv) (hσ.most v hv)).2
  have hw : w ≤ 64 := by
    rw [← h.width r (by simp)]
    exact (h.ok r (by simp)).le
  rw [hext r (by simp),hext a (by simp),hext b (by simp),← hop]
  exact ⟨fun h => congrArg _ h,extend_inj hw⟩

theorem bitwise_and : Bitwise fun _ x y => x &&& y := fun _ _ _ _ => extend_and

theorem bitwise_or : Bitwise fun _ x y => x ||| y := fun _ _ _ _ => extend_or

theorem bitwise_xor : Bitwise fun _ x y => x ^^^ y := fun _ _ _ _ => extend_xor

theorem fixed_refutes (hop : Bitwise op) (h : OneType [r,a,b] w sg s.ctx.vars)
    (hp : Pinned [r,a,b] s.ctx.vars σ) (hR : ¬BitRel op w r a b σ) :
    (Fire.between r (op 64 (varLo64 (s.ctx.vars a)) (varLo64 (s.ctx.vars b)))
      (op 64 (varLo64 (s.ctx.vars a)) (varLo64 (s.ctx.vars b))) (.done .ok)).wp
      (fun res _ => res = .conflict) s.ctx.vars := by
  refine Fire.wp_between_pinned (.refl h.ok) hp (by simp) (fun _ => rfl)
    fun hlo hhi vars' _ _ => absurd ?_ hR
  have hσ : Inside [r,a,b] s.ctx.vars σ :=
    ⟨fun v hv => (hp.least v hv).le,fun v hv => (hp.most v hv).ge⟩
  have hok := h.ok r (by simp)
  have hin := hok.inType (hσ.least r (by simp)) (hσ.most r (by simp))
  rw [BitRel.iff hop h hσ]
  rw [varLo64_eq (h.ok a (by simp)) (hp.least a (by simp)) (hp.most a (by simp)),
    varLo64_eq (h.ok b (by simp)) (hp.least b (by simp)) (hp.most b (by simp))] at hlo hhi
  refine varOrd_inj (v:=s.ctx.vars r) ?_
  rw [hok.varOrd_ofInt hin.1 hin.2]
  omega

/-- What an operand is known to be: its word reads as its number, between its bounds. -/
structure Operand (v : Variable) (x : ℤ) : Prop where
  toInt : (ofInt 64 x).toInt = x
  lo : (varLo64 v).toInt ≤ x
  hi : x ≤ (varHi64 v).toInt
  nonneg : v.beyond = true → 0 ≤ x

/-- A solution of a bitwise relation, in words. -/
structure Solved (op : (n : ℕ) → BitVec n → BitVec n → BitVec n) (r a b : ℕ)
    (vars : ℕ → Variable) (σ : ℕ → ℤ) (A B C : BitVec 64) : Prop where
  ok : ∀ v ∈ [r,a,b], (vars v).Ok
  left : A = ofInt 64 (σ a)
  right : B = ofInt 64 (σ b)
  opA : Operand (vars a) (σ a)
  opB : Operand (vars b) (σ b)
  eq : C = op 64 A B
  ord : varOrd (vars r) C = σ r
  nonneg : (vars r).beyond = true → 0 ≤ σ a ∧ 0 ≤ σ b

theorem Solved.of (hop : Bitwise op) (h : OneType [r,a,b] w sg vars) (hσ : Inside [r,a,b] vars σ)
    (ha : rng64 (vars a) = true) (hb : rng64 (vars b) = true) (hR : BitRel op w r a b σ) :
    Solved op r a b vars σ (ofInt 64 (σ a)) (ofInt 64 (σ b))
      (ofInt 64 (σ r)) := by
  obtain ⟨a1,a2,a3,a4⟩ := operand_toInt ha (hσ.least a (by simp)) (hσ.most a (by simp))
  obtain ⟨b1,b2,b3,b4⟩ := operand_toInt hb (hσ.least b (by simp)) (hσ.most b (by simp))
  have hok := h.ok r (by simp)
  have hin := hok.inType (hσ.least r (by simp)) (hσ.most r (by simp))
  refine ⟨h.ok,rfl,rfl,⟨a1,a2,a3,a4⟩,⟨b1,b2,b3,b4⟩,(BitRel.iff hop h hσ).mp hR,
    hok.varOrd_ofInt hin.1 hin.2,fun hr => ⟨a4 ?_,b4 ?_⟩⟩
  all_goals
    rw [← hr]
    unfold Variable.beyond
    simp [h.width,h.signed]

section Solved

variable {A B C x : BitVec 64}

theorem Solved.toInt_a (h : Solved op r a b vars σ A B C) : A.toInt = σ a := h.left ▸ h.opA.toInt

theorem Solved.toInt_b (h : Solved op r a b vars σ A B C) : B.toInt = σ b := h.right ▸ h.opB.toInt

theorem Solved.fixed (h : Solved op r a b vars σ A B C) (hσ : Inside [r,a,b] vars σ)
    (ha : varLo64 (vars a) = varHi64 (vars a)) (hb : varLo64 (vars b) = varHi64 (vars b)) :
    varOrd (vars r) (op 64 (varLo64 (vars a)) (varLo64 (vars b))) = σ r := by
  rw [word_of_fixed (h.ok a (by simp)) ha (hσ.least a (by simp)) (hσ.most a (by simp)),
    word_of_fixed (h.ok b (by simp)) hb (hσ.least b (by simp)) (hσ.most b (by simp)),
    ← h.left,← h.right,← h.eq,h.ord]

theorem Solved.lb (h : Solved op r a b vars σ A B C) (hb : x.toInt ≤ C.toInt)
    (hn : (vars r).beyond = true → 0 ≤ x.toInt) : varOrd (vars r) x ≤ σ r :=
  lb_of_toInt h.ord hb hn

theorem Solved.ub (h : Solved op r a b vars σ A B C) (hb : C.toInt ≤ x.toInt)
    (hn : (vars r).beyond = true → 0 ≤ C.toInt) : σ r ≤ varOrd (vars r) x :=
  ub_of_toInt h.ord hb hn

end Solved

end Operators

section And

variable {r a b w : ℕ} {sg : Bool} {σ : ℕ → ℤ} {A B C : BitVec 64}

theorem fireBoundsBand64_propagates (h : OneType [r,a,b] w sg s.ctx.vars)
    (ha : rng64 (s.ctx.vars a) = true) (hb : rng64 (s.ctx.vars b) = true) :
    Propagates [r,a,b] (BitRel (fun _ x y => x &&& y) w r a b) (fireBoundsBand64 r a b) s := by
  refine .of_wp (fun σ hσ hR => ?_) fun σ hp hR => ?_
  · have hs := Solved.of bitwise_and h hσ ha hb hR
    have hA := hs.toInt_a
    have hB := hs.toInt_b
    have hC : ofInt 64 (σ r) = ofInt 64 (σ a) &&& ofInt 64 (σ b) := hs.eq
    generalize ofInt 64 (σ a) = A at *
    generalize ofInt 64 (σ b) = B at *
    generalize ofInt 64 (σ r) = C at *
    obtain ⟨_,alo,ahi,_⟩ := hs.opA
    obtain ⟨_,blo,bhi,_⟩ := hs.opB
    have hn := hs.nonneg
    have hC' : C = B &&& A := by rw [hC,BitVec.and_comm]
    have hCn : (s.ctx.vars r).beyond = true → 0 ≤ C.toInt := fun hr => by
      rw [hC]
      exact (and_nonneg (by have := hn hr; omega)).1
    have hT : Typed [r,a,b] s.ctx.vars s.ctx.vars := .refl h.ok
    simp only [fireBoundsBand64,Fire.wp]
    split_ifs with hfix
    · have := hs.fixed hσ hfix.1 hfix.2
      exact Fire.wp_between hT hσ (by simp) this.le this.ge fun _ _ hσ => ⟨by simp,hσ⟩
    · refine Fire.wp_when_between hT hσ (by simp) (fun hp => ?_) fun vars₁ hT hσ => ?_
      · obtain ⟨h1,h2⟩ := and_nonneg (A:=A) (B:=B) (by omega)
        rw [← hC] at h1 h2
        exact ⟨hs.lb (by simpa using h1) (by simp),hs.ub (by omega) hCn⟩
      refine Fire.wp_when_between hT hσ (by simp) (fun hp => ?_) fun vars₂ hT hσ => ?_
      · obtain ⟨h1,h2⟩ := and_nonneg (A:=B) (B:=A) (by omega)
        rw [← hC'] at h1 h2
        exact ⟨hs.lb (by simpa using h1) (by simp),hs.ub (by omega) hCn⟩
      refine Fire.wp_when_need hT hσ (by simp) trivial (fun hp => ?_) fun vars₃ hT hσ => ?_
      · have h1 := and_neg (A:=A) (B:=B) (by omega) (by omega)
        have h2 := and_neg (A:=B) (B:=A) (by omega) (by omega)
        rw [← hC] at h1
        rw [← hC'] at h2
        exact hs.ub (by rw [i64Min_toInt]; omega) hCn
      · exact ⟨by simp,hσ⟩
  · simp only [fireBoundsBand64,Fire.wp]
    rw [if_pos ⟨hp.fixed (by simp),hp.fixed (by simp)⟩]
    exact fixed_refutes bitwise_and h hp hR

end And

section Or

variable {r a b w x y : ℕ} {sg : Bool} {σ : ℕ → ℤ} {W : List ℕ} {vars₀ : ℕ → Variable}
  {Q : PropResult → (ℕ → Variable) → Prop} {k : Fire} {X Y C : BitVec 64}

theorem toNat_of_ord {c : BitVec 64} (h : 0 ≤ varOrd v c) : (c.toNat : ℤ) = varOrd v c := by
  cases hb : v.beyond
  · rw [varOrd_plain hb] at h ⊢
    exact (toInt_of_nonneg h).1.symm
  · exact (varOrd_beyond hb c).symm

theorem or_testBit (hC : C = X ||| Y) (i : ℕ) :
    C.toNat.testBit i = (X.toNat.testBit i || Y.toNat.testBit i) := by
  rw [hC,toNat_or,Nat.testBit_or]

/-- What the other operand forces on, and what the result allows. -/
theorem or_between (hC : C = X ||| Y) {must : BitVec 64} (hm : must = C &&& ~~~Y ∨ must = 0#64) :
    Between must.toNat C.toNat X.toNat ∧ Between must.toNat C.toNat must.toNat := by
  have hX : ∀ i, X.toNat.testBit i = true → C.toNat.testBit i = true := fun i h => by
    rw [or_testBit hC,h,Bool.true_or]
  rcases hm with rfl | rfl
  · have hmust : ∀ i, (C &&& ~~~Y).toNat.testBit i = true →
        X.toNat.testBit i = true ∧ C.toNat.testBit i = true := fun i h => by
      rw [testBit_toNat,BitVec.getLsbD_and,Bool.and_eq_true,BitVec.getLsbD_not,Bool.and_eq_true] at h
      have hc : C.toNat.testBit i = true := by rw [testBit_toNat]; exact h.1
      have hy : Y.toNat.testBit i = false := by rw [testBit_toNat]; simpa using h.2.2
      rw [or_testBit hC,hy,Bool.or_false] at hc
      exact ⟨hc,hX i hc⟩
    exact ⟨fun i => ⟨fun h => (hmust i h).1,hX i⟩,fun i => ⟨id,fun h => (hmust i h).2⟩⟩
  · exact ⟨fun i => ⟨fun h => by simp at h,hX i⟩,fun i => ⟨id,fun h => by simp at h⟩⟩

theorem orOperand_wp (ht : Typed W vars₀ vars) (hσ : Inside W vars σ) (hx : x ∈ W) (hy : y ∈ W)
    (hX : X.toInt = σ x) (hY : Y = ofInt 64 (σ y)) (hC : C = X ||| Y) (hCn : 0 ≤ C.toInt)
    (h0 : 0 ≤ (vars₀ x).least) (hk : ∀ vars', Typed W vars₀ vars' → Inside W vars' σ → k.wp Q vars') :
    (orOperand x y C k).wp Q vars := by
  have hfix := word_of_fixed (v:=vars y) (x:=σ y) (ht.ok y hy)
  have hly := hσ.least y hy
  have hmy := hσ.most y hy
  simp only [orOperand,Fire.wp]
  rw [if_neg (by
    rintro ⟨h1,h2⟩
    refine h2 ?_
    rw [hfix h1 hly hmy,← hY,hC]
    ext i hi
    simp
    tauto)]
  have hmust : (if varLo64 (vars y) = varHi64 (vars y) then C &&& ~~~varLo64 (vars y) else 0#64)
      = C &&& ~~~Y ∨
      (if varLo64 (vars y) = varHi64 (vars y) then C &&& ~~~varLo64 (vars y) else 0#64) = 0#64 := by
    split_ifs with h1
    · exact .inl (by rw [hfix h1 hly hmy,← hY])
    · exact .inr rfl
  generalize (if varLo64 (vars y) = varHi64 (vars y) then C &&& ~~~varLo64 (vars y) else 0#64)
    = must at *
  obtain ⟨hb,hbm⟩ := or_between hC hmust
  have hC63 := (toInt_of_nonneg hCn).2
  have hl0 := h0.trans (ht.least x)
  have hlx := hσ.least x hx
  have hmx := hσ.most x hx
  have hXn := (toInt_of_nonneg (A:=X) (by omega)).1
  have hlo : ((varLo64 (vars x)).toNat : ℤ) = (vars x).least := toNat_of_ord hl0
  have hhi : ((varHi64 (vars x)).toNat : ℤ) = (vars x).most := toNat_of_ord (by
    have : 0 ≤ (vars x).most := by omega
    exact this)
  have hnum : ∀ n : ℕ, n < 2^63 → varOrd (vars₀ x) (ofInt 64 n) = n := fun n hn => by
    have hI := toInt_ofInt_of (x:=n) (by omega) (by omega)
    rw [varOrd_of_nonneg (by omega),hI]
  rcases maskedCeil_spec (varLo64 (vars x)).toNat hbm hC63 with ⟨_,h⟩ | ⟨l,hl,hbl,_,hlz⟩
  · have := h _ hb
    omega
  rcases maskedFloor_spec (varHi64 (vars x)).toNat hbm hC63 with ⟨_,h⟩ | ⟨g,hg,hbg,_,hgz⟩
  · have := h _ hb
    omega
  have h1 := hlz _ hb (by omega)
  have h2 := hgz _ hb (by omega)
  have h4 := hbg.le
  simp only [Fire.wp]
  rw [hl,hg,if_neg (by omega)]
  exact Fire.wp_between ht hσ hx (by rw [hnum _ (by omega)]; omega)
    (by rw [hnum _ (by omega)]; omega) hk

theorem fireBoundsBor64_propagates (h : OneType [r,a,b] w sg s.ctx.vars)
    (ha : rng64 (s.ctx.vars a) = true) (hb : rng64 (s.ctx.vars b) = true) :
    Propagates [r,a,b] (BitRel (fun _ x y => x ||| y) w r a b) (fireBoundsBor64 r a b) s := by
  refine .of_wp (fun σ hσ hR => ?_) fun σ hp hR => ?_
  · have hs := Solved.of bitwise_or h hσ ha hb hR
    have hA := hs.toInt_a
    have hB := hs.toInt_b
    have hC : ofInt 64 (σ r) = ofInt 64 (σ a) ||| ofInt 64 (σ b) := hs.eq
    have hal := least_of_rng64 ha
    have hbl := least_of_rng64 hb
    obtain ⟨_,alo,ahi,_⟩ := hs.opA
    obtain ⟨_,blo,bhi,_⟩ := hs.opB
    have hT : Typed [r,a,b] s.ctx.vars s.ctx.vars := .refl h.ok
    have hor := or_nonneg (A:=ofInt 64 (σ a)) (B:=ofInt 64 (σ b))
    simp only [fireBoundsBor64,Fire.wp]
    split_ifs with hfix
    · have := hs.fixed hσ hfix.1 hfix.2
      exact Fire.wp_between hT hσ (by simp) this.le this.ge fun _ _ hσ => ⟨by simp,hσ⟩
    · refine Fire.wp_when_kept hT hσ (fun hp => ?_) fun vars₁ hT hσ => ?_
      · obtain ⟨h1,h2⟩ := hor (by omega) (by omega)
        rw [← hC] at h1 h2
        have hCn : 0 ≤ (ofInt 64 (σ r)).toInt := by omega
        have hr := hs.ord
        rw [varOrd_of_nonneg fun _ => hCn] at hr
        refine Fire.wp_between hT hσ (by simp)
          (hs.lb (by rw [i64Max_toInt]; omega) fun _ => by rw [i64Max_toInt]; omega) ?_
          fun vars₁ hT hσ => ?_
        · refine hs.ub (toInt_le_smear (A:=ofInt 64 (σ a)) (B:=ofInt 64 (σ b)) (by omega)
            (by omega) (by omega) (by omega) hCn fun i hi => ?_) fun _ => hCn
          rw [hC,getLsbD_or] at hi
          exact Bool.or_eq_true_iff.mp hi
        have hrhi : ∀ v ∈ [r,a,b], varOrd (s.ctx.vars v) (varHi64 (vars₁ r)) = (vars₁ r).most :=
          fun v hv => by rw [h.ord hv (show r ∈ [r,a,b] by simp),← (hT.same r).varOrd]; rfl
        have hrm := hσ.most r (by simp)
        refine Fire.wp_ub64 hT hσ (by simp) (by rw [hrhi a (by simp)]; omega) fun vars₂ hT hσ => ?_
        refine Fire.wp_ub64 hT hσ (by simp) (by rw [hrhi b (by simp)]; omega) fun vars₃ hT hσ => ?_
        simp only [Fire.wp]
        split_ifs with hfixr
        · have hrl := hσ.least r (by simp)
          have hrlo : varLo64 (vars₃ r) = ofInt 64 (σ r) := by
            refine varOrd_inj (v:=s.ctx.vars r) ?_
            have h3 : varOrd (s.ctx.vars r) (varLo64 (vars₃ r)) = (vars₃ r).least :=
              ((hT.same r).varOrd _).symm
            have h4 := hrhi r (by simp)
            rw [← hfixr] at h4
            rw [hs.ord]
            omega
          rw [hrlo]
          refine orOperand_wp hT hσ (by simp) (by simp) hA rfl hC hCn (by omega)
            fun vars₄ hT hσ => ?_
          exact orOperand_wp hT hσ (by simp) (by simp) hB rfl (by rw [hC,BitVec.or_comm]) hCn
            (by omega) fun vars₅ hT hσ => ⟨rfl,hT,hσ⟩
        · exact ⟨rfl,hT,hσ⟩
      refine Fire.wp_when_need hT hσ (by simp) trivial (fun hp => ?_) fun vars₂ hT hσ => ?_
      · have h1 := (hor (by omega) (by omega)).1
        rw [← hC] at h1
        exact hs.lb (by omega) fun _ => hp.2.1
      refine Fire.wp_when_need hT hσ (by simp) trivial (fun hp => ?_) fun vars₃ hT hσ => ?_
      · have h1 := (hor (by omega) (by omega)).2
        rw [← hC] at h1
        exact hs.lb (by omega) fun _ => hp.2.1
      · exact ⟨by simp,hσ⟩
  · simp only [fireBoundsBor64,Fire.wp]
    rw [if_pos ⟨hp.fixed (by simp),hp.fixed (by simp)⟩]
    exact fixed_refutes bitwise_or h hp hR

end Or

section Xor

variable {r a b w x y : ℕ} {sg : Bool} {σ : ℕ → ℤ} {W : List ℕ} {vars₀ : ℕ → Variable}
  {Q : PropResult → (ℕ → Variable) → Prop} {k : Fire} {X Y Z K : BitVec 64}

theorem isBit_spec (h : isBit X Y = true) :
    X = Y ∧ 0 < X.toInt ∧ X.toNat = 2^X.ctz.toNat ∧ X.ctz.toNat < 63 := by
  simp only [isBit,Bool.and_eq_true,beq_iff_eq,decide_eq_true_eq] at h
  obtain ⟨⟨h1,h2⟩,h3⟩ := h
  obtain ⟨h4,h5⟩ := toInt_of_nonneg (le_of_lt h2)
  have h0 : X.toNat ≠ 0 := by omega
  obtain ⟨t,ht,q,hq⟩ := exists_lowest h0 X.isLt
  have hand := congrArg BitVec.toNat h3
  rw [toNat_and,BitVec.toNat_sub_of_le (by rw [BitVec.le_def]; simp; omega),
    toNat_ofNat,Nat.one_mod_two_pow (by decide),hq,clear_lowest,toNat_ofNat,
    Nat.zero_mod] at hand
  have hpos := two_pow_pos t
  have hq0 : q = 0 := by
    rcases Nat.mul_eq_zero.mp hand with h | h <;> omega
  rw [hq0,Nat.mul_zero,Nat.zero_add,Nat.mul_one] at hq
  have hbit := BitVec.getLsbD_true_ctz_of_ne_zero (x := X) (by rintro rfl; simp at h0)
  rw [← testBit_toNat,hq,Nat.testBit_two_pow,decide_eq_true_eq] at hbit
  rw [hbit] at hq ht
  refine ⟨h1,h2,hq,?_⟩
  by_contra hge
  have := pow_le_pow_right (show 0 < 2 by decide) (not_lt.mp hge)
  omega

/-- Within one block of the bit `m`, flipping it keeps the order. -/
theorem xor_le_xor {k : ℕ} (hle : n ≤ k) (hb : n/2^m = k/2^m) :
    (n ^^^ 2^m) ≤ (k ^^^ 2^m) := by
  have hval : ∀ z : ℕ, (z ^^^ 2^m) = 2^m*(z/2^m ^^^ 1)+z%2^m := fun z => by
    rw [← Nat.div_add_mod (z ^^^ 2^m) (2^m),Nat.xor_div_two_pow,Nat.xor_mod_two_pow,
      Nat.div_self (two_pow_pos m),Nat.mod_self,Nat.xor_zero]
  have h1 := Nat.div_add_mod n (2^m)
  have h2 := Nat.div_add_mod k (2^m)
  rw [hb] at h1
  rw [hval n,hval k,hb]
  omega

theorem xor_nonneg (hX : 0 ≤ X.toInt) (hY : 0 ≤ Y.toInt) : 0 ≤ (X ^^^ Y).toInt := by
  have hlt : (X ^^^ Y).toNat < 2^63 := by
    rw [toNat_xor]
    exact Nat.xor_lt_two_pow (toInt_of_nonneg hX).2 (toInt_of_nonneg hY).2
  rw [toInt_of_lt hlt]
  omega

/-- The same of words: the ends of a block stay its ends. -/
theorem flip_le (hK : K.toNat = 2^K.ctz.toNat) (hK0 : 0 < K.toInt) (hY : 0 ≤ Y.toInt)
    (hle : Y.toInt ≤ Z.toInt)
    (hb : Y.sshiftRight K.ctz.toNat = Z.sshiftRight K.ctz.toNat) :
    (Y ^^^ K).toInt ≤ (Z ^^^ K).toInt := by
  obtain ⟨h1,h2⟩ := toInt_of_nonneg hY
  obtain ⟨h3,h4⟩ := toInt_of_nonneg (hY.trans hle)
  have hblock : Y.toNat/2^K.ctz.toNat = Z.toNat/2^K.ctz.toNat := by
    have := congrArg BitVec.toInt hb
    rw [toInt_sshiftRight,toInt_sshiftRight,Int.shiftRight_eq_div_pow,
      Int.shiftRight_eq_div_pow,h1,h3] at this
    exact_mod_cast this
  have h5 := toInt_of_nonneg (xor_nonneg hY hK0.le)
  have h6 := toInt_of_nonneg (xor_nonneg (hY.trans hle) hK0.le)
  have := xor_le_xor (m:=K.ctz.toNat) (n:=Y.toNat) (k:=Z.toNat) (by omega) hblock
  rw [← hK,← toNat_xor,← toNat_xor] at this
  omega

theorem flipBit_wp (ht : Typed W vars₀ vars) (hσ : Inside W vars σ) (hx : x ∈ W) (hy : y ∈ W)
    (hX : varOrd (vars₀ x) X = σ x) (hY : varOrd (vars₀ y) Y = σ y) (hXY : X = Y ^^^ K)
    (hK : K.toNat = 2^K.ctz.toNat) (hK0 : 0 < K.toInt)
    (hk : ∀ vars', Typed W vars₀ vars' → Inside W vars' σ → k.wp Q vars') :
    (flipBit x (varLo64 (vars y)) (varHi64 (vars y)) K k).wp Q vars := by
  have hly := hσ.least y hy
  have hmy := hσ.most y hy
  rw [Variable.least,(ht.same y).varOrd,← hY] at hly
  rw [Variable.most,(ht.same y).varOrd,← hY] at hmy
  generalize varLo64 (vars y) = lo at *
  generalize varHi64 (vars y) = hi at *
  refine Fire.wp_when_between ht hσ hx (fun hblk => ?_) hk
  obtain ⟨h0,hb⟩ := hblk
  have hblock : 0 ≤ hi.toInt := by
    have := congrArg BitVec.toInt hb
    rw [toInt_sshiftRight,toInt_sshiftRight,Int.shiftRight_eq_div_pow,Int.shiftRight_eq_div_pow] at this
    have h1 := Int.ediv_nonneg h0 (show (0 : ℤ) ≤ (2^K.ctz.toNat : ℕ) by positivity)
    by_contra hneg
    have h2 := Int.ediv_neg_of_neg_of_pos (show hi.toInt < 0 by omega)
      (show (0 : ℤ) < (2^K.ctz.toNat : ℕ) by positivity)
    omega
  have hY0 : 0 ≤ Y.toInt := by
    cases hbey : (vars₀ y).beyond
    · rw [varOrd_plain hbey,varOrd_plain hbey] at hly
      omega
    · rw [varOrd_beyond hbey,varOrd_beyond hbey] at hmy
      have := (toInt_of_nonneg hblock).2
      rw [toInt_of_lt (by omega)]
      omega
  rw [varOrd_of_nonneg fun _ => h0,varOrd_of_nonneg fun _ => hY0] at hly
  rw [varOrd_of_nonneg fun _ => hblock,varOrd_of_nonneg fun _ => hY0] at hmy
  have hmid : lo.sshiftRight K.ctz.toNat = Y.sshiftRight K.ctz.toNat := by
    have := congrArg BitVec.toInt hb
    apply BitVec.eq_of_toInt_eq
    rw [toInt_sshiftRight,toInt_sshiftRight,Int.shiftRight_eq_div_pow,Int.shiftRight_eq_div_pow] at this ⊢
    have hp : (0 : ℤ) < (2^K.ctz.toNat : ℕ) := by positivity
    have h1 := Int.ediv_le_ediv hp hly
    have h2 := Int.ediv_le_ediv hp hmy
    omega
  have h1 := flip_le hK hK0 h0 hly hmid
  have h2 := flip_le hK hK0 hY0 hmy (hmid.symm.trans hb)
  have h3 := xor_nonneg h0 hK0.le
  have h4 := xor_nonneg hY0 hK0.le
  have hXn : 0 ≤ X.toInt := by rw [hXY]; exact h4
  rw [← hX,varOrd_of_nonneg fun _ => hXn,varOrd_of_nonneg fun _ => by rw [i64Min_toInt]; omega,
    varOrd_of_nonneg fun _ => by rw [i64Max_toInt]; omega,i64Min_toInt,i64Max_toInt,hXY]
  omega

theorem xorBack_wp (ht : Typed W vars₀ vars) (hσ : Inside W vars σ) (hx : x ∈ W) (hy : y ∈ W)
    (hX : varOrd (vars₀ x) X = σ x) (hY : varOrd (vars₀ y) Y = σ y) (hXY : Y = X ^^^ K) :
    (xorBack x y K).wp (Retained W vars₀ σ) vars := by
  have hlx := hσ.least x hx
  have hmx := hσ.most x hx
  simp only [xorBack,Fire.wp]
  split_ifs with hfix
  · have hlo : varLo64 (vars x) = X := by
      refine varOrd_inj (v:=vars₀ x) ?_
      rw [Variable.least,(ht.same x).varOrd] at hlx
      rw [Variable.most,(ht.same x).varOrd,← hfix] at hmx
      omega
    rw [hlo,← hXY]
    exact Fire.wp_between ht hσ hy hY.le hY.ge fun _ ht hσ => ⟨rfl,ht,hσ⟩
  · exact ⟨rfl,ht,hσ⟩

theorem xorBit_wp (ht : Typed W vars₀ vars) (hσ : Inside W vars σ) (hx : x ∈ W) (hy : y ∈ W)
    (hX : varOrd (vars₀ x) X = σ x) (hY : varOrd (vars₀ y) Y = σ y) (hXY : X = Y ^^^ K)
    (hK : K.toNat = 2^K.ctz.toNat) (hK0 : 0 < K.toInt) :
    (xorBit x y K).wp (Retained W vars₀ σ) vars := by
  have hYX : Y = X ^^^ K := by rw [hXY,xor_assoc,BitVec.xor_self,xor_zero]
  simp only [xorBit,Fire.wp]
  refine flipBit_wp ht hσ hx hy hX hY hXY hK hK0 fun vars₁ ht hσ => ?_
  exact flipBit_wp ht hσ hy hx hY hX hYX hK hK0 fun vars₂ ht hσ => ⟨rfl,ht,hσ⟩

theorem fireBoundsBxor64_propagates (h : OneType [r,a,b] w sg s.ctx.vars)
    (ha : rng64 (s.ctx.vars a) = true) (hb : rng64 (s.ctx.vars b) = true) :
    Propagates [r,a,b] (BitRel (fun _ x y => x ^^^ y) w r a b) (fireBoundsBxor64 r a b) s := by
  refine .of_wp (fun σ hσ hR => ?_) fun σ hp hR => ?_
  · have hs := Solved.of bitwise_xor h hσ ha hb hR
    have hC : ofInt 64 (σ r) = ofInt 64 (σ a) ^^^ ofInt 64 (σ b) := hs.eq
    have hword : ∀ v ∈ [r,a,b], varOrd (s.ctx.vars v) (ofInt 64 (σ v)) = σ v :=
      fun v hv => (h.ok v hv).varOrd_ofInt ((h.ok v hv).inType (hσ.least v hv) (hσ.most v hv)).1
        ((h.ok v hv).inType (hσ.least v hv) (hσ.most v hv)).2
    have hr := hword r (by simp)
    have hA := hword a (by simp)
    have hB := hword b (by simp)
    obtain ⟨_,alo,ahi,_⟩ := hs.opA
    obtain ⟨_,blo,bhi,_⟩ := hs.opB
    have hCB : ofInt 64 (σ r) = ofInt 64 (σ b) ^^^ ofInt 64 (σ a) := by
      rw [hC,BitVec.xor_comm]
    have hfixa := word_of_fixed (x:=σ a) (h.ok a (by simp))
    have hfixb := word_of_fixed (x:=σ b) (h.ok b (by simp))
    have hla := hσ.least a (by simp)
    have hma := hσ.most a (by simp)
    have hlb := hσ.least b (by simp)
    have hmb := hσ.most b (by simp)
    have hT : Typed [r,a,b] s.ctx.vars s.ctx.vars := .refl h.ok
    simp only [fireBoundsBxor64,Fire.wp]
    by_cases hfix : varLo64 (s.ctx.vars a) = varHi64 (s.ctx.vars a) ∧
        varLo64 (s.ctx.vars b) = varHi64 (s.ctx.vars b)
    · have := hs.fixed hσ hfix.1 hfix.2
      rw [if_pos hfix]
      exact Fire.wp_between hT hσ (by simp) this.le this.ge fun _ _ hσ => ⟨by simp,hσ⟩
    rw [if_neg hfix]
    have hback : (if varLo64 (s.ctx.vars a) = varHi64 (s.ctx.vars a) then
        xorBack r b (varLo64 (s.ctx.vars a))
      else if varLo64 (s.ctx.vars b) = varHi64 (s.ctx.vars b) then
        xorBack r a (varLo64 (s.ctx.vars b))
      else .done .ok).wp (Retained [r,a,b] s.ctx.vars σ) s.ctx.vars := by
      split_ifs with h1 h2
      · rw [hfixa h1 hla hma]
        exact xorBack_wp hT hσ (by simp) (by simp) hr hB (by
          rw [hCB,xor_assoc,BitVec.xor_self,xor_zero])
      · rw [hfixb h2 hlb hmb]
        exact xorBack_wp hT hσ (by simp) (by simp) hr hA (by
          rw [hC,xor_assoc,BitVec.xor_self,xor_zero])
      · exact ⟨rfl,hT,hσ⟩
    refine Fire.wp_andThen_kept hback fun vars₁ hT hσ => ?_
    refine Fire.wp_when_between hT hσ (by simp) (fun hp => ?_) fun vars₂ hT hσ => ?_
    · have h0 := xor_nonneg (X:=ofInt 64 (σ a)) (Y:=ofInt 64 (σ b)) (by omega) (by omega)
      rw [← hC] at h0
      refine ⟨hs.lb (by simpa using h0) (by simp),hs.ub (toInt_le_smear (A:=ofInt 64 (σ a))
        (B:=ofInt 64 (σ b)) (by omega) (by omega) (by omega) (by omega) h0 fun i hi => ?_)
        fun _ => h0⟩
      rw [hC,BitVec.getLsbD_xor] at hi
      cases hi' : (ofInt 64 (σ a)).getLsbD i
      · rw [hi',Bool.false_xor] at hi
        exact .inr hi
      · exact .inl rfl
    · split_ifs with h1 h2
      · obtain ⟨g1,g2,g3,_⟩ := isBit_spec h1
        have hk := hfixb g1 hlb hmb
        refine Fire.wp_mono ?_ (xorBit_wp hT hσ (by simp) (by simp) hr hA (by rw [hk]; exact hC) g3 g2)
        exact fun _ _ h => ⟨by simp [h.1],h.2.2⟩
      · obtain ⟨g1,g2,g3,_⟩ := isBit_spec h2
        have hk := hfixa g1 hla hma
        refine Fire.wp_mono ?_ (xorBit_wp hT hσ (by simp) (by simp) hr hB (by rw [hk]; exact hCB) g3 g2)
        exact fun _ _ h => ⟨by simp [h.1],h.2.2⟩
      · exact ⟨by simp,hσ⟩
  · simp only [fireBoundsBxor64,Fire.wp]
    rw [if_pos ⟨hp.fixed (by simp),hp.fixed (by simp)⟩]
    exact fixed_refutes bitwise_xor h hp hR

end Xor

section Not

variable {r a w : ℕ} {sg : Bool} {σ : ℕ → ℤ}

/-- `r` is the complement of `a`. -/
def NotRel (w r a : ℕ) (σ : ℕ → ℤ) : Prop := ofInt w (σ r) = ~~~ofInt w (σ a)

def flipWord (w : ℕ) (sg : Bool) (x : BitVec 64) : BitVec 64 :=
  if sg then -x-1#64 else (if w ≥ 64 then allOnes 64 else (1#64 <<< w)-1#64) &&& ~~~x

theorem flipWord_toNat {x : BitVec 64} (hw : w ≤ 64) (hx : x.toNat < 2^w) :
    (flipWord w false x).toNat = 2^w-1-x.toNat := by
  have hmask : (if w ≥ 64 then allOnes 64 else (1#64 <<< w)-1#64).toNat = 2^w-1 := by
    split_ifs with h64
    · obtain rfl : w = 64 := by omega
      rfl
    · have hlt : 2^w < 2^64 := Nat.pow_lt_pow_right (by decide) (by omega)
      have h1 : (1#64 <<< w).toNat = 2^w := by
        rw [BitVec.toNat_shiftLeft,toNat_ofNat,Nat.one_mod_two_pow (by decide),
          Nat.shiftLeft_eq,Nat.one_mul,mod_eq_of_lt hlt]
      rw [BitVec.toNat_sub_of_le (by rw [BitVec.le_def,h1]; simp; omega),h1]
      rfl
  obtain ⟨c,hc⟩ := pow_dvd_pow 2 hw
  have hsplit : 2^64-1-x.toNat = 2^w*(c-1)+(2^w-1-x.toNat) := by
    rw [Nat.mul_sub,← hc]
    omega
  simp only [flipWord,false_eq_true,if_false]
  rw [toNat_and,hmask,toNat_not,Nat.and_comm,Nat.and_two_pow_sub_one_eq_mod,hsplit,
    Nat.mul_add_mod,mod_eq_of_lt (by omega)]

theorem flipWord_toInt (x : BitVec 64) : (flipWord w true x).toInt = -1-x.toInt := by
  have h : flipWord w true x = ~~~x := by simp [flipWord,BitVec.not_eq_neg_add]
  rw [h,toInt_eq_toNat_cond,toNat_not,toInt_eq_toNat_cond]
  split_ifs <;> omega

theorem varOrd_flipWord {x : BitVec 64} (hv : v.Ok) (h1 : v.bot ≤ varOrd v x)
    (h2 : varOrd v x ≤ v.top) :
    varOrd v (flipWord v.width v.signed x) = v.bot+v.top-varOrd v x := by
  have hw := hv.le
  unfold Variable.bot at h1 ⊢
  unfold Variable.top at h2 ⊢
  cases hs : v.signed
  · simp only [hs,false_eq_true,if_false] at h1 h2 ⊢
    have hx := toNat_of_ord h1
    have hcast : ((2^v.width : ℕ) : ℤ) = 2^v.width := by push_cast; rfl
    have hval := flipWord_toNat hw (show x.toNat < 2^v.width by omega)
    cases hb : v.beyond
    · have hlt : v.width < 64 := by simpa [Variable.beyond,hs] using hb
      have hp : 2^v.width ≤ 2^63 := pow_le_pow_right (by decide) (by omega)
      rw [varOrd_plain hb,toInt_of_lt (by omega),hval]
      omega
    · rw [varOrd_beyond hb,hval]
      omega
  · simp only [if_true]
    have hb : v.beyond = false := by simp [Variable.beyond,hs]
    rw [varOrd_plain hb,varOrd_plain hb,flipWord_toInt]
    omega

theorem extend_not {x : BitVec w} (hpos : 0 < w) (hw : w ≤ 64) :
    extend sg (~~~x) = flipWord w sg (extend sg x) := by
  have hp : 2^w ≤ 2^64 := pow_le_pow_right (by decide) hw
  cases sg
  · apply BitVec.eq_of_toNat_eq
    have hval : (extend false x).toNat = x.toNat := by
      simp only [extend,false_eq_true,if_false,BitVec.toNat_setWidth]
      exact mod_eq_of_lt (by omega)
    rw [flipWord_toNat hw (by omega),hval]
    simp only [extend,false_eq_true,if_false,BitVec.toNat_setWidth,toNat_not]
    exact mod_eq_of_lt (by omega)
  · simp [extend,flipWord,hpos,BitVec.not_eq_neg_add (BitVec.signExtend 64 x)]

/-- In numbers: the two are mirror images within their type. -/
theorem NotRel.iff (h : OneType [r,a] w sg vars) (hσ : Inside [r,a] vars σ) :
    NotRel w r a σ ↔ σ r = (vars a).bot+(vars a).top-σ a := by
  have hin : ∀ v ∈ [r,a], (vars v).bot ≤ σ v ∧ σ v ≤ (vars v).top := fun v hv =>
    (h.ok v hv).inType (hσ.least v hv) (hσ.most v hv)
  have hext : ∀ v ∈ [r,a], ofInt 64 (σ v) = extend sg (ofInt w (σ v)) :=
    fun v hv => ofInt_eq_extend (h.ok v hv) (h.width v hv) (h.signed v hv) (hin v hv).1 (hin v hv).2
  have hpos : 0 < w := h.width a (by simp) ▸ (h.ok a (by simp)).pos
  have hw : w ≤ 64 := h.width a (by simp) ▸ (h.ok a (by simp)).le
  have hord : varOrd (vars a) (ofInt 64 (σ a)) = σ a :=
    (h.ok a (by simp)).varOrd_ofInt (hin a (by simp)).1 (hin a (by simp)).2
  have hr : varOrd (vars a) (ofInt 64 (σ r)) = σ r := by
    rw [h.ord (show a ∈ [r,a] by simp) (show r ∈ [r,a] by simp)]
    exact (h.ok r (by simp)).varOrd_ofInt (hin r (by simp)).1 (hin r (by simp)).2
  have hflip := varOrd_flipWord (h.ok a (by simp)) (hord.symm ▸ (hin a (by simp)).1)
    (hord.symm ▸ (hin a (by simp)).2)
  rw [h.width a (by simp),h.signed a (by simp),hext a (by simp),← extend_not hpos hw,
    ← hext a (by simp),hord] at hflip
  rw [← hflip,← hr]
  refine ⟨fun hR => ?_,fun hR => ?_⟩
  · rw [hext r (by simp),hR]
  · have := varOrd_inj hR
    rw [hext r (by simp)] at this
    exact extend_inj hw this

theorem flipEnds {W : List ℕ} {vars₀ : ℕ → Variable} {x y : ℕ} (h : OneType W w sg vars₀)
    (ht : Typed W vars₀ vars) (hσ : Inside W vars σ) (hx : x ∈ W) (hy : y ∈ W)
    (hR : σ y = (vars₀ x).bot+(vars₀ x).top-σ x) :
    varOrd (vars₀ y) (flipWord w sg (varHi64 (vars x))) ≤ σ y ∧
      σ y ≤ varOrd (vars₀ y) (flipWord w sg (varLo64 (vars x))) := by
  have h0 := h.ok x hx
  have hl := hσ.least x hx
  have hm := hσ.most x hx
  have hb := (ht.least x).trans' h0.bot
  have ht' := (ht.most x).trans h0.top
  have hlo : varOrd (vars₀ x) (varLo64 (vars x)) = (vars x).least := ((ht.same x).varOrd _).symm
  have hhi : varOrd (vars₀ x) (varHi64 (vars x)) = (vars x).most := ((ht.same x).varOrd _).symm
  have h1 := varOrd_flipWord h0 (x:=varLo64 (vars x)) (by omega) (by omega)
  have h2 := varOrd_flipWord h0 (x:=varHi64 (vars x)) (by omega) (by omega)
  rw [h.width x hx,h.signed x hx] at h1 h2
  rw [h.ord hy hx,h.ord hy hx,h1,h2]
  omega

theorem fireBoundsBnot64_propagates (h : OneType [r,a] w sg s.ctx.vars) :
    Propagates [r,a] (NotRel w r a) (fireBoundsBnot64 r a) s := by
  have hpos : 0 < w := h.width a (by simp) ▸ (h.ok a (by simp)).pos
  have hmirror : (s.ctx.vars a).bot+(s.ctx.vars a).top = (s.ctx.vars r).bot+(s.ctx.vars r).top := by
    simp [Variable.bot,Variable.top,h.width a (by simp),h.signed a (by simp),h.width r (by simp),
      h.signed r (by simp)]
  have hT : Typed [r,a] s.ctx.vars s.ctx.vars := .refl h.ok
  have hfire : ∀ Q : PropResult → (ℕ → Variable) → Prop, (fireBoundsBnot64 r a).wp Q s.ctx.vars ↔
        (Fire.between r (flipWord w sg (varHi64 (s.ctx.vars a)))
          (flipWord w sg (varLo64 (s.ctx.vars a))) <|
          .read r fun rv => .between a (flipWord w sg (varHi64 rv)) (flipWord w sg (varLo64 rv)) <|
          .done .ok).wp Q s.ctx.vars := fun Q => by
    simp only [fireBoundsBnot64,Fire.wp,h.width r (by simp),h.signed r (by simp),
      h.signed a (by simp),if_pos (show w ≠ 0 by omega),Bool.or_self]
    exact Iff.rfl
  refine .of_wp (fun σ hσ hR => ?_) fun σ hp hR => ?_
  · rw [NotRel.iff h hσ] at hR
    rw [hfire]
    have h1 := flipEnds h hT hσ (show a ∈ [r,a] by simp) (show r ∈ [r,a] by simp) hR
    refine Fire.wp_between hT hσ (by simp) h1.1 h1.2 fun vars₁ hT hσ => ?_
    have h2 := flipEnds h hT hσ (show r ∈ [r,a] by simp) (show a ∈ [r,a] by simp) (by omega)
    exact Fire.wp_between hT hσ (by simp) h2.1 h2.2 fun vars₂ _ hσ => ⟨by simp,hσ⟩
  · have hσ : Inside [r,a] s.ctx.vars σ :=
      ⟨fun v hv => (hp.least v hv).le,fun v hv => (hp.most v hv).ge⟩
    have hin := (h.ok a (by simp)).inType (hσ.least a (by simp)) (hσ.most a (by simp))
    have hord := (h.ok a (by simp)).varOrd_ofInt hin.1 hin.2
    have hflip := varOrd_flipWord (h.ok a (by simp)) (hord.symm ▸ hin.1) (hord.symm ▸ hin.2)
    rw [h.width a (by simp),h.signed a (by simp),hord,
      h.ord (show a ∈ [r,a] by simp) (show r ∈ [r,a] by simp)] at hflip
    rw [NotRel.iff h hσ] at hR
    rw [hfire,varLo64_eq (h.ok a (by simp)) (hp.least a (by simp)) (hp.most a (by simp)),
      varHi64_eq (h.ok a (by simp)) (hp.least a (by simp)) (hp.most a (by simp))]
    refine Fire.wp_between_pinned hT hp (by simp) (fun _ => rfl) fun hlo hhi _ _ _ => absurd ?_ hR
    omega

end Not

/-- `z` is the least number from `lo` on with the bits of `must` and none outside `allow`,
or -1 when there is none. -/
def LeastBetween (must allow lo : ℕ) (z : ℤ) : Prop :=
  (z = -1 ∧ ∀ y, Between must allow y → ¬lo ≤ y) ∨
    ∃ y : ℕ, z = y ∧ IsLeast {y | Between must allow y ∧ lo ≤ y} y

def GreatestBetween (must allow hi : ℕ) (z : ℤ) : Prop :=
  (z = -1 ∧ ∀ y, Between must allow y → ¬y ≤ hi) ∨
    ∃ y : ℕ, z = y ∧ IsGreatest {y | Between must allow y ∧ y ≤ hi} y

/-- The bitwise operators propagate their relations, and the masked neighbours are exact. -/
theorem bitwise_propagates :
    (∀ (s : Engine) (r a b w : ℕ) (sg : Bool), OneType [r,a,b] w sg s.ctx.vars →
      rng64 (s.ctx.vars a) = true → rng64 (s.ctx.vars b) = true →
      Propagates [r,a,b] (BitRel (fun _ x y => x &&& y) w r a b) (fireBoundsBand64 r a b) s ∧
        Propagates [r,a,b] (BitRel (fun _ x y => x ||| y) w r a b) (fireBoundsBor64 r a b) s ∧
        Propagates [r,a,b] (BitRel (fun _ x y => x ^^^ y) w r a b) (fireBoundsBxor64 r a b) s) ∧
      (∀ (s : Engine) (r a w : ℕ) (sg : Bool), OneType [r,a] w sg s.ctx.vars →
        Propagates [r,a] (NotRel w r a) (fireBoundsBnot64 r a) s) ∧
      ∀ must allow bound : ℕ, must &&& allow = must → allow < 2^63 →
        LeastBetween must allow bound (maskedCeil bound must allow) ∧
          GreatestBetween must allow bound (maskedFloor bound must allow) := by
  refine ⟨fun s r a b w sg h ha hb => ⟨?_,?_,?_⟩,fun s r a w sg h => ?_,
    fun must allow bound hsub hallow => ⟨?_,?_⟩⟩
  · exact fireBoundsBand64_propagates h ha hb
  · exact fireBoundsBor64_propagates h ha hb
  · exact fireBoundsBxor64_propagates h ha hb
  · exact fireBoundsBnot64_propagates h
  · rcases maskedCeil_spec bound (between_self hsub) hallow with ⟨h1,h2⟩ | ⟨y,h1,h2,h3,h4⟩
    · exact .inl ⟨h1,fun y hy => not_le.mpr (h2 y hy)⟩
    · exact .inr ⟨y,h1,⟨h2,h3⟩,fun z hz => h4 z hz.1 hz.2⟩
  · rcases maskedFloor_spec bound (between_self hsub) hallow with ⟨h1,h2⟩ | ⟨y,h1,h2,h3,h4⟩
    · exact .inl ⟨h1,fun y hy => not_le.mpr (h2 y hy)⟩
    · exact .inr ⟨y,h1,⟨h2,h3⟩,fun z hz => h4 z hz.1 hz.2⟩

theorem bitwise_propagates_bytes :
    Propagates [0,1,2] (BitRel (fun _ x y => x ||| y) 8 0 1 2) (fireBoundsBor64 0 1 2)
      (holding fun _ => wideVar 1#64 5#64 8 false) ∧
    Propagates [0,1] (NotRel 8 0 1) (fireBoundsBnot64 0 1)
      (holding fun _ => wideVar 1#64 5#64 8 false) ∧
    LeastBetween 4 6 5 (maskedCeil 5 4 6) :=
  have hok : (wideVar 1#64 5#64 8 false).Ok := wideVar_ok (by decide) (by decide) (by decide) (by decide)
  ⟨(bitwise_propagates.1 _ 0 1 2 8 false ⟨fun _ _ => hok,fun _ _ => rfl,fun _ _ => rfl⟩
      (by decide) (by decide)).2.1,
    bitwise_propagates.2.1 _ 0 1 8 false ⟨fun _ _ => hok,fun _ _ => rfl,fun _ _ => rfl⟩,
    (bitwise_propagates.2.2 4 6 5 (by decide) (by decide)).1⟩

end Solver
end DvSolve
