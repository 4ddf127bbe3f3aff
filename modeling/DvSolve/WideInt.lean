import Mathlib.Data.Int.ModEq
import Mathlib.Tactic

/-! The portable helpers of `dvs_i128.h` on 64-bit halves.
A checked operation answers whether it overflows and the wrapped result; the compiler's
own operations do so by definition. -/
namespace DvSolve
namespace Wide

open BitVec (eq_of_toNat_eq intMin ofInt ofInt_toInt ofNat toNat_add toNat_ofNat)
open Nat (mod_eq_of_lt mod_lt)

def checked (e : ℤ) : Bool × BitVec 64 := (decide (e < -2^63 ∨ e > 2^63-1),ofInt 64 e)

def halves (p : ℕ) : BitVec 64 × BitVec 64 := (ofNat 64 (p/2^64),ofNat 64 p)

def addI64Ovf (a b : BitVec 64) : Bool × BitVec 64 :=
  (b.toInt > 0 && a.toInt > 2^63-1 - b.toInt || b.toInt < 0 && a.toInt < -2^63 - b.toInt,a + b)

def subI64Ovf (a b : BitVec 64) : Bool × BitVec 64 :=
  (b.toInt < 0 && a.toInt > 2^63-1 + b.toInt || b.toInt > 0 && a.toInt < -2^63 + b.toInt,a - b)

def mulU64Wide (a b : BitVec 64) : BitVec 64 × BitVec 64 :=
  let al := a &&& 0xFFFFFFFF#64
  let ah := a >>> 32
  let bl := b &&& 0xFFFFFFFF#64
  let bh := b >>> 32
  let ll := al * bl
  let lh := al * bh
  let hl := ah * bl
  let hh := ah * bh
  let mid := (ll >>> 32) + (lh &&& 0xFFFFFFFF#64) + (hl &&& 0xFFFFFFFF#64)
  (hh + (lh >>> 32) + (hl >>> 32) + (mid >>> 32),(mid <<< 32) ||| (ll &&& 0xFFFFFFFF#64))

def mulI64Ovf (a b : BitVec 64) : Bool × BitVec 64 :=
  let ua := if a.toInt < 0 then 0#64 - a else a
  let ub := if b.toInt < 0 then 0#64 - b else b
  let (hi,lo) := mulU64Wide ua ub
  let neg : Bool := decide (a.toInt < 0) != decide (b.toInt < 0)
  (hi != 0#64 || if neg then lo.toNat > 2^63 else lo.toNat > 2^63-1,if neg then 0#64 - lo else lo)

def shlI64Ovf (v s : BitVec 64) : Bool × BitVec 64 :=
  if s.toInt ≤ 0 then (false,v)
  else if s.toInt ≥ 63 then
    (!(v = 0#64 || v = -1#64),if v = -1#64 then intMin 64 else 0#64)
  else mulI64Ovf v (1#64 <<< s.toNat)

/-- The loop of `dvs_mulmod_u64`: `r` and the doublings `a`, over the bits of `b`. -/
def mulmodFrom (m : BitVec 64) : ℕ → BitVec 64 → BitVec 64 → BitVec 64 → BitVec 64
  | 0, _, _, r => r
  | fuel+1, a, b, r =>
    if b = 0#64 then r
    else
      let r := if b &&& 1#64 ≠ 0#64 then if r ≥ m - a then r - (m - a) else r + a else r
      mulmodFrom m fuel (if a ≥ m - a then a - (m - a) else a + a) (b >>> 1) r

def mulmodU64 (a b m : BitVec 64) : BitVec 64 := mulmodFrom m 64 (a % m) b 0#64

theorem toInt_bounds (a : BitVec 64) : -2^63 ≤ a.toInt ∧ a.toInt < 2^63 :=
  ⟨BitVec.le_toInt a,BitVec.toInt_lt⟩

theorem addI64Ovf_eq (a b : BitVec 64) : addI64Ovf a b = checked (a.toInt + b.toInt) := by
  obtain ⟨ha,ha'⟩ := toInt_bounds a
  obtain ⟨hb,hb'⟩ := toInt_bounds b
  rw [addI64Ovf,checked,BitVec.ofInt_add,ofInt_toInt,ofInt_toInt]
  refine Prod.ext (Bool.eq_iff_iff.mpr ?_) rfl
  simp only [Bool.or_eq_true,Bool.and_eq_true,decide_eq_true_eq]
  omega

theorem subI64Ovf_eq (a b : BitVec 64) : subI64Ovf a b = checked (a.toInt - b.toInt) := by
  obtain ⟨ha,ha'⟩ := toInt_bounds a
  obtain ⟨hb,hb'⟩ := toInt_bounds b
  have hval : ofInt 64 (a.toInt - b.toInt) = a - b := by
    rw [Int.sub_eq_add_neg,BitVec.ofInt_add,BitVec.ofInt_neg,ofInt_toInt,ofInt_toInt,
      BitVec.sub_eq_add_neg]
  rw [subI64Ovf,checked,hval]
  refine Prod.ext (Bool.eq_iff_iff.mpr ?_) rfl
  simp only [Bool.or_eq_true,Bool.and_eq_true,decide_eq_true_eq]
  omega

theorem toNat_low (x : BitVec 64) : (x &&& 0xFFFFFFFF#64).toNat = x.toNat % 2^32 := by
  rw [BitVec.toNat_and]
  exact Nat.and_two_pow_sub_one_eq_mod _ 32

theorem toNat_high (x : BitVec 64) : (x >>> 32).toNat = x.toNat / 2^32 := by
  rw [BitVec.toNat_ushiftRight,Nat.shiftRight_eq_div_pow]

theorem toNat_join (x y : BitVec 64) :
    ((x <<< 32) ||| (y &&& 0xFFFFFFFF#64)).toNat = 2^32 * (x.toNat % 2^32) + y.toNat % 2^32 := by
  have hy : y.toNat % 2^32 < 2^32 := mod_lt _ (by decide)
  rw [BitVec.toNat_or,toNat_low,BitVec.toNat_shiftLeft,Nat.shiftLeft_eq,Nat.two_pow_add_eq_or_of_lt hy]
  congr 1
  omega

theorem toNat_mul_half {x y : BitVec 64} (hx : x.toNat < 2^32) (hy : y.toNat < 2^32) :
    (x * y).toNat = x.toNat * y.toNat ∧ x.toNat * y.toNat ≤ (2^32-1)*(2^32-1) := by
  have hle := Nat.mul_le_mul (Nat.le_pred_of_lt hx) (Nat.le_pred_of_lt hy)
  exact ⟨by rw [BitVec.toNat_mul]; exact mod_eq_of_lt (hle.trans_lt (by decide)),hle⟩

theorem mulU64Wide_eq (a b : BitVec 64) : mulU64Wide a b = halves (a.toNat * b.toNat) := by
  have hal : (a &&& 0xFFFFFFFF#64).toNat < 2^32 := toNat_low a ▸ mod_lt _ (by decide)
  have hbl : (b &&& 0xFFFFFFFF#64).toNat < 2^32 := toNat_low b ▸ mod_lt _ (by decide)
  have hah : (a >>> 32).toNat < 2^32 := by rw [toNat_high]; omega
  have hbh : (b >>> 32).toNat < 2^32 := by rw [toNat_high]; omega
  have hprod : a.toNat * b.toNat = (a >>> 32).toNat * (b >>> 32).toNat * 2^64 +
      ((a &&& 0xFFFFFFFF#64).toNat * (b >>> 32).toNat +
        (a >>> 32).toNat * (b &&& 0xFFFFFFFF#64).toNat) * 2^32 +
      (a &&& 0xFFFFFFFF#64).toNat * (b &&& 0xFFFFFFFF#64).toNat := by
    rw [toNat_high,toNat_high,toNat_low,toNat_low]
    nth_rewrite 1 [← Nat.div_add_mod a.toNat (2^32),← Nat.div_add_mod b.toNat (2^32)]
    ring
  rw [hprod]
  unfold mulU64Wide halves
  generalize a &&& 0xFFFFFFFF#64 = al at *
  generalize b &&& 0xFFFFFFFF#64 = bl at *
  generalize a >>> 32 = ah at *
  generalize b >>> 32 = bh at *
  obtain ⟨hll,hll'⟩ := toNat_mul_half hal hbl
  obtain ⟨hlh,hlh'⟩ := toNat_mul_half hal hbh
  obtain ⟨hhl,hhl'⟩ := toNat_mul_half hah hbl
  obtain ⟨hhh,hhh'⟩ := toNat_mul_half hah hbh
  have hmid : ((al * bl) >>> 32 + (al * bh &&& 0xFFFFFFFF#64) + (ah * bl &&& 0xFFFFFFFF#64)).toNat =
      al.toNat * bl.toNat / 2^32 + al.toNat * bh.toNat % 2^32 + ah.toNat * bl.toNat % 2^32 := by
    rw [toNat_add,toNat_add,toNat_high,toNat_low,toNat_low,hll,hlh,hhl]
    omega
  refine Prod.ext (eq_of_toNat_eq ?_) (eq_of_toNat_eq ?_)
  · dsimp only
    rw [toNat_add,toNat_add,toNat_add,toNat_high,toNat_high,toNat_high,hmid,hlh,hhl,hhh,toNat_ofNat]
    omega
  · dsimp only
    rw [toNat_join,hmid,hll,toNat_ofNat]
    omega

theorem toNat_abs (a : BitVec 64) :
    (if a.toInt < 0 then 0#64 - a else a).toNat = a.toInt.natAbs := by
  have hint := BitVec.toInt_eq_toNat_cond a
  split_ifs with h
  · rw [BitVec.toNat_sub]
    split_ifs at hint <;> simp <;> omega
  · split_ifs at hint <;> omega

theorem mulI64Ovf_eq (a b : BitVec 64) : mulI64Ovf a b = checked (a.toInt * b.toInt) := by
  obtain ⟨ha,ha'⟩ := toInt_bounds a
  obtain ⟨hb,hb'⟩ := toInt_bounds b
  have hp : a.toInt.natAbs * b.toInt.natAbs ≤ 2^63*2^63 :=
    Nat.mul_le_mul (by omega) (by omega)
  have habs : ∀ i : ℤ, i = if i < 0 then -(i.natAbs : ℤ) else (i.natAbs : ℤ) := fun i => by
    split_ifs <;> omega
  have he : a.toInt * b.toInt = if decide (a.toInt < 0) != decide (b.toInt < 0) then
        -((a.toInt.natAbs * b.toInt.natAbs : ℕ) : ℤ)
      else ((a.toInt.natAbs * b.toInt.natAbs : ℕ) : ℤ) := by
    refine (congrArg₂ (· * ·) (habs a.toInt) (habs b.toInt)).trans ?_
    rw [Nat.cast_mul]
    by_cases h1 : a.toInt < 0 <;> by_cases h2 : b.toInt < 0 <;> simp [h1,h2]
  unfold mulI64Ovf
  dsimp only
  rw [mulU64Wide_eq,toNat_abs,toNat_abs,he]
  generalize a.toInt.natAbs * b.toInt.natAbs = p at hp
  generalize (decide (a.toInt < 0) != decide (b.toInt < 0)) = neg
  have hhi : ofNat 64 (p/2^64) ≠ 0#64 ↔ 2^64 ≤ p := by
    rw [ne_eq,← BitVec.toNat_inj,toNat_ofNat,toNat_ofNat]
    omega
  have hlo : (ofNat 64 p).toNat = p % 2^64 := toNat_ofNat p 64
  cases neg
  · simp only [Bool.false_eq_true,if_false,checked,BitVec.ofInt_natCast]
    refine Prod.ext (Bool.eq_iff_iff.mpr ?_) rfl
    simp only [halves,bne_iff_ne,hhi,hlo,Bool.or_eq_true,decide_eq_true_eq]
    omega
  · simp only [if_true,checked,BitVec.ofInt_neg,BitVec.ofInt_natCast,← BitVec.zero_sub]
    refine Prod.ext (Bool.eq_iff_iff.mpr ?_) rfl
    simp only [halves,bne_iff_ne,hhi,hlo,Bool.or_eq_true,decide_eq_true_eq]
    omega

theorem toNat_addMod {m x y : BitVec 64} (hx : x.toNat < m.toNat) (hy : y.toNat < m.toNat) :
    (if x ≥ m - y then x - (m - y) else x + y).toNat = (x.toNat + y.toNat) % m.toNat := by
  have hsub : (m - y).toNat = m.toNat - y.toNat := BitVec.toNat_sub_of_le (by
    rw [BitVec.le_def]
    omega)
  have hle : x ≥ m - y ↔ m.toNat ≤ x.toNat + y.toNat := by
    rw [ge_iff_le,BitVec.le_def,hsub]
    omega
  split_ifs with h
  · have hge := hle.mp h
    rw [BitVec.toNat_sub_of_le h,hsub,Nat.mod_eq_sub_mod hge,mod_eq_of_lt (by omega)]
    omega
  · have hlt := mt hle.mpr h
    rw [toNat_add,mod_eq_of_lt (by omega),mod_eq_of_lt (by omega)]

theorem mulmodFrom_eq {m : BitVec 64} (fuel : ℕ) {a b r : BitVec 64} (ha : a.toNat < m.toNat)
    (hr : r.toNat < m.toNat) (hb : b.toNat < 2^fuel) :
    (mulmodFrom m fuel a b r).toNat = (r.toNat + a.toNat * b.toNat) % m.toNat := by
  induction fuel generalizing a b r with
  | zero =>
    obtain hb : b.toNat = 0 := by omega
    rw [mulmodFrom,hb,Nat.mul_zero,Nat.add_zero,mod_eq_of_lt hr]
  | succ fuel ih =>
    have hpos : 0 < m.toNat := by omega
    rw [mulmodFrom]
    by_cases h0 : b = 0#64
    · rw [if_pos h0,h0,toNat_ofNat,Nat.zero_mod,Nat.mul_zero,Nat.add_zero,mod_eq_of_lt hr]
    rw [if_neg h0]
    have hodd : b &&& 1#64 ≠ 0#64 ↔ b.toNat % 2 = 1 := by
      rw [ne_eq,← BitVec.toNat_inj,BitVec.toNat_and]
      exact (Nat.and_one_is_mod b.toNat).symm ▸ Nat.mod_two_ne_zero
    have hhalf : (b >>> 1).toNat = b.toNat/2 := by
      rw [BitVec.toNat_ushiftRight,Nat.shiftRight_eq_div_pow,pow_one]
    have hr' : (if b &&& 1#64 ≠ 0#64 then if r ≥ m - a then r - (m - a) else r + a else r).toNat =
        (r.toNat + a.toNat * (b.toNat % 2)) % m.toNat := by
      by_cases h : b.toNat % 2 = 1
      · rw [if_pos (hodd.mpr h),toNat_addMod hr ha,h,Nat.mul_one]
      · rw [if_neg (mt hodd.mp h),Nat.mod_two_ne_one.mp h,Nat.mul_zero,Nat.add_zero,mod_eq_of_lt hr]
    have ha' := toNat_addMod ha ha
    rw [ih (ha' ▸ mod_lt _ hpos) (hr' ▸ mod_lt _ hpos) (by rw [hhalf]; omega),ha',hr',hhalf]
    have hsum : r.toNat + a.toNat * b.toNat =
        r.toNat + a.toNat * (b.toNat % 2) + (a.toNat + a.toNat) * (b.toNat/2) := by
      nth_rewrite 1 [← Nat.div_add_mod b.toNat 2]
      ring
    rw [hsum]
    exact (Nat.mod_modEq _ _).add ((Nat.mod_modEq _ _).mul_right _)

theorem ofInt_mul_two_pow (v : ℤ) {k : ℕ} (hk : 64 ≤ k) : ofInt 64 (v*2^k) = 0#64 := by
  obtain ⟨j,rfl⟩ := Nat.exists_eq_add_of_le hk
  refine eq_of_toNat_eq ?_
  rw [BitVec.toNat_ofInt,pow_add,mul_left_comm]
  simp

theorem toInt_of_nonneg {s : BitVec 64} (h : 0 ≤ s.toInt) : s.toInt = s.toNat := by
  have hs := BitVec.toInt_eq_toNat_cond s
  split_ifs at hs <;> omega

theorem shlI64Ovf_of_lt {v s : BitVec 64} (h : 0 ≤ s.toInt) (h' : s.toInt < 63) :
    shlI64Ovf v s = checked (v.toInt * 2^s.toNat) := by
  have hs := toInt_of_nonneg h
  obtain ⟨hv,hv'⟩ := toInt_bounds v
  unfold shlI64Ovf
  by_cases h0 : s.toInt ≤ 0
  · rw [if_pos h0,show s.toNat = 0 by omega,pow_zero,mul_one,checked,ofInt_toInt]
    refine Prod.ext (decide_eq_false ?_).symm rfl
    omega
  · have hp : 2^s.toNat < 2^63 := Nat.pow_lt_pow_right (by decide) (by omega)
    have hshift : (1#64 <<< s.toNat).toNat = 2^s.toNat := by
      rw [BitVec.toNat_shiftLeft,Nat.shiftLeft_eq]
      simpa using mod_eq_of_lt (hp.trans (show 2^63 < 2^64 by decide))
    rw [if_neg h0,if_neg (by omega),mulI64Ovf_eq,
      BitVec.toInt_eq_toNat_of_lt (x:=1#64 <<< s.toNat) (by omega),hshift]
    norm_cast

/-- A shift is exact below 63 places; by 63 when the number is even or `-1`, and beyond when it is
not `-1`. -/
theorem shlI64Ovf_iff {v s : BitVec 64} (h : 0 ≤ s.toInt) :
    shlI64Ovf v s = checked (v.toInt * 2^s.toNat) ↔
      s.toInt < 63 ∨ s.toInt = 63 ∧ (v.toInt % 2 = 0 ∨ v.toInt = -1) ∨ 63 < s.toInt ∧ v.toInt ≠ -1 := by
  have hs := toInt_of_nonneg h
  by_cases hlt : s.toInt < 63
  · exact iff_of_true (shlI64Ovf_of_lt h hlt) (.inl hlt)
  have h1 : v = -1#64 ↔ v.toInt = -1 := by rw [← BitVec.toInt_inj]; rfl
  have h0 : v = 0#64 ↔ v.toInt = 0 := by rw [← BitVec.toInt_inj]; rfl
  have htop : ∀ p : Prop, [Decidable p] → ((if p then intMin 64 else 0#64) = 0#64 ↔ ¬p) :=
    fun p _ => by split_ifs with hp <;> simp [hp]
  unfold shlI64Ovf
  rw [if_neg (by omega),if_pos (by omega),checked,Prod.mk.injEq,Bool.eq_iff_iff]
  simp only [Bool.not_eq_true',Bool.or_eq_false_iff,decide_eq_false_iff_not,decide_eq_true_eq,h0,h1]
  generalize v.toInt = V
  obtain heq | hgt := (not_lt.mp hlt).eq_or_lt
  · have hval : ofInt 64 (V*2^63) = if V % 2 = 0 then 0#64 else intMin 64 := by
      refine eq_of_toNat_eq ?_
      rw [BitVec.toNat_ofInt]
      split_ifs
      · rw [toNat_ofNat]
        omega
      · rw [BitVec.toNat_intMin]
        omega
    rw [show s.toNat = 63 by omega,hval]
    split_ifs with hV hpar hpar
    · omega
    · exact iff_of_true ⟨by omega,rfl⟩ (by omega)
    · exact iff_of_true ⟨by omega,rfl⟩ (by omega)
    · exact iff_of_false (fun h => absurd h.2 (by decide)) (by omega)
  · have hbig : (2:ℤ)^64 ≤ 2^s.toNat := pow_le_pow_right₀ (by decide) (by omega)
    have hovf : V*2^s.toNat < -2^63 ∨ V*2^s.toNat > 2^63-1 ↔ V ≠ 0 := by
      refine ⟨?_,fun hV => ?_⟩
      · rintro hV rfl
        omega
      · obtain hV | hV := lt_or_gt_of_ne hV
        · exact .inl (by nlinarith)
        · exact .inr (by nlinarith)
    rw [ofInt_mul_two_pow V (by omega),htop,hovf]
    omega

/-- The helpers compute what the compiler's 128-bit and overflow operations do, but for the
shifts. -/
theorem portable_exact (a b : BitVec 64) :
    addI64Ovf a b = checked (a.toInt + b.toInt) ∧
    subI64Ovf a b = checked (a.toInt - b.toInt) ∧
    mulI64Ovf a b = checked (a.toInt * b.toInt) ∧
    mulU64Wide a b = halves (a.toNat * b.toNat) ∧
    (∀ m, m ≠ 0#64 → mulmodU64 a b m = ofNat 64 (a.toNat * b.toNat % m.toNat)) ∧
    (0 ≤ b.toInt → (shlI64Ovf a b = checked (a.toInt * 2^b.toNat) ↔
      b.toInt < 63 ∨ b.toInt = 63 ∧ (a.toInt % 2 = 0 ∨ a.toInt = -1) ∨ 63 < b.toInt ∧ a.toInt ≠ -1)) := by
  refine ⟨addI64Ovf_eq a b,subI64Ovf_eq a b,mulI64Ovf_eq a b,mulU64Wide_eq a b,fun m hm => ?_,
    shlI64Ovf_iff⟩
  have hpos : 0 < m.toNat := Nat.pos_of_ne_zero fun h => hm (eq_of_toNat_eq h)
  refine eq_of_toNat_eq ?_
  have ha : (a % m).toNat < m.toNat := by rw [BitVec.toNat_umod]; exact mod_lt _ hpos
  rw [mulmodU64,mulmodFrom_eq (r:=0#64) 64 ha hpos b.isLt,BitVec.toNat_umod,toNat_ofNat,
    toNat_ofNat,Nat.zero_mod,Nat.zero_add,Nat.mod_mul_mod,
    mod_eq_of_lt ((mod_lt _ hpos).trans m.isLt)]

/-- `1 * 2^63` overflows, and `0` is not what it wraps to. -/
theorem shlI64Ovf_top : ¬∀ v s : BitVec 64, 0 ≤ s.toInt → s.toInt ≤ 63 →
    shlI64Ovf v s = checked (v.toInt * 2^s.toNat) := fun h =>
  absurd (h 1#64 63#64 (by decide) (by decide)) (by decide)

end Wide
end DvSolve
