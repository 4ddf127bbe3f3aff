import DvSolve.TruncDiv
import DvSolve.PropSlice

/-! Quotient and remainder: `_fire_bounds_div_32`, `_fire_bounds_div_64`,
`_fire_bounds_mod_32` and `_fire_bounds_mod_64`. -/
namespace DvSolve
namespace Solver

open BitVec (allOnes getLsbD_and le_toInt toInt_lt)

variable {v : Variable} {vars : ℕ → Variable} {s : Engine}

def svSdiv64 (a b : BitVec 64) : BitVec 64 := if b = allOnes 64 then 0#64-a else a.sdiv b

def svSmod64 (a b : BitVec 64) : BitVec 64 := if b = allOnes 64 then 0#64 else a.srem b

def svWrapSigned (v : BitVec 64) (w : ℕ) : BitVec 64 :=
  if w = 0 ∨ w ≥ 64 then v
  else
    let m := 1#64 <<< w-1#64
    let u := v &&& m
    if u &&& 1#64 <<< (w-1) ≠ 0#64 then u ||| ~~~m else u

def svFitsSigned (v : BitVec 64) (w : ℕ) : Bool :=
  if w = 0 ∨ w ≥ 64 then true
  else (-(1#64 <<< (w-1))).toInt ≤ v.toInt && v.toInt ≤ (1#64 <<< (w-1)-1#64).toInt

def signedOp (vr va vb : Variable) : Bool := vr.signed || va.signed || vb.signed

/-- The two tightenings of the result, of the small tier. -/
def within32 (r : ℕ) (rlo rhi : BitVec 64) (k : Fire) : Fire :=
  .need .lb32 r rlo <| .need .ub32 r rhi k

def divSigned (within : BitVec 64 → BitVec 64 → Fire → Fire) (w : ℕ) (alo ahi blo bhi : BitVec 64) :
    Fire :=
  if blo = bhi ∧ blo ≠ 0#64 then
    if alo = ahi then
      let q := svWrapSigned (svSdiv64 alo blo) w
      within q q <| .done .ok
    else
      let q0 := svSdiv64 alo blo
      let q1 := svSdiv64 ahi blo
      if svFitsSigned q0 w && svFitsSigned q1 w then
        within (i64Min q0 q1) (i64Max q0 q1) <| .done .ok
      else .done .ok
  else if 0 < blo.toInt then
    within (svSdiv64 alo (if alo.toInt < 0 then blo else bhi))
      (svSdiv64 ahi (if 0 ≤ ahi.toInt then blo else bhi)) <| .done .ok
  else .done .ok

def divFixed (within : BitVec 64 → BitVec 64 → Fire → Fire) (rlo rhi : BitVec 64) : Fire :=
  if rhi.toInt < rlo.toInt then within rhi rlo <| .done .ok else within rlo rhi <| .done .ok

def fireBoundsDiv32 (r a b : ℕ) : Fire :=
  .read r fun vr => .read a fun va => .read b fun vb =>
  if signedOp vr va vb then
    divSigned (within32 r) vr.width (varLo64 va) (varHi64 va) (varLo64 vb) (varHi64 vb)
  else if vb.lo = vb.hi ∧ 0 < vb.lo.toInt then
    divFixed (within32 r) ((va.lo.sdiv vb.lo).signExtend 64) ((va.hi.sdiv vb.lo).signExtend 64)
  else .done .ok

def fireBoundsDiv64 (r a b : ℕ) : Fire :=
  .read r fun vr => .read a fun va => .read b fun vb =>
  let blo := varLo64 vb
  let bhi := varHi64 vb
  let alo := varLo64 va
  let ahi := varHi64 va
  if signedOp vr va vb then divSigned (Fire.between r) vr.width alo ahi blo bhi
  else if blo = bhi ∧ blo ≠ 0#64 then
    if 0 < blo.toInt then divFixed (Fire.between r) (alo.sdiv blo) (ahi.sdiv blo)
    else divFixed (Fire.between r) (ahi.sdiv blo) (alo.sdiv blo)
  else if 0 < blo.toInt then .between r (alo.sdiv bhi) (ahi.sdiv blo) <| .done .ok
  else .done .ok

def absWord (x : BitVec 64) : BitVec 64 := if x.toInt < 0 then -x else x

/-- `maxb`: the greatest absolute value of a divisor. -/
def maxAbs (blo bhi : BitVec 64) : BitVec 64 :=
  if (absWord bhi).toInt < (absWord blo).toInt then absWord blo else absWord bhi

def posRem {n : ℕ} (x b : BitVec n) : BitVec n :=
  if (x.srem b).toInt < 0 then x.srem b+b else x.srem b

/-- The signed part of both remainders, with `m` the greatest absolute value of a divisor. -/
def modSigned (within : BitVec 64 → BitVec 64 → Fire → Fire) (cut : Prop) [Decidable cut]
    (m alo ahi blo bhi : BitVec 64) : Fire :=
  let exact : Fire :=
    if alo = ahi ∧ blo = bhi ∧ blo ≠ 0#64 then
      within (svSmod64 alo blo) (svSmod64 alo blo) <| .done .ok
    else .done .ok
  if cut then
    within (if 0 ≤ alo.toInt then 0#64 else -(m-1#64)) (if ahi.toInt ≤ 0 then 0#64 else m-1#64) exact
  else exact

/-- `(((int64_t)q - rem + b_val) % b_val)`, cast to 32 bits. -/
def distance32 (q rem k : BitVec 32) : BitVec 32 :=
  ((q.signExtend 64-rem.signExtend 64+k.signExtend 64).srem (k.signExtend 64)).setWidth 32

def modFixed32 (r a b : ℕ) : Fire :=
  .read r fun vr => .read a fun va => .read b fun vb =>
  if vr.lo = vr.hi ∧ vb.lo = vb.hi ∧ 0 < vb.lo.toInt then
    let newLo := va.lo+distance32 vr.lo (posRem va.lo vb.lo) vb.lo
    if va.hi.toInt < newLo.toInt then .done .conflict
    else .need .lb32 a (newLo.signExtend 64) <|
      let newHi := va.hi-distance32 (posRem va.hi vb.lo) vr.lo vb.lo
      if newHi.toInt < newLo.toInt then .done .conflict
      else .need .ub32 a (newHi.signExtend 64) <| .done .ok
  else .done .ok

def modExact32 (r a b : ℕ) : Fire :=
  .read a fun va => .read b fun vb =>
  if va.lo = va.hi ∧ vb.lo = vb.hi ∧ 0 < vb.lo.toInt then
    let val := (posRem va.lo vb.lo).signExtend 64
    within32 r val val <| modFixed32 r a b
  else modFixed32 r a b

def fireBoundsMod32 (r a b : ℕ) : Fire :=
  .read r fun vr => .read a fun va => .read b fun vb =>
  if signedOp vr va vb then
    let alo := varLo64 va
    let ahi := varHi64 va
    let blo := varLo64 vb
    let bhi := varHi64 vb
    modSigned (within32 r) (blo = bhi ∧ blo ≠ 0#64) (absWord blo) alo ahi blo bhi
  else
    if vb.lo = vb.hi ∧ 0 < vb.lo.toInt then
      within32 r 0#64 ((vb.lo-1#32).signExtend 64) <| modExact32 r a b
    else modExact32 r a b

/-- The dividends next to its ends that leave the remainder `rlo`. -/
def modBack (a : ℕ) (rlo blo alo ahi : BitVec 64) : Fire :=
  let newAlo := alo+(rlo-posRem alo blo+blo).srem blo
  if ahi.toInt < newAlo.toInt then .done .conflict
  else .need .lb64 a newAlo <|
    let newAhi := ahi-(posRem ahi blo-rlo+blo).srem blo
    if newAhi.toInt < newAlo.toInt then .done .conflict
    else .need .ub64 a newAhi <| .done .ok

def modFixed (r a : ℕ) (blo bhi : BitVec 64) : Fire :=
  .read r fun vr => .read a fun va =>
  if varLo64 vr = varHi64 vr ∧ blo = bhi ∧ 0 < blo.toInt then
    modBack a (varLo64 vr) blo (varLo64 va) (varHi64 va)
  else .done .ok

def modExact (r a : ℕ) (alo ahi blo bhi : BitVec 64) : Fire :=
  if alo = ahi ∧ blo = bhi ∧ 0 < blo.toInt then
    .between r (posRem alo blo) (posRem alo blo) <| modFixed r a blo bhi
  else modFixed r a blo bhi

def modUnsigned (r a : ℕ) (alo ahi blo bhi : BitVec 64) : Fire :=
  if blo = bhi ∧ 0 < blo.toInt then .between r 0#64 (blo-1#64) <| modExact r a alo ahi blo bhi
  else if 0 < blo.toInt then .between r 0#64 (bhi-1#64) <| modExact r a alo ahi blo bhi
  else modExact r a alo ahi blo bhi

def fireBoundsMod64 (r a b : ℕ) : Fire :=
  .read r fun vr => .read a fun va => .read b fun vb =>
  let alo := varLo64 va
  let ahi := varHi64 va
  let blo := varLo64 vb
  let bhi := varHi64 vb
  if signedOp vr va vb then
    let maxb := maxAbs blo bhi
    modSigned (Fire.between r) (1 ≤ maxb.toInt) maxb alo ahi blo bhi
  else modUnsigned r a alo ahi blo bhi

section Words

variable {a b x : BitVec 64} {w : ℕ}

theorem svSdiv64_toInt (a b : BitVec 64) : (svSdiv64 a b).toInt = (a.toInt.tdiv b.toInt).bmod (2^64) := by
  unfold svSdiv64
  split_ifs with h
  · subst h
    rw [BitVec.toInt_sub,show (allOnes 64).toInt = -1 from rfl,Int.tdiv_neg,Int.tdiv_one]
    simp
  · exact BitVec.toInt_sdiv a b

theorem svSdiv64_exact (h : ¬(a.toInt = -2^63 ∧ b.toInt = -1)) :
    (svSdiv64 a b).toInt = a.toInt.tdiv b.toInt := by
  have h1 := le_toInt a
  have h2 := toInt_lt (x := a)
  obtain ⟨h3,h4⟩ := TruncDiv.tdiv_range (n:=63) h1 h2 h
  rw [svSdiv64_toInt]
  exact Int.bmod_eq_of_le (by norm_num; omega) (by norm_num; omega)

theorem svSmod64_toInt (a b : BitVec 64) : (svSmod64 a b).toInt = a.toInt.tmod b.toInt := by
  unfold svSmod64
  split_ifs with h
  · subst h
    rw [show (allOnes 64).toInt = -1 from rfl,Int.tmod_neg,Int.tmod_one]
    rfl
  · exact BitVec.toInt_srem a b

theorem svWrapSigned_eq (hpos : 0 < w) (hlt : w < 64) :
    svWrapSigned x w = (x.setWidth w).signExtend 64 := by
  have hbit : ∀ i, (1#64 <<< (w-1)).getLsbD i = decide (i = w-1) := fun i => by
    rw [BitVec.getLsbD_shiftLeft,BitVec.getLsbD_one]
    by_cases h : i = w-1
    · simp [h]
      omega
    · simp [h]
      omega
  have hand : ∀ i, (x &&& onesMask w &&& 1#64 <<< (w-1)).getLsbD i =
      (x.getLsbD i && decide (i = w-1)) := fun i => by
    rw [getLsbD_and,getLsbD_and,onesMask_getLsbD hlt.le,hbit]
    by_cases h : i = w-1
    · simp [h,hpos]
    · simp [h]
  have htest : x &&& onesMask w &&& 1#64 <<< (w-1) ≠ 0#64 ↔ x.getLsbD (w-1) = true := by
    rw [ne_eq,BitVec.eq_of_getLsbD_eq_iff]
    refine ⟨fun h => ?_,fun h h0 => ?_⟩
    · by_contra hb
      rw [Bool.not_eq_true] at hb
      refine h fun i _ => ?_
      rw [hand]
      by_cases hi : i = w-1
      · simp [hi,hb]
      · simp [hi]
    · have := h0 (w-1) (by omega)
      simp [hand,h] at this
  have hmsb : (x.setWidth w).msb = x.getLsbD (w-1) := by
    simp [BitVec.msb_eq_getLsbD_last,hpos]
  unfold svWrapSigned
  rw [if_neg (by omega),onesMask_of_lt hlt]
  apply BitVec.eq_of_getLsbD_eq
  intro i hi
  rw [BitVec.getLsbD_signExtend,hmsb,BitVec.getLsbD_setWidth]
  by_cases hw : x.getLsbD (w-1) = true
  · rw [if_pos (htest.mpr hw),BitVec.getLsbD_or,getLsbD_and,BitVec.getLsbD_not,onesMask_getLsbD hlt.le,hw]
    by_cases hiw : i < w
    · simp [hi,hiw]
    · simp [hi,hiw]
  · rw [if_neg (mt htest.mp hw),getLsbD_and,onesMask_getLsbD hlt.le]
    rw [Bool.not_eq_true] at hw
    by_cases hiw : i < w
    · simp [hi,hiw]
    · simp [hiw,hw]

theorem svWrapSigned_toInt (hpos : 0 < w) (hle : w ≤ 64) :
    (svWrapSigned x w).toInt = x.toInt.bmod (2^w) := by
  rcases lt_or_eq_of_le hle with hlt | rfl
  · rw [svWrapSigned_eq hpos hlt,BitVec.toInt_signExtend_of_le hlt.le,BitVec.toInt_setWidth]
    have hmul : 2^64 = 2^w*2^(64-w) := by rw [← pow_add,Nat.add_sub_of_le hle]
    have hdvd : ((2^64 : ℕ) : ℤ) = (2^w : ℕ)*(2^(64-w) : ℕ) := by exact_mod_cast hmul
    rw [BitVec.toInt_eq_toNat_cond]
    split_ifs
    · rfl
    · rw [hdvd,sub_eq_add_neg,← mul_neg,Int.add_mul_bmod_self_left]
  · have h1 := le_toInt x
    have h2 := toInt_lt (x := x)
    rw [svWrapSigned,if_pos (by omega)]
    exact (Int.bmod_eq_of_le (by norm_num at h1 ⊢; omega) (by norm_num at h2 ⊢; omega)).symm

theorem svFitsSigned_iff (hpos : 0 < w) (hle : w ≤ 64) :
    svFitsSigned x w = true ↔ -2^(w-1) ≤ x.toInt ∧ x.toInt < 2^(w-1) := by
  unfold svFitsSigned
  rcases lt_or_eq_of_le hle with hlt | rfl
  · have hp : (2 : ℤ)^(w-1) ≤ 2^62 := pow_le_pow_right₀ (by norm_num) (by omega)
    have h0 : (0 : ℤ) < 2^(w-1) := by positivity
    have h1 : (1#64 <<< (w-1)).toInt = 2^(w-1) := toInt_one_shiftLeft (by omega)
    rw [if_neg (by omega),BitVec.toInt_neg,BitVec.toInt_sub,h1]
    simp only [Bool.and_eq_true,decide_eq_true_iff]
    rw [Int.bmod_eq_of_le (by omega) (by omega),Int.bmod_eq_of_le (by simp; omega) (by simp; omega)]
    simp
  · have h1 := le_toInt x
    have h2 := toInt_lt (x := x)
    simpa using ⟨h1,h2⟩

end Words

end Solver
end DvSolve
