import DvSolve.BitField
import DvSolve.PropShift

/-! The slice of a word: `_fire_bit_slice_32`, `_fire_bit_slice_64` and the walk to the
nearest word with a given slice. -/
namespace DvSolve
namespace Solver

open BitVec (allOnes le_def lt_def ofInt toNat_shiftLeft toNat_ushiftRight)
open Nat (mod_eq_of_lt pow_le_pow_right shiftLeft_eq shiftRight_eq_div_pow)

variable {v : Variable} {vars : ℕ → Variable} {s : Engine}
variable {n : ℕ} {pin : BitVec 64 → Fire}
variable {id q : ℕ}

/-- `((uint64_t)1 << n) - 1`, with the whole word from 64 on. -/
def onesMask (n : ℕ) : BitVec 64 := if n ≥ 64 then allOnes 64 else 1#64 <<< n-1#64

/-- `base` and `run_hi`: the words with the slice `s` and the bits of `x` above it. -/
def sliceRun (x : BitVec 64) (lo hi : ℕ) (s : BitVec 64) : BitVec 64 × BitVec 64 :=
  let smask := onesMask (hi-lo+1) <<< lo
  let lomask := if lo = 0 then 0#64 else 1#64 <<< lo-1#64
  let himask := if hi+1 ≥ 64 then 0#64 else ~~~(1#64 <<< (hi+1)-1#64)
  let tgt := s <<< lo &&& smask
  let base := x &&& himask ||| tgt
  (base,base ||| lomask)

def unlessAbove (ahi nlo : BitVec 64) : Option (BitVec 64) := if nlo > ahi then none else some nlo

def unlessBelow (alo nhi : BitVec 64) : Option (BitVec 64) := if nhi < alo then none else some nhi

def sliceMinGe (alo ahi : BitVec 64) (lo hi : ℕ) (s : BitVec 64) : Option (BitVec 64) :=
  let tgt := s <<< lo &&& onesMask (hi-lo+1) <<< lo
  let (base,runHi) := sliceRun alo lo hi s
  if base ≥ alo then unlessAbove ahi base
  else if runHi ≥ alo then unlessAbove ahi alo
  else if hi+1 ≥ 64 then none
  else unlessAbove ahi ((alo >>> (hi+1)+1#64) <<< (hi+1) ||| tgt)

def sliceMaxLe (alo ahi : BitVec 64) (lo hi : ℕ) (s : BitVec 64) : Option (BitVec 64) :=
  let tgt := s <<< lo &&& onesMask (hi-lo+1) <<< lo
  let lomask := if lo = 0 then 0#64 else 1#64 <<< lo-1#64
  let (base,runHi) := sliceRun ahi lo hi s
  if runHi ≤ ahi then unlessBelow alo runHi
  else if base ≤ ahi then unlessBelow alo ahi
  else
    let hh := if hi+1 ≥ 64 then 0#64 else ahi >>> (hi+1)
    if hh = 0#64 then none else unlessBelow alo ((hh-1#64) <<< (hi+1) ||| tgt ||| lomask)

/-- The bounds that the backward pass leaves alone: out of order, or negative numbers. -/
def inverted (va : Variable) (alo ahi : BitVec 64) : Bool :=
  if va.beyond then alo > ahi else alo.toInt < 0 || ahi.toInt < 0 || alo > ahi

def bitSliceBackward (a lo hi : ℕ) (s alo ahi : BitVec 64) : Fire :=
  .read a fun va =>
  if inverted va alo ahi then .done .ok
  else match sliceMinGe alo ahi lo hi s,sliceMaxLe alo ahi lo hi s with
    | some nlo,some nhi => .between a nlo nhi <| .done .ok
    | _,_ => .done .conflict

/-- What both fires do with the operand, once the result is within the slice's range: `pin`
gives the result its value. -/
def fireSlice (pin : BitVec 64 → Fire) (lo hi r a : ℕ) : Fire :=
  .read a fun va =>
  let alo := varLo64 va
  let ahi := varHi64 va
  if alo = ahi then pin (alo >>> lo &&& onesMask (hi-lo+1))
  else .read r fun vr =>
    if varLo64 vr = varHi64 vr then bitSliceBackward a lo hi (varLo64 vr) alo ahi else .done .ok

def fireBitSlice32 (lo hi r a : ℕ) : Fire :=
  let width := hi-lo+1
  .need .lb32 r 0#64 <|
  .need .ub32 r (if width < 32 then 1#64 <<< width-1#64 else 2147483647#64) <|
  fireSlice (fun x => .need .lb32 r x <| .need .ub32 r x <| .done .entailed) lo hi r a

def fireBitSlice64 (lo hi r a : ℕ) : Fire :=
  let width := hi-lo+1
  .between r 0#64 (if width < 64 then 1#64 <<< width-1#64 else BitVec.intMax 64) <|
  fireSlice (fun x => .between r x x <| .done .entailed) lo hi r a

section Walk

variable {lo hi : ℕ} {x y alo ahi : BitVec 64}

theorem onesMask_toNat (hn : n ≤ 64) : (onesMask n).toNat = 2^n-1 := by
  unfold onesMask
  split_ifs with h
  · rw [le_antisymm hn h]
    rfl
  · have hp : 2^n ≤ 2^63 := pow_le_pow_right (by decide) (by omega)
    have hpos : 0 < 2^n := by positivity
    have h1 : (1#64 <<< n).toNat = 2^n := by
      rw [toNat_shiftLeft,BitVec.toNat_ofNat,Nat.one_mod_two_pow (by decide),
        shiftLeft_eq,Nat.one_mul,mod_eq_of_lt (by omega)]
    rw [BitVec.toNat_sub_of_le (by rw [le_def,h1]; simp; omega),h1]
    rfl

theorem onesMask_getLsbD (hn : n ≤ 64) (i : ℕ) : (onesMask n).getLsbD i = decide (i < n) := by
  rw [← BitVec.testBit_toNat,onesMask_toNat hn,Nat.testBit_two_pow_sub_one]

theorem onesMask_of_lt (hn : n < 64) : 1#64 <<< n-1#64 = onesMask n := by
  rw [onesMask,if_neg (by omega)]

theorem lomask_eq (hlo : lo < 64) :
    (if lo = 0 then 0#64 else 1#64 <<< lo-1#64) = onesMask lo := by
  split_ifs with h
  · subst h
    rfl
  · exact onesMask_of_lt hlo

theorem slice_toNat (hn : lo+n ≤ 64) :
    (x >>> lo &&& onesMask n).toNat = field lo n x.toNat := by
  rw [BitVec.toNat_and,onesMask_toNat (by omega),toNat_ushiftRight,
    shiftRight_eq_div_pow,Nat.and_two_pow_sub_one_eq_mod]
  rfl

theorem tgt_toNat (hlo : lo ≤ hi) (hhi : hi < 64) (hs : y.toNat < 2^(hi-lo+1)) :
    (y <<< lo &&& onesMask (hi-lo+1) <<< lo).toNat = y.toNat*2^lo := by
  have hkeep : y <<< lo &&& onesMask (hi-lo+1) <<< lo = y <<< lo := by
    apply BitVec.eq_of_getLsbD_eq
    intro i hi64
    rw [BitVec.getLsbD_and,BitVec.getLsbD_shiftLeft,BitVec.getLsbD_shiftLeft,onesMask_getLsbD (by omega)]
    cases h : y.getLsbD (i-lo)
    · simp
    · have : i-lo < hi-lo+1 := by
        by_contra hge
        rw [← BitVec.testBit_toNat,Nat.testBit_lt_two_pow
          (lt_of_lt_of_le hs (pow_le_pow_right (by decide) (not_lt.mp hge)))] at h
        exact Bool.false_ne_true h
      simp [this]
  have hrun := run_le lo hs
  have hp : 2^(lo+(hi-lo+1)) ≤ 2^64 := pow_le_pow_right (by decide) (by omega)
  have : 0 < 2^lo := by positivity
  rw [hkeep,toNat_shiftLeft,shiftLeft_eq,mod_eq_of_lt (by omega)]

theorem himask_toNat (x : BitVec 64) (h : ℕ) :
    (x &&& if h ≥ 64 then 0#64 else ~~~(1#64 <<< h-1#64)).toNat = x.toNat/2^h*2^h := by
  split_ifs with hh
  · have : 2^64 ≤ 2^h := pow_le_pow_right (by decide) hh
    rw [Nat.div_eq_of_lt (by omega)]
    simp
  · have heq : x &&& ~~~(1#64 <<< h-1#64) = (x >>> h) <<< h := by
      apply BitVec.eq_of_getLsbD_eq
      intro i hi64
      rw [onesMask_of_lt (by omega),BitVec.getLsbD_and,BitVec.getLsbD_not,
        onesMask_getLsbD (by omega),BitVec.getLsbD_shiftLeft,BitVec.getLsbD_ushiftRight]
      by_cases hih : i < h
      · simp [hih]
      · simp [hih,hi64,show h+(i-h) = i by omega]
    have hle := Nat.div_mul_le_self x.toNat (2^h)
    rw [heq,toNat_shiftLeft,shiftLeft_eq,toNat_ushiftRight,shiftRight_eq_div_pow,mod_eq_of_lt (by omega)]

theorem or_tgt (hlo : lo ≤ hi) (hhi : hi < 64) (hs : y.toNat < 2^(hi-lo+1))
    (hx : x.toNat = q*2^(hi+1)) :
    (x ||| (y <<< lo &&& onesMask (hi-lo+1) <<< lo)).toNat = x.toNat+y.toNat*2^lo := by
  have hrun := run_le lo hs
  have hpos : 0 < 2^lo := by positivity
  rw [show lo+(hi-lo+1) = hi+1 by omega] at hrun
  rw [BitVec.toNat_or,tgt_toNat hlo hhi hs,hx,← shiftLeft_eq q,← Nat.shiftLeft_add_eq_or_of_lt (by omega)]

theorem or_lomask (hlo : lo < 64) (hx : x.toNat = q*2^lo) :
    (x ||| onesMask lo).toNat = x.toNat+(2^lo-1) := by
  have hpos : 0 < 2^lo := by positivity
  rw [BitVec.toNat_or,onesMask_toNat (by omega),hx,← shiftLeft_eq q,
    ← Nat.shiftLeft_add_eq_or_of_lt (by omega)]

theorem sliceRun_toNat (hlo : lo ≤ hi) (hhi : hi < 64) (hs : y.toNat < 2^(hi-lo+1)) :
    (sliceRun x lo hi y).1.toNat = x.toNat/2^(hi+1)*2^(hi+1)+y.toNat*2^lo ∧
    (sliceRun x lo hi y).2.toNat = x.toNat/2^(hi+1)*2^(hi+1)+y.toNat*2^lo+(2^lo-1) := by
  have h1 : (sliceRun x lo hi y).1.toNat = x.toNat/2^(hi+1)*2^(hi+1)+y.toNat*2^lo := by
    rw [sliceRun]
    rw [or_tgt hlo hhi hs (himask_toNat x (hi+1)),himask_toNat]
  refine ⟨h1,?_⟩
  have h2 : (sliceRun x lo hi y).2 = (sliceRun x lo hi y).1 ||| onesMask lo := by
    rw [← lomask_eq (by omega)]
    rfl
  have hq : x.toNat/2^(hi+1)*2^(hi+1)+y.toNat*2^lo = (x.toNat/2^(hi+1)*2^(hi-lo+1)+y.toNat)*2^lo := by
    rw [add_mul,mul_assoc,← pow_add,show hi-lo+1+lo = hi+1 by omega]
  rw [h2,or_lomask (by omega) (h1.trans hq),h1]

def sliced (lo hi : ℕ) (x alo ahi : BitVec 64) : Set (BitVec 64) :=
  {y | alo ≤ y ∧ y ≤ ahi ∧ (y.extractLsb hi lo).toNat = x.toNat}

/-- An answer is the extreme element of a set, or that there is none. -/
def Nearest (extreme : Set (BitVec 64) → BitVec 64 → Prop) (S : Set (BitVec 64)) :
    Option (BitVec 64) → Prop
  | some m => extreme S m
  | none => S = ∅

/-- The next group up from `alo` lies past the word, and its run within `ahi` once it has
wrapped. -/
def Carries (lo hi : ℕ) (x alo ahi : BitVec 64) : Prop :=
  hi < 63 ∧ alo >>> (hi+1) = onesMask (63-hi) ∧ x.toNat < (alo.extractLsb hi lo).toNat ∧
    x.toNat*2^lo ≤ ahi.toNat

theorem extract_toNat : (x.extractLsb hi lo).toNat = field lo (hi-lo+1) x.toNat := by
  rw [BitVec.extractLsb_toNat,shiftRight_eq_div_pow]
  rfl

theorem mem_sliced {z : BitVec 64} : z ∈ sliced lo hi x alo ahi ↔
    alo.toNat ≤ z.toNat ∧ z.toNat ≤ ahi.toNat ∧ field lo (hi-lo+1) z.toNat = x.toNat := by
  simp only [sliced,Set.mem_ofPred_eq,le_def,extract_toNat]

theorem nearest_up {m : BitVec 64} (hm : m.toNat = n)
    (hleast : IsLeast {y | alo.toNat ≤ y ∧ field lo (hi-lo+1) y = x.toNat} n) :
    Nearest IsLeast (sliced lo hi x alo ahi) (unlessAbove ahi m) := by
  subst hm
  unfold unlessAbove
  split_ifs with h
  · rw [gt_iff_lt,lt_def] at h
    refine Set.eq_empty_of_forall_notMem fun z hz => ?_
    rw [mem_sliced] at hz
    have := hleast.2 ⟨hz.1,hz.2.2⟩
    omega
  · rw [gt_iff_lt,lt_def,not_lt] at h
    refine ⟨(mem_sliced).mpr ⟨hleast.1.1,h,hleast.1.2⟩,fun z hz => ?_⟩
    rw [mem_sliced] at hz
    exact hleast.2 ⟨hz.1,hz.2.2⟩

theorem nearest_down {m : BitVec 64} (hm : m.toNat = n)
    (hgreatest : IsGreatest {y | y ≤ ahi.toNat ∧ field lo (hi-lo+1) y = x.toNat} n) :
    Nearest IsGreatest (sliced lo hi x alo ahi) (unlessBelow alo m) := by
  subst hm
  unfold unlessBelow
  split_ifs with h
  · rw [lt_def] at h
    refine Set.eq_empty_of_forall_notMem fun z hz => ?_
    rw [mem_sliced] at hz
    have := hgreatest.2 ⟨hz.2.1,hz.2.2⟩
    omega
  · rw [lt_def,not_lt] at h
    refine ⟨(mem_sliced).mpr ⟨h,hgreatest.1.1,hgreatest.1.2⟩,fun z hz => ?_⟩
    rw [mem_sliced] at hz
    exact hgreatest.2 ⟨hz.2.1,hz.2.2⟩

theorem group_up (hhi : hi+1 < 64) : ((alo >>> (hi+1)+1#64) <<< (hi+1)).toNat =
    if alo.toNat/2^(hi+1)+1 = 2^(63-hi) then 0 else (alo.toNat/2^(hi+1)+1)*2^(hi+1) := by
  have hlt := alo.isLt
  have hsplit : 2^(hi+1)*2^(63-hi) = 2^64 := by rw [← pow_add]; congr 1; omega
  have hp : 2^(63-hi) ≤ 2^63 := pow_le_pow_right (by decide) (by omega)
  have hq : alo.toNat/2^(hi+1) < 2^(63-hi) := Nat.div_lt_of_lt_mul (by rw [hsplit]; exact hlt)
  rw [toNat_shiftLeft,BitVec.toNat_add,toNat_ushiftRight,shiftRight_eq_div_pow,shiftLeft_eq]
  simp only [BitVec.toNat_ofNat,Nat.one_mod_two_pow (show 0 < 64 by decide)]
  rw [mod_eq_of_lt (show alo.toNat/2^(hi+1)+1 < 2^64 by omega)]
  split_ifs with h
  · rw [h,mul_comm,hsplit,Nat.mod_self]
  · refine mod_eq_of_lt ?_
    rw [← hsplit,mul_comm]
    exact Nat.mul_lt_mul_of_pos_left (by omega) (by positivity)

theorem top_group (hhi : hi+1 < 64) : alo >>> (hi+1) = onesMask (63-hi) ↔
    alo.toNat/2^(hi+1)+1 = 2^(63-hi) := by
  have hpos : 0 < 2^(63-hi) := by positivity
  rw [← BitVec.toNat_inj,toNat_ushiftRight,shiftRight_eq_div_pow,onesMask_toNat (by omega)]
  omega

theorem slice_gt (hlo : lo ≤ hi)
    (h : alo.toNat/2^(hi+1)*2^(hi+1)+x.toNat*2^lo+2^lo ≤ alo.toNat) :
    x.toNat < (alo.extractLsb hi lo).toNat := by
  have hsplit := field_split lo (hi-lo+1) alo.toNat
  rw [show lo+(hi-lo+1) = hi+1 by omega] at hsplit
  rw [extract_toNat]
  by_contra hge
  have := Nat.mul_le_mul_right (2^lo) (not_lt.mp hge)
  omega

theorem nextField_big (hlo : lo ≤ hi) (hhi : hi < 63) (htop : alo >>> (hi+1) = onesMask (63-hi))
    (hgt : x.toNat < (alo.extractLsb hi lo).toNat) :
    2^64 ≤ nextField lo (hi-lo+1) x.toNat alo.toNat := by
  rw [top_group (by omega)] at htop
  rw [extract_toNat] at hgt
  have hsplit := field_split lo (hi-lo+1) alo.toNat
  have hnext : lo+(hi-lo+1) = hi+1 := by omega
  have hmul := Nat.mul_le_mul_right (2^lo) (Nat.succ_le_of_lt hgt)
  have hwhole : (alo.toNat/2^(hi+1)+1)*2^(hi+1) = 2^64 := by
    rw [htop,← pow_add]
    congr 1
    omega
  rw [Nat.succ_mul] at hmul hwhole
  rw [hnext] at hsplit
  simp only [nextField,hnext]
  rw [if_neg (by omega),if_neg (by omega)]
  omega

theorem sliced_empty (hn : 2^64 ≤ n)
    (hleast : IsLeast {y | alo.toNat ≤ y ∧ field lo (hi-lo+1) y = x.toNat} n) :
    sliced lo hi x alo ahi = ∅ := by
  refine Set.eq_empty_of_forall_notMem fun z hz => ?_
  rw [mem_sliced] at hz
  have := hleast.2 ⟨hz.1,hz.2.2⟩
  omega

theorem sliceMinGe_eq (hlo : lo ≤ hi) (hhi : hi < 64) (hx : x.toNat < 2^(hi-lo+1)) :
    (∃ m, m.toNat = nextField lo (hi-lo+1) x.toNat alo.toNat ∧
      sliceMinGe alo ahi lo hi x = unlessAbove ahi m) ∨
    2^64 ≤ nextField lo (hi-lo+1) x.toNat alo.toNat ∧ (sliceMinGe alo ahi lo hi x = none ∧ hi = 63 ∨
        hi < 63 ∧ alo >>> (hi+1) = onesMask (63-hi) ∧ x.toNat < (alo.extractLsb hi lo).toNat ∧
          ∃ m : BitVec 64, m.toNat = x.toNat*2^lo ∧ sliceMinGe alo ahi lo hi x = unlessAbove ahi m) := by
  obtain ⟨h1,h2⟩ := sliceRun_toNat (x:=alo) hlo hhi hx
  have hnext : lo+(hi-lo+1) = hi+1 := by omega
  by_cases g1 : (sliceRun alo lo hi x).1 ≥ alo
  · refine .inl ⟨(sliceRun alo lo hi x).1,?_,by simp [sliceMinGe,g1]⟩
    rw [ge_iff_le,le_def,h1] at g1
    simp only [nextField,hnext,h1,if_pos g1]
  by_cases g2 : (sliceRun alo lo hi x).2 ≥ alo
  · refine .inl ⟨alo,?_,by simp [sliceMinGe,g1,g2]⟩
    rw [ge_iff_le,le_def,h1] at g1
    rw [ge_iff_le,le_def,h2] at g2
    simp only [nextField,hnext,if_neg g1]
    rw [if_pos (by omega)]
  have hres : sliceMinGe alo ahi lo hi x = if hi+1 ≥ 64 then none else
      unlessAbove ahi ((alo >>> (hi+1)+1#64) <<< (hi+1) |||
        (x <<< lo &&& onesMask (hi-lo+1) <<< lo)) := by
    simp only [sliceMinGe,if_neg g1,if_neg g2]
  rw [ge_iff_le,le_def,h1] at g1
  rw [ge_iff_le,le_def,h2] at g2
  have hN : nextField lo (hi-lo+1) x.toNat alo.toNat =
      alo.toNat/2^(hi+1)*2^(hi+1)+x.toNat*2^lo+2^(hi+1) := by
    simp only [nextField,hnext,if_neg g1]
    rw [if_neg (by omega)]
  by_cases h64 : hi+1 ≥ 64
  · rw [if_pos h64] at hres
    have h63 : hi = 63 := by omega
    refine .inr ⟨?_,.inl ⟨hres,h63⟩⟩
    rw [hN,h63]
    omega
  rw [if_neg h64] at hres
  have hor := or_tgt (x:=(alo >>> (hi+1)+1#64) <<< (hi+1)) (q:=if alo.toNat/2^(hi+1)+1 = 2^(63-hi)
    then 0 else alo.toNat/2^(hi+1)+1) hlo hhi hx (by
      rw [group_up (by omega)]
      split_ifs <;> simp)
  rw [group_up (by omega)] at hor
  by_cases htop : alo.toNat/2^(hi+1)+1 = 2^(63-hi)
  · rw [if_pos htop,zero_add] at hor
    have htop' := (top_group (by omega)).mpr htop
    have hgt : x.toNat < (alo.extractLsb hi lo).toNat := slice_gt hlo (by omega)
    exact .inr ⟨nextField_big hlo (by omega) htop' hgt,.inr ⟨by omega,htop',hgt,_,hor,hres⟩⟩
  · rw [if_neg htop] at hor
    refine .inl ⟨_,hor.trans ?_,hres⟩
    rw [hN,Nat.succ_mul]
    ring

/-- The walk up is exact unless it wraps. -/
theorem sliceMinGe_nearest (hlo : lo ≤ hi) (hhi : hi < 64) (hx : x.toNat < 2^(hi-lo+1)) :
    Nearest IsLeast (sliced lo hi x alo ahi) (sliceMinGe alo ahi lo hi x) ↔ ¬Carries lo hi x alo ahi := by
  have hleast : IsLeast {y | alo.toNat ≤ y ∧ field lo (hi-lo+1) y = x.toNat} _ :=
    nextField_isLeast hx
  obtain ⟨m,hm,hres⟩ | ⟨hbig,⟨hres,h63⟩ | ⟨h63,htop,hgt,m,hm,hres⟩⟩ :
      _ ∨ _ ∧ (sliceMinGe alo ahi lo hi x = none ∧ _ ∨ _) := sliceMinGe_eq hlo hhi hx
  · rw [hres]
    refine iff_of_true (nearest_up hm hleast) fun ⟨h63,htop,hgt,_⟩ => ?_
    have := nextField_big hlo h63 htop hgt
    omega
  · rw [hres]
    exact iff_of_true (sliced_empty hbig hleast) fun h => by have := h.1; omega
  · rw [hres,unlessAbove]
    split_ifs with h <;> rw [gt_iff_lt,lt_def,hm] at h
    · exact iff_of_true (sliced_empty hbig hleast) fun hc => by have := hc.2.2.2; omega
    · refine iff_of_false (fun hn => ?_) (not_not.mpr ⟨h63,htop,hgt,not_lt.mp h⟩)
      have hmem := hn.1
      rw [sliced_empty hbig hleast] at hmem
      exact hmem

theorem group_down (hlo : lo ≤ hi) (hhi : hi+1 < 64) (hx : x.toNat < 2^(hi-lo+1))
    (hq : 2^(hi+1) ≤ ahi.toNat) :
    ((ahi >>> (hi+1)-1#64) <<< (hi+1) ||| (x <<< lo &&& onesMask (hi-lo+1) <<< lo) |||
      onesMask lo).toNat = (ahi.toNat/2^(hi+1)-1)*2^(hi+1)+x.toNat*2^lo+(2^lo-1) := by
  have hdiv := Nat.div_pos hq (show 0 < 2^(hi+1) by positivity)
  have hle := Nat.div_mul_le_self ahi.toNat (2^(hi+1))
  have hshift : (ahi >>> (hi+1)).toNat = ahi.toNat/2^(hi+1) := by
    rw [toNat_ushiftRight,shiftRight_eq_div_pow]
  have hone : (1#64).toNat = 1 := rfl
  have h1 : ((ahi >>> (hi+1)-1#64) <<< (hi+1)).toNat = (ahi.toNat/2^(hi+1)-1)*2^(hi+1) := by
    rw [toNat_shiftLeft,shiftLeft_eq,
      BitVec.toNat_sub_of_le (by rw [le_def,hshift,hone]; exact hdiv),hshift,hone]
    refine mod_eq_of_lt (lt_of_le_of_lt (Nat.mul_le_mul_right _ (Nat.sub_le _ 1)) (by omega))
  have h2 := or_tgt hlo (by omega) hx h1
  have hfac : (ahi.toNat/2^(hi+1)-1)*2^(hi+1)+x.toNat*2^lo =
      ((ahi.toNat/2^(hi+1)-1)*2^(hi-lo+1)+x.toNat)*2^lo := by
    rw [add_mul,mul_assoc,← pow_add,show hi-lo+1+lo = hi+1 by omega]
  rw [h1] at h2
  rw [or_lomask (by omega) (h2.trans hfac),h2]

theorem sliceMaxLe_nearest (hlo : lo ≤ hi) (hhi : hi < 64) (hx : x.toNat < 2^(hi-lo+1)) :
    Nearest IsGreatest (sliced lo hi x alo ahi) (sliceMaxLe alo ahi lo hi x) := by
  obtain ⟨h1,h2⟩ := sliceRun_toNat (x:=ahi) hlo hhi hx
  have hpos : 0 < 2^lo := by positivity
  have hnext : lo+(hi-lo+1) = hi+1 := by omega
  have hrun := run_le lo hx
  rw [hnext] at hrun
  have hprev : prevField lo (hi-lo+1) x.toNat ahi.toNat =
      if (sliceRun ahi lo hi x).2 ≤ ahi then some (sliceRun ahi lo hi x).2.toNat
      else if (sliceRun ahi lo hi x).1 ≤ ahi then some ahi.toNat
      else if ahi.toNat < 2^(hi+1) then none
      else some ((sliceRun ahi lo hi x).1.toNat-2^(hi+1)+2^lo-1) := by
    simp only [prevField,hnext,le_def,h1,h2]
    split_ifs <;> first | omega | rfl | (congr 1; omega)
  unfold sliceMaxLe
  dsimp only
  rw [lomask_eq (by omega)]
  by_cases g1 : (sliceRun ahi lo hi x).2 ≤ ahi
  · rw [if_pos g1] at hprev ⊢
    exact nearest_down rfl (prevField_isGreatest hx hprev)
  by_cases g2 : (sliceRun ahi lo hi x).1 ≤ ahi
  · rw [if_neg g1,if_pos g2] at hprev ⊢
    exact nearest_down rfl (prevField_isGreatest hx hprev)
  rw [if_neg g1,if_neg g2] at hprev ⊢
  by_cases g3 : ahi.toNat < 2^(hi+1)
  · have hh : (if hi+1 ≥ 64 then 0#64 else ahi >>> (hi+1)) = 0#64 := by
      split_ifs
      · rfl
      · exact BitVec.eq_of_toNat_eq (by simp [shiftRight_eq_div_pow,Nat.div_eq_of_lt g3])
    rw [if_pos g3] at hprev
    rw [if_pos hh]
    refine Set.eq_empty_of_forall_notMem fun z hz => ?_
    rw [mem_sliced] at hz
    have := prevField_none hprev hz.2.2
    omega
  · have h64 : ¬hi+1 ≥ 64 := fun h => by
      have : 2^64 ≤ 2^(hi+1) := pow_le_pow_right (by decide) h
      omega
    have hdiv := Nat.div_pos (not_lt.mp g3) (show 0 < 2^(hi+1) by positivity)
    have hh : ahi >>> (hi+1) ≠ 0#64 := fun h => by
      have := congrArg BitVec.toNat h
      rw [toNat_ushiftRight,shiftRight_eq_div_pow] at this
      simp only [BitVec.toNat_ofNat,Nat.zero_mod] at this
      omega
    rw [if_neg h64,if_neg hh]
    rw [if_neg g3,h1] at hprev
    refine nearest_down (group_down hlo (by omega) hx (not_lt.mp g3)) ?_
    have hgreatest := prevField_isGreatest hx hprev
    obtain ⟨q,hq⟩ := Nat.exists_eq_add_of_le' hdiv
    rw [hq,Nat.succ_mul] at hgreatest
    rw [hq,Nat.add_sub_cancel]
    convert hgreatest using 1
    omega

end Walk

section Slice

variable {lo hi r a : ℕ} {σ : ℕ → ℤ} {vars₀ : ℕ → Variable}
  {Q : PropResult → (ℕ → Variable) → Prop} {x y : BitVec 64}

def SliceRel (lo hi r a : ℕ) (σ : ℕ → ℤ) : Prop := σ r = σ a/2^lo%2^(hi-lo+1)

structure SliceOf (lo hi r a : ℕ) (vars : ℕ → Variable) : Prop where
  ok : ∀ v ∈ [r,a], (vars v).Ok
  le : lo ≤ hi
  lt : hi < (vars a).width

theorem SliceOf.lt64 (h : SliceOf lo hi r a vars) : hi < 64 :=
  lt_of_lt_of_le h.lt (h.ok a (by simp)).le

theorem SliceRel.nonneg (h : SliceRel lo hi r a σ) : 0 ≤ σ r := by
  rw [h]
  exact Int.emod_nonneg _ (by positivity)

theorem SliceRel.lt (h : SliceRel lo hi r a σ) : σ r < 2^(hi-lo+1) := by
  rw [h]
  exact Int.emod_lt_of_pos _ (by positivity)

theorem field_toNat (hn : lo+(hi-lo+1) ≤ 64) :
    (field lo (hi-lo+1) x.toNat : ℤ) = varOrd v x/2^lo%2^(hi-lo+1) := by
  have hcast : (field lo (hi-lo+1) x.toNat : ℤ) = (x.toNat : ℤ)/2^lo%2^(hi-lo+1) := by
    rw [field]
    rfl
  have hwrap : (x.toNat : ℤ)/2^lo%2^(hi-lo+1) = ((x.toNat : ℤ)-2^64)/2^lo%2^(hi-lo+1) := by
    have hsplit : (2 : ℤ)^64 = 2^(hi-lo+1)*2^(64-lo-(hi-lo+1))*2^lo := by
      rw [← pow_add,← pow_add]
      congr 1
      omega
    rw [hsplit,sub_eq_add_neg,← neg_mul,Int.add_mul_ediv_right _ _ (by positivity),← mul_neg,
      Int.add_mul_emod_self_left]
  rw [hcast,varOrd]
  split_ifs
  · rfl
  · rw [BitVec.toInt_eq_toNat_cond]
    split_ifs
    · rfl
    · exact hwrap

theorem varOrd_of_toNat {n : ℤ} (hv : v.Ok) (h : x.toNat = n) (hn : n ≤ v.top) :
    varOrd v x = n := by
  cases hb : v.beyond
  · have hw := hv.le
    have htop : v.top < 2^63 := by
      unfold Variable.top
      cases hs : v.signed
      · have : v.width < 64 := by simpa [Variable.beyond,hs] using hb
        have : (2 : ℤ)^v.width ≤ 2^63 := pow_le_pow_right₀ (by norm_num) (by omega)
        simp
        omega
      · have : (2 : ℤ)^(v.width-1) ≤ 2^63 := pow_le_pow_right₀ (by norm_num) (by omega)
        simp
        omega
    rw [varOrd_plain hb,toInt_of_lt (by omega),h]
  · rw [varOrd_beyond hb,h]

theorem sliceMinGe_of_mem (hlo : lo ≤ hi) (hhi : hi < 64) {alo ahi : BitVec 64}
    (hx : x.toNat < 2^(hi-lo+1)) (hy : y ∈ sliced lo hi x alo ahi) :
    ∃ m, sliceMinGe alo ahi lo hi x = some m ∧ m ≤ y := by
  have hc : ¬Carries lo hi x alo ahi := fun ⟨h63,htop,hgt,_⟩ => by
    have hbig := nextField_big hlo h63 htop hgt
    rw [sliced_empty hbig (nextField_isLeast hx)] at hy
    exact hy
  have h := (sliceMinGe_nearest hlo hhi hx).mpr hc
  cases hm : sliceMinGe alo ahi lo hi x with
  | none =>
    rw [hm] at h
    have h : sliced lo hi x alo ahi = ∅ := h
    rw [h] at hy
    exact hy.elim
  | some m =>
    rw [hm] at h
    exact ⟨m,rfl,h.2 hy⟩

theorem sliceMaxLe_of_mem (hlo : lo ≤ hi) (hhi : hi < 64) {alo ahi : BitVec 64}
    (hx : x.toNat < 2^(hi-lo+1)) (hy : y ∈ sliced lo hi x alo ahi) :
    ∃ m, sliceMaxLe alo ahi lo hi x = some m ∧ y ≤ m ∧ m ≤ ahi := by
  have h : Nearest IsGreatest (sliced lo hi x alo ahi) (sliceMaxLe alo ahi lo hi x) :=
    sliceMaxLe_nearest hlo hhi hx
  cases hm : sliceMaxLe alo ahi lo hi x with
  | none =>
    rw [hm] at h
    have h : sliced lo hi x alo ahi = ∅ := h
    rw [h] at hy
    exact hy.elim
  | some m =>
    rw [hm] at h
    exact ⟨m,rfl,h.2 hy,h.1.2.1⟩

/-- The pattern of a number the type holds, within bounds that are not negative. -/
theorem ofInt_between (hv : v.Ok) {n : ℤ} (h1 : v.least ≤ n) (h2 : n ≤ v.most)
    (hlo : v.beyond = false → 0 ≤ (varLo64 v).toInt) :
    ((varLo64 v).toNat : ℤ) = v.least ∧ ((varHi64 v).toNat : ℤ) = v.most ∧
      ((ofInt 64 n).toNat : ℤ) = n := by
  have hin := hv.inType h1 h2
  have hl : 0 ≤ v.least := by
    rw [Variable.least]
    cases hb : v.beyond
    · rw [varOrd_plain hb]
      exact hlo hb
    · rw [varOrd_beyond hb]
      positivity
  have hn := hv.varOrd_ofInt hin.1 hin.2
  refine ⟨toNat_of_ord hl,toNat_of_ord (hl.trans (h1.trans h2)),?_⟩
  rw [toNat_of_ord (by rw [hn]; omega),hn]

theorem bitSliceBackward_keeps (hp : SliceOf lo hi r a vars₀) (ht : Typed [r,a] vars₀ vars)
    (hσ : Inside [r,a] vars σ) (hR : SliceRel lo hi r a σ) (hx : x.toNat = σ r) :
    (bitSliceBackward a lo hi x (varLo64 (vars a)) (varHi64 (vars a))).wp
      (Retained [r,a] vars₀ σ) vars := by
  have hok := ht.ok a (by simp)
  have h1 := hσ.least a (by simp)
  have h2 := hσ.most a (by simp)
  have hbound : hi < 64 := hp.lt64
  have hle := hp.le
  simp only [bitSliceBackward,Fire.wp]
  split_ifs with hg
  · exact ⟨rfl,ht,hσ⟩
  obtain ⟨hl,hm,hn⟩ := ofInt_between hok h1 h2 fun hb => by
    simp only [inverted,hb,Bool.false_eq_true,if_false,Bool.or_eq_true,decide_eq_true_iff,
      not_or,not_lt] at hg
    exact hg.1.1
  have hin := hok.inType h1 h2
  have hslice : field lo (hi-lo+1) (ofInt 64 (σ a)).toNat = x.toNat := by
    have hfield : (field lo (hi-lo+1) (ofInt 64 (σ a)).toNat : ℤ) = _ :=
      field_toNat (v:=vars a) (by omega)
    rw [hok.varOrd_ofInt hin.1 hin.2,← hR,← hx] at hfield
    exact_mod_cast hfield
  have hmem : ofInt 64 (σ a) ∈ sliced lo hi x (varLo64 (vars a)) (varHi64 (vars a)) := by
    rw [mem_sliced]
    exact ⟨by omega,by omega,hslice⟩
  have hxlt : x.toNat < 2^(hi-lo+1) := by
    have := hR.lt
    rw [← hx] at this
    exact_mod_cast this
  obtain ⟨m,hmin,hmle⟩ := sliceMinGe_of_mem hle hbound hxlt hmem
  obtain ⟨m',hmax,hmge,hmhi⟩ := sliceMaxLe_of_mem hle hbound hxlt hmem
  rw [le_def] at hmle hmge hmhi
  have htop := hok.top
  have hord : ∀ c : BitVec 64, c.toNat ≤ (vars a).most → varOrd (vars₀ a) c = c.toNat :=
    fun c hc => by
      rw [← (ht.same a).varOrd]
      exact varOrd_of_toNat hok rfl (hc.trans htop)
  rw [hmin,hmax]
  refine Fire.wp_between ht hσ (by simp) ?_ ?_ fun vars' ht hσ => ⟨rfl,ht,hσ⟩
  · rw [hord m (by omega)]
    omega
  · rw [hord m' (by omega)]
    omega

theorem fireSlice_keeps (hp : SliceOf lo hi r a vars₀) (ht : Typed [r,a] vars₀ vars)
    (hσ : Inside [r,a] vars σ) (hR : SliceRel lo hi r a σ)
    (hpin : ∀ x, (x.toNat : ℤ) = σ r → (pin x).wp (fun res vars => res ≠ .conflict ∧
      Inside [r,a] vars σ) vars) :
    (fireSlice pin lo hi r a).wp (fun res vars => res ≠ .conflict ∧ Inside [r,a] vars σ) vars := by
  simp only [fireSlice,Fire.wp]
  split_ifs with hfix
  · have hlt := hp.lt64
    have hle := hp.le
    have hword := word_of_fixed (ht.ok a (by simp)) hfix (hσ.least a (by simp)) (hσ.most a (by simp))
    have hin := (ht.ok a (by simp)).inType (hσ.least a (by simp)) (hσ.most a (by simp))
    refine hpin _ ?_
    rw [slice_toNat (by omega),hword,field_toNat (v:=vars a) (by omega),
      (ht.ok a (by simp)).varOrd_ofInt hin.1 hin.2,hR]
  · simp only [Fire.wp]
    split_ifs with hr
    · have hok := ht.ok r (by simp)
      have hword := word_of_fixed hok hr (hσ.least r (by simp)) (hσ.most r (by simp))
      have hin := hok.inType (hσ.least r (by simp)) (hσ.most r (by simp))
      refine Fire.wp_mono (fun _ _ => Retained.keeps) (bitSliceBackward_keeps hp ht hσ hR ?_)
      have hord := hok.varOrd_ofInt hin.1 hin.2
      rw [hword,toNat_of_ord (v:=vars r) (by rw [hord]; exact hR.nonneg),hord]
    · exact ⟨by simp,hσ⟩

theorem fireSlice_pinned (hp : SliceOf lo hi r a vars₀) (ht : Typed [r,a] vars₀ vars)
    (hσ : Pinned [r,a] vars σ)
    (hpin : ∀ x, (x.toNat : ℤ) = σ a/2^lo%2^(hi-lo+1) → (pin x).wp Q vars) :
    (fireSlice pin lo hi r a).wp Q vars := by
  have hlt := hp.lt64
  have hle := hp.le
  have hok := ht.ok a (by simp)
  have hfix := hσ.fixed (show a ∈ [r,a] by simp)
  have hword := word_of_fixed hok hfix (hσ.inside.least a (by simp)) (hσ.inside.most a (by simp))
  have hin := hok.inType (hσ.inside.least a (by simp)) (hσ.inside.most a (by simp))
  simp only [fireSlice,Fire.wp]
  rw [if_pos hfix]
  refine hpin _ ?_
  rw [slice_toNat (by omega),hword,field_toNat (v:=vars a) (by omega),hok.varOrd_ofInt hin.1 hin.2]

/-- The whole word as a slice, for an unsigned result of 64 bits: a number from `2^63` on
that both domains can give. -/
def Capped (lo hi r a : ℕ) (vars : ℕ → Variable) : Prop :=
  hi = lo+63 ∧ (vars r).beyond = true ∧ ∃ σ, Inside [r,a] vars σ ∧ σ r = σ a%2^64 ∧ 2^63 ≤ σ r

theorem Capped.rel (h : SliceOf lo hi r a vars) (hc : hi = lo+63) (hσ : σ r = σ a%2^64) :
    SliceRel lo hi r a σ := by
  have hlt := h.lt64
  have hlo : lo = 0 := by omega
  subst hlo hc
  rw [SliceRel,hσ]
  norm_num

theorem fireBitSlice64_keeps (hp : SliceOf lo hi r a s.ctx.vars)
    (hc : ¬Capped lo hi r a s.ctx.vars) (hσ : Inside [r,a] s.ctx.vars σ)
    (hR : SliceRel lo hi r a σ) :
    (fireBitSlice64 lo hi r a).wp (fun res vars => res ≠ .conflict ∧ Inside [r,a] vars σ)
      s.ctx.vars := by
  have hlt := hp.lt64
  have hok := hp.ok r (by simp)
  have hin := hok.inType (hσ.least r (by simp)) (hσ.most r (by simp))
  have hnn := hR.nonneg
  have hT : Typed [r,a] s.ctx.vars s.ctx.vars := .refl hp.ok
  simp only [fireBitSlice64]
  refine Fire.wp_between hT hσ (by simp) ?_ ?_ fun vars₁ ht hσ => ?_
  · rw [varOrd_of_nonneg fun _ => by simp]
    simpa using hnn
  · by_cases h64 : hi-lo+1 < 64
    · have hcap := onesMask_toNat (n:=hi-lo+1) (by omega)
      rw [if_pos h64,onesMask_of_lt h64]
      have hpow : 2^(hi-lo+1) ≤ 2^63 := pow_le_pow_right (by decide) (by omega)
      have hsl := hR.lt
      have hcast : ((2^(hi-lo+1) : ℕ) : ℤ) = 2^(hi-lo+1) := by push_cast; rfl
      rw [varOrd_of_nonneg fun _ => by rw [toInt_of_lt (by omega)]; positivity,
        toInt_of_lt (by omega),hcap]
      omega
    · rw [if_neg h64]
      have hmax : (BitVec.intMax 64).toInt = 2^63-1 := by decide
      rw [varOrd_of_nonneg fun _ => by rw [hmax]; norm_num,hmax]
      by_contra hbig
      refine hc ⟨by omega,?_,σ,hσ,?_,by omega⟩
      · by_contra hb
        rw [Bool.not_eq_true] at hb
        have hplain := hok.varOrd_ofInt hin.1 hin.2
        rw [varOrd_plain hb] at hplain
        have hsmall := BitVec.toInt_lt (x := ofInt 64 (σ r))
        rw [hplain] at hsmall
        omega
      · have hlo : lo = 0 := by omega
        have hhi : hi = 63 := by omega
        rw [hR,hlo,hhi]
        norm_num
  · refine fireSlice_keeps hp ht hσ hR fun x hx => ?_
    have hord := varOrd_of_toNat hok hx hin.2
    exact Fire.wp_between ht hσ (by simp) hord.le hord.ge fun vars₂ _ hσ => ⟨by simp,hσ⟩

theorem fireBitSlice64_refutes (hp : SliceOf lo hi r a s.ctx.vars)
    (hσ : Pinned [r,a] s.ctx.vars σ) (hR : ¬SliceRel lo hi r a σ) :
    (fireBitSlice64 lo hi r a).wp (fun res _ => res = .conflict) s.ctx.vars := by
  simp only [fireBitSlice64]
  refine Fire.wp_between_pinned (.refl hp.ok) hσ (by simp) (fun _ => rfl)
    fun h0 _ vars₁ ht hσ => fireSlice_pinned hp ht hσ fun x hx =>
      Fire.wp_between_pinned ht hσ (by simp) (fun _ => rfl) fun h1 h2 => absurd ?_ hR
  rw [varOrd_of_nonneg fun _ => by simp] at h0
  have hx0 : varOrd (s.ctx.vars r) x = σ r := le_antisymm h1 h2
  have h0 : 0 ≤ σ r := by simpa using h0
  rw [SliceRel,← hx,toNat_of_ord (by rw [hx0]; exact h0),hx0]

/-- After an upper bound the domain lies below it, or there is a conflict. -/
theorem Fire.wp_cap {W : List ℕ} {b : BitVec 64} {f : Fire} (ht : Typed W vars₀ vars)
    (hid : id ∈ W) (hQ : ∀ vars', Q .conflict vars')
    (hk : ∀ vars', Typed W vars₀ vars' → (vars' id).most ≤ varOrd (vars₀ id) b → f.wp Q vars') :
    (Fire.need .ub64 id b f).wp Q vars := by
  refine ⟨ht.ok id hid,trivial,fun r vars' h => ?_⟩
  have hnum := ht.num (t:=.ub64) (b:=b) (v:=id)
  cases h with
  | ok x same ok hl hm live =>
    dsimp only
    rw [if_pos rfl]
    refine hk _ (ht.update same ok (hl ▸ Tighten.least_le _ _ _) (hm ▸ Tighten.le_most _ _ _)) ?_
    rw [Function.update_self,hm,hnum]
    simp only [Tighten.most,Tighten.isUb,if_true]
    exact min_le_right _ _
  | conflict _ out => simpa [Fire.wp] using hQ vars'

theorem Fire.wp_between_any {W : List ℕ} {lo hi : BitVec 64} {f : Fire}
    (ht : Typed W vars₀ vars) (hid : id ∈ W) (hQ : ∀ vars', Q .conflict vars')
    (hk : ∀ vars', Typed W vars₀ vars' → f.wp Q vars') : (Fire.between id lo hi f).wp Q vars :=
  Fire.wp_need_any ht hid trivial hQ fun _ ht => Fire.wp_need_any ht hid trivial hQ hk

theorem fireSlice_typed (ht : Typed [r,a] vars₀ vars) (hQ : ∀ vars', Q .conflict vars')
    (hok : ∀ vars', Typed [r,a] vars₀ vars' → Q .ok vars') (hpin : ∀ x, (pin x).wp Q vars) :
    (fireSlice pin lo hi r a).wp Q vars := by
  simp only [fireSlice,Fire.wp]
  split_ifs
  · exact hpin _
  · simp only [Fire.wp]
    split_ifs
    · simp only [bitSliceBackward,Fire.wp]
      split_ifs
      · exact hok _ ht
      · split
        · exact Fire.wp_between_any ht (by simp) hQ hok
        · exact hQ _
    · exact hok _ ht

theorem fireBitSlice64_capped (hp : SliceOf lo hi r a s.ctx.vars)
    (hc : Capped lo hi r a s.ctx.vars) :
    ¬Propagates [r,a] (SliceRel lo hi r a) (fireBitSlice64 lo hi r a) s := by
  obtain ⟨h63,hb,σ,hσ,hrel,hbig⟩ := hc
  intro hP
  have hR := Capped.rel hp h63 hrel
  have hcap : (fireBitSlice64 lo hi r a).wp
      (fun res vars => res = .conflict ∨ (vars r).most < 2^63) s.ctx.vars := by
    simp only [fireBitSlice64]
    refine Fire.wp_need_any (.refl hp.ok) (by simp) trivial (fun _ => .inl rfl) fun vars₁ ht =>
      Fire.wp_cap ht (by simp) (fun _ => .inl rfl) fun vars₂ ht hmost => ?_
    rw [if_neg (by omega),varOrd_beyond hb] at hmost
    have hmost : (vars₂ r).most < 2^63 := lt_of_le_of_lt hmost (by decide)
    exact fireSlice_typed (.refl ht.ok) (fun _ => .inl rfl)
      (fun vars₃ ht => .inr ((ht.most r).trans_lt hmost)) fun x =>
        Fire.wp_between_any (.refl ht.ok) (by simp) (fun _ => .inl rfl)
          fun vars₃ ht => .inr ((ht.most r).trans_lt hmost)
  rcases Fire.run_of_wp hcap with hconf | hmost
  · exact hP.conflict hconf σ hσ hR
  · have := (hP.keeps σ hσ hR).most r (by simp)
    omega

theorem fireBitSlice64_propagates (hp : SliceOf lo hi r a s.ctx.vars) :
    Propagates [r,a] (SliceRel lo hi r a) (fireBitSlice64 lo hi r a) s ↔ ¬Capped lo hi r a s.ctx.vars :=
  ⟨fun h hc => fireBitSlice64_capped hp hc h,fun hc =>
    .of_wp (fun _ hσ hR => fireBitSlice64_keeps hp hc hσ hR)
      fun _ hσ hR => fireBitSlice64_refutes hp hσ hR⟩

theorem setWidth_toInt {n : ℤ} (h : x.toNat = n) (hn : n < 2^31) : (x.setWidth 32).toInt = n := by
  have hx : (x.setWidth 32).toNat = x.toNat := by
    rw [BitVec.toNat_setWidth,mod_eq_of_lt (by omega)]
  rw [BitVec.toInt_eq_toNat_of_lt (by omega),hx,h]

theorem fireBitSlice32_keeps (hp : SliceOf lo hi r a s.ctx.vars)
    (h0 : (s.ctx.vars r).tier1 = false) (hσ : Inside [r,a] s.ctx.vars σ)
    (hR : SliceRel lo hi r a σ) :
    (fireBitSlice32 lo hi r a).wp (fun res vars => res ≠ .conflict ∧ Inside [r,a] vars σ)
      s.ctx.vars := by
  have hnn := hR.nonneg
  have hsl := hR.lt
  have hsmall : σ r < 2^31 := by
    have := hσ.most r (by simp)
    rw [(hp.ok r (by simp)).most_eq h0] at this
    exact lt_of_le_of_lt this (BitVec.toInt_lt (x := (s.ctx.vars r).hi))
  simp only [fireBitSlice32]
  refine Fire.wp_need (.refl hp.ok) hσ (by simp) h0 (by simpa [Tighten.isUb,Tighten.num] using hnn)
    fun vars₁ ht hσ => ?_
  refine Fire.wp_need ht hσ (by simp) h0 ?_ fun vars₂ ht hσ => ?_
  · simp only [Tighten.isUb,Tighten.num,if_true]
    split_ifs with h32
    · have hpow : 2^(hi-lo+1) ≤ 2^31 := pow_le_pow_right (by decide) (by omega)
      have hcast : ((2^(hi-lo+1) : ℕ) : ℤ) = 2^(hi-lo+1) := by push_cast; rfl
      rw [onesMask_of_lt (by omega),setWidth_toInt rfl
        (by rw [onesMask_toNat (by omega)]; omega),onesMask_toNat (by omega)]
      omega
    · have hmax : ((2147483647#64).setWidth 32).toInt = 2^31-1 := by decide
      omega
  · refine fireSlice_keeps hp ht hσ hR fun x hx => ?_
    have hnum := setWidth_toInt hx hsmall
    refine Fire.wp_need ht hσ (by simp) h0 (by simp [Tighten.isUb,Tighten.num,hnum])
      fun vars₃ ht hσ => ?_
    refine Fire.wp_need ht hσ (by simp) h0 (by simp [Tighten.isUb,Tighten.num,hnum])
      fun vars₄ _ hσ => ⟨by simp,hσ⟩

theorem fireBitSlice32_refutes (hp : SliceOf lo hi r a s.ctx.vars)
    (h0 : (s.ctx.vars r).tier1 = false) (ha : (s.ctx.vars a).tier1 = false)
    (hσ : Pinned [r,a] s.ctx.vars σ) (hR : ¬SliceRel lo hi r a σ) :
    (fireBitSlice32 lo hi r a).wp (fun res _ => res = .conflict) s.ctx.vars := by
  simp only [fireBitSlice32]
  refine Fire.wp_need_pinned (.refl hp.ok) hσ (by simp) h0 (fun _ => rfl) fun hlow vars₁ ht hσ => ?_
  refine Fire.wp_need_pinned ht hσ (by simp) h0 (fun _ => rfl) fun _ vars₂ ht hσ =>
    fireSlice_pinned hp ht hσ fun x hx => ?_
  refine Fire.wp_need_pinned ht hσ (by simp) h0 (fun _ => rfl) fun h1 vars₃ ht hσ => ?_
  refine Fire.wp_need_pinned ht hσ (by simp) h0 (fun _ => rfl) fun h2 vars₄ ht hσ => absurd ?_ hR
  have hw := (hp.ok a (by simp)).narrow ha
  have hlt := hp.lt
  simp only [Tighten.isUb,Tighten.num,if_true,Bool.false_eq_true,if_false] at hlow h1 h2
  have h0 : 0 ≤ σ r := by simpa using hlow
  have hx32 : x.toNat < 2^32 := by
    have hpow : (2 : ℤ)^(hi-lo+1) ≤ 2^32 := pow_le_pow_right₀ (by norm_num) (by omega)
    omega
  have hset : (x.setWidth 32).toNat = x.toNat := by
    rw [BitVec.toNat_setWidth,mod_eq_of_lt hx32]
  rw [SliceRel,← hx,← hset]
  rw [BitVec.toInt_eq_toNat_cond] at h1 h2
  split_ifs at h1 h2 <;> omega

theorem fireBitSlice32_propagates (hp : SliceOf lo hi r a s.ctx.vars)
    (h0 : (s.ctx.vars r).tier1 = false) (ha : (s.ctx.vars a).tier1 = false) :
    Propagates [r,a] (SliceRel lo hi r a) (fireBitSlice32 lo hi r a) s :=
  .of_wp (fun _ hσ hR => fireBitSlice32_keeps hp h0 hσ hR)
    fun _ hσ hR => fireBitSlice32_refutes hp h0 ha hσ hR

/-- The 32 bit fire propagates the slice, the 64 bit one unless its cap is short; the walk
down is exact, the walk up unless it wraps. -/
theorem bit_slice_exact (s : Engine) (lo hi r a : ℕ) (x alo ahi : BitVec 64) :
    (SliceOf lo hi r a s.ctx.vars → (Propagates [r,a] (SliceRel lo hi r a) (fireBitSlice64 lo hi r a) s ↔
        ¬Capped lo hi r a s.ctx.vars) ∧
      ((s.ctx.vars r).tier1 = false → (s.ctx.vars a).tier1 = false →
        Propagates [r,a] (SliceRel lo hi r a) (fireBitSlice32 lo hi r a) s)) ∧
      (lo ≤ hi → hi < 64 → x.toNat < 2^(hi-lo+1) →
        Nearest IsGreatest (sliced lo hi x alo ahi) (sliceMaxLe alo ahi lo hi x) ∧
        (Nearest IsLeast (sliced lo hi x alo ahi) (sliceMinGe alo ahi lo hi x) ↔
          ¬Carries lo hi x alo ahi)) := by
  refine ⟨fun hp => ⟨?_,fun h0 ha => ?_⟩,fun hlo hhi hx => ⟨?_,?_⟩⟩
  · exact fireBitSlice64_propagates hp
  · exact fireBitSlice32_propagates hp h0 ha
  · exact sliceMaxLe_nearest hlo hhi hx
  · exact sliceMinGe_nearest hlo hhi hx

theorem bit_slice_exact_nibble :
    Propagates [0,1] (SliceRel 4 7 0 1) (fireBitSlice64 4 7 0 1)
      (holding fun _ => wideVar 1#64 5#64 8 false) ∧
    Nearest IsLeast (sliced 4 7 3#64 80#64 400#64) (sliceMinGe 80#64 400#64 4 7 3#64) := by
  have hslice : SliceOf 4 7 0 1 (holding fun _ => wideVar 1#64 5#64 8 false).ctx.vars :=
    ⟨fun _ _ => wideVar_ok (by decide) (by decide) (by decide) (by decide),by decide,by decide⟩
  have h := bit_slice_exact (holding fun _ => wideVar 1#64 5#64 8 false) 4 7 0 1 3#64 80#64 400#64
  exact ⟨(h.1 hslice).1.mpr fun h => absurd h.1 (by decide),
    (h.2 (by decide) (by decide) (by decide)).2.mpr fun h => absurd h.2.1 (by decide)⟩

def fullWords : Engine := holding fun _ => wideVar 0#64 (allOnes 64) 64 false

/-- As a slice of the other, the one loses its upper half; and from the greatest word up there
is an even one, zero. -/
theorem bit_slice_wrong :
    (SliceOf 0 63 0 1 fullWords.ctx.vars ∧
      ¬Propagates [0,1] (SliceRel 0 63 0 1) (fireBitSlice64 0 63 0 1) fullWords) ∧
      ¬Nearest IsLeast (sliced 0 0 0#64 (allOnes 64) (allOnes 64))
        (sliceMinGe (allOnes 64) (allOnes 64) 0 0 0#64) := by
  have hslice : SliceOf 0 63 0 1 fullWords.ctx.vars :=
    ⟨fun _ _ => wideVar_ok (by decide) (by decide) (by decide) (by decide),by decide,by decide⟩
  refine ⟨⟨hslice,fireBitSlice64_capped hslice ⟨rfl,by decide,fun _ => 2^63,⟨?_,?_⟩,by norm_num,
    le_rfl⟩⟩,fun h => ?_⟩
  · intro v _
    change (fullWords.ctx.vars 0).least ≤ 2^63
    decide
  · intro v _
    change 2^63 ≤ (fullWords.ctx.vars 0).most
    decide
  · exact (sliceMinGe_nearest (by decide) (by decide) (by decide)).mp h
      ⟨by decide,by decide,by decide,by decide⟩

end Slice

end Solver
end DvSolve
