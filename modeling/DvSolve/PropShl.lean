import DvSolve.PropShift

/-! Modular left shift: the `DVS_BIN_LSHIFT` part of `_fire_bvbin_64`. -/
namespace DvSolve
namespace Solver

open DvSolve.Dist (varBMin varBMax)
open BitVec (ofNat)
open Nat (mod_eq_of_lt mod_lt two_pow_pos)

variable {v : Variable} {vars : ℕ → Variable} {s : Engine}

/-- `ModIv`: the residues `start, .., start+span` modulo `2^w`, or every residue. -/
structure ModIv where
  start : ℕ
  span : ℕ
  full : Bool
  deriving DecidableEq

def bvMask (w : ℕ) : ℕ := if w ≥ 64 then 2^64-1 else 2^w-1

def modivFull : ModIv := ⟨0,0,true⟩

def modivOne (x : ℕ) : ModIv := ⟨x,0,false⟩

def modivSingle (x : ModIv) : Bool := !x.full && x.span == 0

def varModiv (v : Variable) (w : ℕ) : ModIv :=
  let span := (varHi64 v-varLo64 v).toNat
  if span ≥ bvMask w then modivFull else ⟨(varLo64 v).toNat &&& bvMask w,span,false⟩

def modivBounds (v : Variable) (w a0 a1 : ℕ) : Option (BitVec 64 × BitVec 64) :=
  if !v.signed then
    let vmax := bvMask v.width
    if vmax < a0 then none
    else some (ofNat 64 a0,ofNat 64 (if a1 < vmax then a1 else vmax))
  else
    let half := 2^(v.width-1)
    let pmax := half-1
    let nmin := (2^64-half) &&& bvMask w
    let Mlow := if w ≥ 64 then 0 else 2^w
    let hasP := decide (a0 ≤ pmax)
    let hasN := decide (nmin ≤ a1)
    if !hasP && !hasN then none
    else some
      (if hasN then ofNat 64 (if nmin < a0 then a0 else nmin)-ofNat 64 Mlow
        else ofNat 64 a0,
      if hasP then ofNat 64 (if a1 < pmax then a1 else pmax)
        else ofNat 64 a1-ofNat 64 Mlow)

def tightenToModiv (id : ℕ) (iv : ModIv) (w : ℕ) (k : Fire) : Fire :=
  if iv.full then k
  else
    let a0 := iv.start
    let a1 := ((iv.start+iv.span)%2^64) &&& bvMask w
    if a1 < a0 then k
    else .read id fun v =>
      if v.width = 0 ∨ w < v.width then k
      else match modivBounds v w a0 a1 with
        | none => .done .conflict
        | some (newLo,newHi) =>
          .between id (varBMax v newLo (varLo64 v)) (varBMin v newHi (varHi64 v)) k

/-- The shifted interval, joined with zero when `hasZero`. -/
def shlHull (x : ModIv) (s0 effHi : ℕ) (hasZero : Bool) (w : ℕ) : ModIv :=
  let mask := bvMask w
  let xlo := x.start
  let xhi := x.start+x.span
  let plo := (xlo <<< s0)%2^64
  let phi := (xhi <<< effHi)%2^64
  let span := (phi+(2^64-plo))%2^64
  if 2^64 ≤ xhi ∨ 64 ≤ effHi ∨ (xhi ≠ 0 ∧ phi >>> effHi ≠ xhi) ∨ (xlo ≠ 0 ∧ plo >>> s0 ≠ xlo) ∨
      mask ≤ span then modivFull
  else
    let sLo := plo &&& mask
    let sHi := ((sLo+span)%2^64) &&& mask
    let zeroIn := if sLo ≤ sHi then decide (sLo = 0) else true
    if hasZero && !zeroIn then modivFull else ⟨sLo,span,false⟩

def modivShl (x : ModIv) (s0 s1 w : ℕ) : ModIv :=
  if w ≤ s0 then modivOne 0
  else if modivSingle x ∧ s0 = s1 then modivOne (((x.start <<< s0)%2^64) &&& bvMask w)
  else if x.full then modivFull
  else shlHull x s0 (if w ≤ s1 then w-1 else s1) (decide (w ≤ s1)) w

def shiftRange (B : ModIv) (w : ℕ) : Option (ℕ × ℕ) :=
  if B.full then some (0,bvMask w)
  else
    let hi := ((B.start+B.span)%2^64) &&& bvMask w
    if hi < B.start then none else some (B.start,hi)

def shiftAmountRange (bv : Variable) (B : ModIv) (w : ℕ) : Option (ℕ × ℕ) :=
  if bv.width ≤ w then shiftRange B w
  else if bv.signed && decide ((varLo64 bv).toInt < 0) then none
  else
    let ulo := (varLo64 bv).toNat
    let uhi := (varHi64 bv).toNat
    some (if w < ulo then w else ulo,if w < uhi then w else uhi)

def anyShift (lo hi : ℕ) (p : ℕ → Bool) : Bool := (List.range (hi+1-lo)).any fun i => p (lo+i)

def shlBack (a : ℕ) (w : ℕ) (range : Option (ℕ × ℕ)) (Rc Ac : ModIv) : Fire :=
  match range with
  | none => .done .ok
  | some (s0,s1) =>
    let hiS := if w-1 < s1 then w-1 else s1
    let rr := Rc.start
    if modivSingle Rc ∧ modivSingle Ac then
      if (w ≤ s1 ∧ rr = 0) ∨
          anyShift s0 hiS (fun n => ((Ac.start <<< n)%2^64) &&& bvMask w == rr) then .done .ok
      else .done .conflict
    else if modivSingle Rc then
      if (w ≤ s1 ∧ rr = 0) ∨ anyShift s0 hiS (fun n => rr &&& (if n = 0 then 0 else 2^n-1) == 0) then
        if s0 = s1 ∧ s0 = 0 then tightenToModiv a (modivOne rr) w <| .done .ok else .done .ok
      else .done .conflict
    else .done .ok

def fireBvshl64 (w r a b : ℕ) : Fire :=
  if w = 0 ∨ 64 < w then .done .ok
  else .read a fun va => .read b fun vb =>
    let A := varModiv va w
    let B := varModiv vb w
    let back : Fire := .read r fun vr => .read a fun va => .read b fun vb =>
      shlBack a w (shiftAmountRange vb B w) (varModiv vr w) (varModiv va w)
    match shiftAmountRange vb B w with
    | some (s0,s1) => tightenToModiv r (modivShl A s0 s1 w) w back
    | none => back

def ModIv.Mem (w : ℕ) (x : ModIv) (z : ℕ) : Prop :=
  x.full = true ∨ ∃ i ≤ x.span, z = (x.start+i)%2^w

/-- The residues of an interval that is not full start and are counted below `2^w`. -/
def ModIv.Fits (w : ℕ) (x : ModIv) : Prop := x.full = false → x.start < 2^w ∧ x.span < 2^w

section Residues

variable {w : ℕ} {x : ℤ}

theorem bvMask_eq (hw : w ≤ 64) : bvMask w = 2^w-1 := by
  unfold bvMask
  split_ifs with h
  · obtain rfl : w = 64 := by omega
    rfl
  · rfl

theorem and_bvMask (hw : w ≤ 64) (n : ℕ) : n &&& bvMask w = n%2^w := by
  rw [bvMask_eq hw,Nat.and_two_pow_sub_one_eq_mod]

theorem mod_and_bvMask (hw : w ≤ 64) (n : ℕ) : n%2^64 &&& bvMask w = n%2^w := by
  rw [and_bvMask hw,Nat.mod_mod_of_dvd _ (pow_dvd_pow 2 hw)]

def residue (w : ℕ) (x : ℤ) : ℕ := (x%2^w).toNat

theorem residue_cast (w : ℕ) (x : ℤ) : (residue w x : ℤ) = x%2^w :=
  Int.toNat_of_nonneg (Int.emod_nonneg _ (by positivity))

theorem residue_lt (w : ℕ) (x : ℤ) : residue w x < 2^w := by
  have h1 := residue_cast w x
  have h3 : ((2^w : ℕ) : ℤ) = 2^w := by push_cast; rfl
  omega

theorem residue_varOrd (hw : w ≤ 64) (v : Variable) (b : BitVec 64) :
    residue w (varOrd v b) = b.toNat%2^w := by
  have hdvd : (2 : ℤ)^w ∣ 2^64 := pow_dvd_pow 2 hw
  have h1 : varOrd v b = b.toNat ∨ varOrd v b = b.toNat-2^64 := by
    unfold varOrd
    rw [BitVec.toInt_eq_toNat_cond]
    split_ifs <;> simp
  have h2 : varOrd v b%2^w = (b.toNat : ℤ)%2^w := by
    rcases h1 with h | h
    · rw [h]
    · rw [h,Int.sub_emod,Int.emod_eq_zero_of_dvd hdvd,sub_zero,Int.emod_emod]
  have h3 := residue_cast w (varOrd v b)
  rw [h2] at h3
  exact_mod_cast h3

theorem varModiv_fits (hw : w ≤ 64) (v : Variable) : (varModiv v w).Fits w := by
  unfold varModiv
  dsimp only
  split_ifs with h
  · intro hf
    simp [modivFull] at hf
  · intro _
    rw [bvMask_eq hw] at h
    refine ⟨?_,by dsimp only; omega⟩
    rw [and_bvMask hw]
    exact mod_lt _ (two_pow_pos w)

theorem span_eq (hle : v.least ≤ v.most) :
    ((varHi64 v-varLo64 v).toNat : ℤ) = v.most-v.least := by
  unfold Variable.least Variable.most at *
  rw [BitVec.toNat_sub]
  unfold varOrd at *
  split_ifs at *
  · omega
  · simp only [BitVec.toInt_eq_toNat_cond] at *
    split_ifs at * <;> omega

theorem residue_add (w : ℕ) (x : ℤ) (i : ℕ) : (residue w x+i)%2^w = residue w (x+i) := by
  have h1 := residue_cast w x
  have h2 := residue_cast w (x+i)
  rw [Int.add_emod,← h1] at h2
  have h3 : (((residue w x+i)%2^w : ℕ) : ℤ) = ((residue w x : ℤ)+(i : ℤ)%2^w)%2^w := by
    push_cast
    rw [Int.add_emod_emod]
  exact_mod_cast h3.trans h2.symm

theorem varModiv_mem (hw : w ≤ 64) (h1 : v.least ≤ x) (h2 : x ≤ v.most) :
    (varModiv v w).Mem w (residue w x) := by
  have hspan := span_eq (h1.trans h2)
  unfold varModiv
  dsimp only
  split_ifs with h
  · exact .inl rfl
  · refine .inr ⟨(x-v.least).toNat,by dsimp only; omega,?_⟩
    rw [and_bvMask hw,← residue_varOrd hw v]
    change _ = (residue w v.least+_)%2^w
    rw [residue_add]
    congr 1
    omega

/-- The interval of a variable with one value, for a modulus of one bit at least. -/
theorem varModiv_pinned (hw : w ≤ 64) (hpos : 0 < w) (h1 : v.least = x) (h2 : v.most = x) :
    varModiv v w = ⟨residue w x,0,false⟩ := by
  have hspan := span_eq (v:=v) (by omega)
  have hfix : (varHi64 v-varLo64 v).toNat = 0 := by omega
  have h2w : 2^1 ≤ 2^w := Nat.pow_le_pow_right (by decide) hpos
  unfold varModiv
  rw [hfix,if_neg (by rw [bvMask_eq hw]; omega),and_bvMask hw,← residue_varOrd hw v,← h1]
  rfl

theorem ModIv.Mem.single {iv : ModIv} {z : ℕ} (h : iv.Mem w z) (hs : modivSingle iv = true)
    (hf : iv.Fits w) : z = iv.start := by
  simp only [modivSingle,Bool.and_eq_true,Bool.not_eq_true',beq_iff_eq] at hs
  rcases h with h | ⟨i,hi,rfl⟩
  · simp [h] at hs
  · rw [hs.2] at hi
    obtain rfl : i = 0 := by omega
    exact mod_eq_of_lt (hf hs.1).1

end Residues

section Confine

variable {w id : ℕ} {σ : ℕ → ℤ} {W : List ℕ} {vars₀ : ℕ → Variable} {iv : ModIv}
  {Q : PropResult → (ℕ → Variable) → Prop} {k : Fire}

theorem residue_of_nonneg {x : ℤ} (h : 0 ≤ x) (hlt : x < 2^w) : (residue w x : ℤ) = x := by
  rw [residue_cast,Int.emod_eq_of_lt h hlt]

theorem residue_of_neg {x : ℤ} (h : x < 0) (hge : -2^w ≤ x) : (residue w x : ℤ) = x+2^w := by
  rw [residue_cast,← Int.add_emod_right,Int.emod_eq_of_lt (by omega) (by omega)]

theorem nmin_eq (hw : w ≤ 64) {H : ℕ} (h0 : 0 < H) (hH : H ≤ 2^w) :
    (2^64-H) &&& bvMask w = 2^w-H := by
  obtain ⟨c,hc⟩ := pow_dvd_pow 2 hw
  have hsplit : 2^64-H = 2^w*(c-1)+(2^w-H) := by
    rw [Nat.mul_sub,← hc]
    have := Nat.le_of_dvd (by decide) (pow_dvd_pow 2 hw)
    omega
  rw [and_bvMask hw,hsplit,Nat.mul_add_mod,mod_eq_of_lt (by omega)]

theorem ofNat_sub_Mlow (hw : w ≤ 64) (n : ℕ) :
    ofNat 64 n-ofNat 64 (if w ≥ 64 then 0 else 2^w) = BitVec.ofInt 64 (n-2^w) := by
  rw [← BitVec.ofInt_natCast,← BitVec.ofInt_natCast]
  apply BitVec.eq_of_toInt_eq
  rw [BitVec.toInt_sub,BitVec.toInt_ofInt,BitVec.toInt_ofInt,BitVec.toInt_ofInt,
    Int.sub_bmod_bmod,Int.bmod_sub_bmod]
  split_ifs with h
  · obtain rfl : w = 64 := by omega
    have := Int.sub_mul_bmod_self_left (n : ℤ) (2^64) 1
    exact this.symm
  · push_cast
    rfl

theorem modivBounds_spec {x : ℤ} {a0 a1 : ℕ} (hv : v.Ok) (hw : w ≤ 64) (hvw : v.width ≤ w)
    (h1 : v.bot ≤ x) (h2 : x ≤ v.top) (h3 : a0 ≤ residue w x) (h4 : residue w x ≤ a1)
    (h5 : a1 < 2^w) : ∃ lo hi, modivBounds v w a0 a1 = some (lo,hi) ∧ varOrd v lo ≤ x ∧
      x ≤ varOrd v hi := by
  have hpos := hv.pos
  have hword : ∀ y : ℤ, v.bot ≤ y → y ≤ v.top → varOrd v (BitVec.ofInt 64 y) = y :=
    fun y g1 g2 => hv.varOrd_ofInt g1 g2
  have hnat : ∀ n : ℕ, v.bot ≤ n → (n : ℤ) ≤ v.top → varOrd v (ofNat 64 n) = n :=
    fun n g1 g2 => by rw [← BitVec.ofInt_natCast]; exact hword n g1 g2
  have hpw : ((2^w : ℕ) : ℤ) = 2^w := by push_cast; rfl
  have hpv : (2 : ℕ)^v.width ≤ 2^w := Nat.pow_le_pow_right (by decide) hvw
  have hpvc : ((2^v.width : ℕ) : ℤ) = 2^v.width := by push_cast; rfl
  unfold modivBounds
  cases hs : v.signed
  · simp only [Variable.bot,Variable.top,hs,Bool.false_eq_true,if_false] at h1 h2 hnat
    have hr := residue_of_nonneg (w:=w) h1 (by omega)
    simp only [Bool.not_false,if_true]
    rw [bvMask_eq hv.le,if_neg (by omega)]
    refine ⟨_,_,rfl,?_,?_⟩
    · rw [hnat a0 (by omega) (by omega)]
      omega
    · rw [hnat _ (by omega) (by split_ifs <;> omega)]
      split_ifs <;> omega
  · simp only [Variable.bot,Variable.top,hs,if_true] at h1 h2 hnat hword
    simp only [Bool.not_true,Bool.false_eq_true,if_false]
    have hH : 2*2^(v.width-1) = 2^v.width := by
      rw [← pow_succ']
      congr 1
      omega
    have hHc : ((2^(v.width-1) : ℕ) : ℤ) = 2^(v.width-1) := by push_cast; rfl
    have hH0 := two_pow_pos (v.width-1)
    rw [nmin_eq hw hH0 (by omega),ofNat_sub_Mlow hw,ofNat_sub_Mlow hw]
    generalize 2^(v.width-1) = H at *
    rw [← hHc] at h1 h2 hnat hword
    rw [show (if 2^w-H < a0 then a0 else 2^w-H) = max a0 (2^w-H) by split_ifs <;> omega,
      show (if a1 < H-1 then a1 else H-1) = min a1 (H-1) by split_ifs <;> omega]
    by_cases hx : 0 ≤ x
    · have hr := residue_of_nonneg (w:=w) hx (by omega)
      have hP : a0 ≤ H-1 := by omega
      rw [decide_eq_true hP]
      simp only [Bool.not_true,Bool.false_and,Bool.false_eq_true,if_false,if_true,decide_eq_true_eq]
      refine ⟨_,_,rfl,?_,?_⟩
      · split_ifs with hN
        · rw [hword _ (by omega) (by omega)]
          omega
        · rw [hnat _ (by omega) (by omega)]
          omega
      · rw [hnat _ (by omega) (by omega)]
        omega
    · have hr := residue_of_neg (w:=w) (not_le.mp hx) (by omega)
      have hN : 2^w-H ≤ a1 := by omega
      rw [decide_eq_true hN]
      simp only [Bool.not_true,Bool.and_false,Bool.false_eq_true,if_false,if_true,decide_eq_true_eq]
      refine ⟨_,_,rfl,?_,?_⟩
      · rw [hword _ (by omega) (by omega)]
        omega
      · split_ifs with hP
        · rw [hnat _ (by omega) (by omega)]
          omega
        · rw [hword _ (by omega) (by omega)]
          omega

/-- The least and the greatest residue of an interval that does not wrap. -/
theorem ModIv.Mem.between {z : ℕ} (h : iv.Mem w z) (hw : w ≤ 64) (hf : iv.Fits w)
    (hfull : iv.full = false) (hwrap : ¬((iv.start+iv.span)%2^64) &&& bvMask w < iv.start) :
    iv.start ≤ z ∧ z ≤ ((iv.start+iv.span)%2^64) &&& bvMask w ∧
      ((iv.start+iv.span)%2^64) &&& bvMask w < 2^w := by
  obtain ⟨h1,h2⟩ := hf hfull
  rw [mod_and_bvMask hw] at hwrap ⊢
  have hmod : (iv.start+iv.span)%2^w = iv.start+iv.span := by
    refine mod_eq_of_lt ?_
    by_contra hge
    rw [Nat.mod_eq_sub_mod (by omega),mod_eq_of_lt (by omega)] at hwrap
    omega
  rw [hmod] at hwrap ⊢
  rcases h with h | ⟨i,hi,rfl⟩
  · rw [h] at hfull
    cases hfull
  · rw [mod_eq_of_lt (by omega)]
    omega

theorem tightenToModiv_wp (ht : Typed W vars₀ vars) (hσ : Inside W vars σ) (hid : id ∈ W)
    (hw : w ≤ 64) (hf : iv.Fits w) (hm : iv.Mem w (residue w (σ id)))
    (hk : ∀ vars', Typed W vars₀ vars' → Inside W vars' σ → k.wp Q vars') :
    (tightenToModiv id iv w k).wp Q vars := by
  have hgo := hk vars ht hσ
  unfold tightenToModiv
  dsimp only
  split_ifs with hfull hwrap
  · exact hgo
  · exact hgo
  · simp only [Fire.wp]
    split_ifs with hwid
    · exact hgo
    · have hl := hσ.least id hid
      have hm' := hσ.most id hid
      have hok := ht.ok id hid
      obtain ⟨h3,h4,h5⟩ := hm.between hw hf (by simpa using hfull) hwrap
      obtain ⟨lo,hi,heq,h6,h7⟩ := modivBounds_spec hok hw (by omega) (hok.inType hl hm').1
        (hok.inType hl hm').2 h3 h4 h5
      rw [heq]
      have hord := (ht.same id).varOrd
      refine Fire.wp_between ht hσ hid ?_ ?_ hk
      · rw [← hord,varOrd_bMax]
        exact max_le h6 hl
      · rw [← hord,varOrd_bMin]
        exact le_min h7 hm'

theorem tightenToModiv_pinned (ht : Typed W vars₀ vars) (hp : Pinned W vars σ) (hid : id ∈ W)
    (hQ : ∀ vars', Q .conflict vars')
    (hk : ∀ vars', Typed W vars₀ vars' → Pinned W vars' σ → k.wp Q vars') :
    (tightenToModiv id iv w k).wp Q vars := by
  have hgo := hk vars ht hp
  unfold tightenToModiv
  dsimp only
  split_ifs with hfull hwrap
  · exact hgo
  · exact hgo
  · simp only [Fire.wp]
    split_ifs with hwid
    · exact hgo
    · split
      · exact hQ _
      · exact Fire.wp_between_pinned ht hp hid hQ fun _ _ => hk

end Confine

section ShiftedResidues

variable {w n s0 s1 : ℕ} {x : ModIv} {X : ℕ}

def shlResidue (w X n : ℕ) : ℕ := if w ≤ n then 0 else X*2^n%2^w

def Amount (s0 s1 w n : ℕ) : Prop := s0 ≤ n ∧ min n w ≤ s1

theorem shlResidue_of_lt (h : n < w) (X : ℕ) : shlResidue w X n = X*2^n%2^w := if_neg (not_le.mpr h)

theorem modivOne_fits {z : ℕ} (h : z < 2^w) : (modivOne z).Fits w := fun _ =>
  ⟨h,two_pow_pos w⟩

theorem modivOne_mem {z : ℕ} (h : z < 2^w) : (modivOne z).Mem w z :=
  .inr ⟨0,le_refl _,(mod_eq_of_lt h).symm⟩

theorem modivFull_fits : modivFull.Fits w := fun h => by simp [modivFull] at h

theorem shift_back {y k : ℕ} (h : y ≠ 0 → ((y <<< k)%2^64) >>> k = y) : (y <<< k)%2^64 = y*2^k := by
  rw [Nat.shiftLeft_eq] at h ⊢
  rw [Nat.shiftRight_eq_div_pow] at h
  by_cases h0 : y = 0
  · simp [h0]
  · have h1 := h h0
    have h2 : y*2^k ≤ (y*2^k)%2^64 := by
      calc y*2^k = ((y*2^k)%2^64/2^k)*2^k := by rw [h1]
        _ ≤ (y*2^k)%2^64 := Nat.div_mul_le_self _ _
    exact le_antisymm (Nat.mod_le _ _) h2

theorem shlHull_spec {e : ℕ} {z : Bool} (hw : w ≤ 64) (hfull : x.full = false)
    (hX : x.Mem w X) (hse : s0 ≤ e) (hn : (s0 ≤ n ∧ n ≤ e ∧ n < w) ∨ (w ≤ n ∧ z = true)) :
    (shlHull x s0 e z w).Fits w ∧ (shlHull x s0 e z w).Mem w (shlResidue w X n) := by
  have hp := two_pow_pos w
  unfold shlHull
  dsimp only
  by_cases hbad : 2^64 ≤ x.start+x.span ∨ 64 ≤ e ∨
      (x.start+x.span ≠ 0 ∧ (((x.start+x.span) <<< e)%2^64) >>> e ≠ x.start+x.span) ∨
      (x.start ≠ 0 ∧ ((x.start <<< s0)%2^64) >>> s0 ≠ x.start) ∨
      bvMask w ≤ (((x.start+x.span) <<< e)%2^64+(2^64-(x.start <<< s0)%2^64))%2^64
  · rw [if_pos hbad]
    exact ⟨modivFull_fits,.inl rfl⟩
  rw [if_neg hbad]
  push Not at hbad
  obtain ⟨h1,h2,h3,h4,h5⟩ := hbad
  have hphi := shift_back h3
  have hplo := shift_back h4
  have hphi64 := mod_lt ((x.start+x.span) <<< e) (show 0 < 2^64 by decide)
  rw [hphi,hplo] at h5 ⊢
  rw [hphi] at hphi64
  have hmono : x.start*2^s0 ≤ (x.start+x.span)*2^e :=
    Nat.mul_le_mul (Nat.le_add_right _ _) (Nat.pow_le_pow_right (by decide) hse)
  have hspan : ((x.start+x.span)*2^e+(2^64-x.start*2^s0))%2^64
      = (x.start+x.span)*2^e-x.start*2^s0 := by omega
  rw [hspan] at h5 ⊢
  rw [bvMask_eq hw] at h5
  rw [and_bvMask hw,mod_and_bvMask hw]
  generalize hlo : x.start*2^s0 = plo at *
  generalize hhi : (x.start+x.span)*2^e = phi at *
  have hmod := mod_lt plo hp
  generalize hzi : (if plo%2^w ≤ (plo%2^w+(phi-plo))%2^w then decide (plo%2^w = 0) else true) = zi
  split_ifs with hzero
  · exact ⟨modivFull_fits,.inl rfl⟩
  · refine ⟨fun _ => ⟨hmod,by dsimp only; omega⟩,.inr ?_⟩
    dsimp only
    rcases hn with ⟨hn0,hne,hnw⟩ | ⟨hnw,rfl⟩
    · rcases hX with h | ⟨i,hi,rfl⟩
      · rw [h] at hfull
        cases hfull
      -- the shifted number lies between the shifted ends
      have g1 : plo ≤ (x.start+i)*2^n := by
        rw [← hlo]
        exact Nat.mul_le_mul (Nat.le_add_right _ _) (Nat.pow_le_pow_right (by decide) hn0)
      have g2 : (x.start+i)*2^n ≤ phi := by
        rw [← hhi]
        exact Nat.mul_le_mul (by omega) (Nat.pow_le_pow_right (by decide) hne)
      refine ⟨(x.start+i)*2^n-plo,by omega,?_⟩
      rw [shlResidue_of_lt hnw,Nat.mod_mul_mod,Nat.mod_add_mod]
      congr 1
      omega
    · rw [shlResidue,if_pos hnw]
      have hin : zi = true := by simpa using hzero
      rw [hin] at hzi
      by_cases hord : plo%2^w ≤ (plo%2^w+(phi-plo))%2^w
      · rw [if_pos hord,decide_eq_true_eq] at hzi
        exact ⟨0,Nat.zero_le _,by rw [hzi]; simp⟩
      · have hwrap : 2^w ≤ plo%2^w+(phi-plo) := by
          by_contra hlt
          rw [mod_eq_of_lt (show plo%2^w+(phi-plo) < 2^w by omega)] at hord
          omega
        exact ⟨2^w-plo%2^w,by omega,by rw [Nat.add_sub_cancel' hmod.le,Nat.mod_self]⟩

/-- The interval of the shifted residues, and of zero when some amount shifts all out. -/
theorem modivShl_spec (hw : w ≤ 64) (hf : x.Fits w) (hX : x.Mem w X) (hn : Amount s0 s1 w n) :
    (modivShl x s0 s1 w).Fits w ∧ (modivShl x s0 s1 w).Mem w (shlResidue w X n) := by
  have hp := two_pow_pos w
  obtain ⟨hn0,hn1⟩ := hn
  unfold modivShl
  by_cases hs0 : w ≤ s0
  · rw [if_pos hs0,shlResidue,if_pos (by omega)]
    exact ⟨modivOne_fits hp,modivOne_mem hp⟩
  rw [if_neg hs0]
  by_cases hone : modivSingle x ∧ s0 = s1
  · obtain rfl : n = s0 := by omega
    rw [if_pos hone,mod_and_bvMask hw,shlResidue_of_lt (by omega),hX.single hone.1 hf,Nat.shiftLeft_eq]
    exact ⟨modivOne_fits (mod_lt _ hp),modivOne_mem (mod_lt _ hp)⟩
  rw [if_neg hone]
  by_cases hfull : x.full = true
  · rw [if_pos hfull]
    exact ⟨modivFull_fits,.inl rfl⟩
  rw [if_neg hfull]
  refine shlHull_spec hw (by simpa using hfull) hX (by split_ifs <;> omega) ?_
  by_cases hnw : w ≤ n
  · exact .inr ⟨hnw,decide_eq_true (by omega)⟩
  · exact .inl ⟨hn0,by split_ifs <;> omega,by omega⟩

end ShiftedResidues

section Amounts

variable {w n s0 s1 : ℕ} {x : ℤ} {v₀ : Variable}

theorem shiftAmountRange_spec (hw : w ≤ 64) (hv : v₀.Ok) (hsame : SameType v₀ v)
    (h0 : 0 ≤ v₀.least) (h1 : v₀.least ≤ x) (h2 : x ≤ v₀.most) (h3 : v.least ≤ x) (h4 : x ≤ v.most)
    (h5 : v₀.least ≤ v.least)
    (h : shiftAmountRange v (varModiv v₀ w) w = some (s0,s1)) : Amount s0 s1 w x.toNat := by
  unfold shiftAmountRange at h
  split_ifs at h with hwid hneg
  · have hpw : (2 : ℤ)^v₀.width ≤ 2^w := pow_le_pow_right₀ (by norm_num) (hsame.width ▸ hwid)
    have hlt : x < 2^w := by
      have htop := h2.trans hv.top
      unfold Variable.top at htop
      have : (2 : ℤ)^(v₀.width-1) ≤ 2^v₀.width := pow_le_pow_right₀ (by norm_num) (Nat.sub_le _ _)
      split_ifs at htop <;> omega
    have hres := residue_of_nonneg (w:=w) (h0.trans h1) hlt
    have hmem := varModiv_mem hw h1 h2
    have hpc : ((2^w : ℕ) : ℤ) = 2^w := by push_cast; rfl
    unfold shiftRange at h
    dsimp only at h
    split_ifs at h with hfull hwrap
    · cases h
      refine ⟨Nat.zero_le _,?_⟩
      rw [bvMask_eq hw]
      omega
    · cases h
      obtain ⟨g1,g2,_⟩ := hmem.between hw (varModiv_fits hw v₀) (by simpa using hfull) hwrap
      exact ⟨by omega,by omega⟩
  · cases h
    have hlo : ((varLo64 v).toNat : ℤ) = v.least := toNat_of_ord (h0.trans h5)
    have hhi : ((varHi64 v).toNat : ℤ) = v.most := toNat_of_ord (by
      have : 0 ≤ v.most := by omega
      exact this)
    constructor <;> split_ifs <;> omega

theorem shiftAmountRange_pinned (hw : w ≤ 64) (hpos : 0 < w) (hv : v₀.Ok) (hsame : SameType v₀ v)
    (h0 : 0 ≤ x) (h1 : v₀.least = x) (h2 : v₀.most = x) (h3 : v.least = x) (h4 : v.most = x) :
    ∃ c, shiftAmountRange v (varModiv v₀ w) w = some (c,c) ∧ min c w = min x.toNat w := by
  unfold shiftAmountRange
  have hlt : v₀.width ≤ w → x < 2^w := fun hwid => by
    have hpw : (2 : ℤ)^v₀.width ≤ 2^w := pow_le_pow_right₀ (by norm_num) hwid
    have htop := h2.ge.trans hv.top
    unfold Variable.top at htop
    have : (2 : ℤ)^(v₀.width-1) ≤ 2^v₀.width := pow_le_pow_right₀ (by norm_num) (Nat.sub_le _ _)
    split_ifs at htop <;> omega
  have hlo : ((varLo64 v).toNat : ℤ) = x := h3 ▸ toNat_of_ord (h3.symm ▸ h0 : 0 ≤ v.least)
  have hhi : ((varHi64 v).toNat : ℤ) = x := h4 ▸ toNat_of_ord (h4.symm ▸ h0 : 0 ≤ v.most)
  by_cases hwid : v.width ≤ w
  · have hres := residue_of_nonneg (w:=w) h0 (hlt (hsame.width ▸ hwid))
    have hmod : residue w x%2^w = residue w x := mod_eq_of_lt (residue_lt w x)
    rw [if_pos hwid,varModiv_pinned hw hpos h1 h2]
    refine ⟨residue w x,?_,by omega⟩
    simp only [shiftRange,Nat.add_zero]
    rw [mod_and_bvMask hw,hmod]
    simp
  · rw [if_neg hwid,if_neg]
    · refine ⟨if w < (varLo64 v).toNat then w else (varLo64 v).toNat,?_,by split_ifs <;> omega⟩
      rw [show (varHi64 v).toNat = (varLo64 v).toNat by omega]
    · rw [Bool.and_eq_true,decide_eq_true_eq]
      rintro ⟨hs,hneg⟩
      have hp : v.least = (varLo64 v).toInt := varOrd_plain (by simp [Variable.beyond,hs]) _
      omega

end Amounts

section Shl

variable {w n r a b : ℕ} {σ : ℕ → ℤ} {W : List ℕ} {vars₀ : ℕ → Variable}
  {range : Option (ℕ × ℕ)} {Rc Ac : ModIv}

/-- `r` is `a` shifted left by `b`, modulo `2^w`, and zero when `b` is the width or more. -/
def ShlRel (w r a b : ℕ) (σ : ℕ → ℤ) : Prop :=
  σ r%2^w = if w ≤ σ b then 0 else σ a*2^(σ b).toNat%2^w

/-- A result of the width, an operand no wider and an amount that is not negative. -/
structure Shifts (w r a b : ℕ) (vars : ℕ → Variable) : Prop where
  ok : ∀ v ∈ [r,a,b], (vars v).Ok
  result : (vars r).width = w
  left : (vars a).width ≤ w
  amount : 0 ≤ (vars b).least

theorem ShlRel.iff (h0 : 0 ≤ σ b) :
    ShlRel w r a b σ ↔ residue w (σ r) = shlResidue w (residue w (σ a)) (σ b).toNat := by
  have hr := residue_cast w (σ r)
  have ha := residue_cast w (σ a)
  have hval : ((shlResidue w (residue w (σ a)) (σ b).toNat : ℕ) : ℤ)
      = if w ≤ σ b then 0 else σ a*2^(σ b).toNat%2^w := by
    unfold shlResidue
    by_cases hw : w ≤ σ b
    · rw [if_pos (by omega),if_pos hw]
      rfl
    · rw [if_neg (by omega),if_neg hw]
      push_cast
      rw [ha,Int.mul_emod (σ a%2^w),Int.emod_emod,← Int.mul_emod]
  rw [ShlRel,← hr,← hval]
  exact Nat.cast_inj

theorem anyShift_iff {lo hi : ℕ} {p : ℕ → Bool} :
    anyShift lo hi p = true ↔ ∃ n, lo ≤ n ∧ n ≤ hi ∧ p n = true := by
  rw [anyShift,List.any_eq_true]
  constructor
  · rintro ⟨i,hi,hp⟩
    rw [List.mem_range] at hi
    exact ⟨lo+i,by omega,by omega,hp⟩
  · rintro ⟨n,h1,h2,hp⟩
    refine ⟨n-lo,List.mem_range.mpr (by omega),?_⟩
    rwa [Nat.add_sub_cancel' h1]

theorem shlBack_wp (ht : Typed W vars₀ vars) (hσ : Inside W vars σ) (ha : a ∈ W) (hw : w ≤ 64)
    (hpos : 0 < w) (hrange : ∀ s0 s1, range = some (s0,s1) → Amount s0 s1 w n)
    (hRm : Rc.Mem w (residue w (σ r))) (hRf : Rc.Fits w) (hAm : Ac.Mem w (residue w (σ a)))
    (hAf : Ac.Fits w) (hR : residue w (σ r) = shlResidue w (residue w (σ a)) n) :
    (shlBack a w range Rc Ac).wp (Retained W vars₀ σ) vars := by
  have hdone : (Fire.done .ok).wp (Retained W vars₀ σ) vars := ⟨rfl,ht,hσ⟩
  unfold shlBack
  split
  · exact hdone
  · rename_i s0 s1
    obtain ⟨h1,h2⟩ := hrange s0 s1 rfl
    by_cases hRs : modivSingle Rc = true
    · have hrr := hRm.single hRs hRf
      -- the amount of the solution is among those scanned
      have hscan : ∀ p : ℕ → Bool, (n < w → p n = true) → (w ≤ s1 ∧ Rc.start = 0) ∨
          anyShift s0 (if w-1 < s1 then w-1 else s1) p = true := fun p hp => by
        by_cases hnw : w ≤ n
        · refine .inl ⟨by omega,?_⟩
          rw [← hrr,hR,shlResidue,if_pos hnw]
        · exact .inr (anyShift_iff.mpr ⟨n,h1,by split_ifs <;> omega,hp (by omega)⟩)
      by_cases hAs : modivSingle Ac = true
      · rw [if_pos ⟨hRs,hAs⟩,if_pos (hscan _ fun hnw => ?_)]
        · exact hdone
        · rw [beq_iff_eq,mod_and_bvMask hw,← hAm.single hAs hAf,Nat.shiftLeft_eq,← hrr,hR,
            shlResidue_of_lt hnw]
      · rw [if_neg (by simp [hAs]),if_pos hRs,if_pos (hscan _ fun hnw => ?_)]
        · split_ifs with hzero
          · obtain rfl : n = 0 := by omega
            rw [shlResidue_of_lt hpos,pow_zero,Nat.mul_one,mod_eq_of_lt (residue_lt w (σ a))] at hR
            rw [← hrr,hR]
            exact tightenToModiv_wp ht hσ ha hw (modivOne_fits (residue_lt w _))
              (modivOne_mem (residue_lt w _)) fun _ ht hσ => ⟨rfl,ht,hσ⟩
          · exact hdone
        · rw [beq_iff_eq,show (if n = 0 then 0 else 2^n-1) = 2^n-1 by split_ifs with h <;> simp [h],
            Nat.and_two_pow_sub_one_eq_mod,← hrr,hR,shlResidue_of_lt hnw,
            Nat.mod_mod_of_dvd _ (pow_dvd_pow 2 hnw.le),Nat.mul_mod_left]
    · rw [if_neg (by simp [hRs]),if_neg hRs]
      exact hdone

theorem shlBack_refutes {c X R : ℕ} (hw : w ≤ 64) (hpos : 0 < w) (hc : min c w = min n w)
    (hR : R ≠ shlResidue w X n) :
    (shlBack a w (some (c,c)) ⟨R,0,false⟩ ⟨X,0,false⟩).wp (fun res _ => res = .conflict) vars := by
  unfold shlBack
  dsimp only
  rw [if_pos (by simp [modivSingle]),if_neg]
  · rfl
  rintro (⟨h1,h2⟩ | h)
  · refine hR ?_
    rw [shlResidue,if_pos (by omega)]
    exact h2
  · obtain ⟨m,h1,h2,h3⟩ := anyShift_iff.mp h
    rw [beq_iff_eq,mod_and_bvMask hw,Nat.shiftLeft_eq] at h3
    obtain rfl : m = n := by split_ifs at h2 <;> omega
    refine hR ?_
    rw [shlResidue_of_lt (by split_ifs at h2 <;> omega)]
    exact h3.symm

theorem fireBvshl64_keeps (h : Shifts w r a b s.ctx.vars) (hσ : Inside [r,a,b] s.ctx.vars σ)
    (hR : ShlRel w r a b σ) :
    (fireBvshl64 w r a b).wp (Retained [r,a,b] s.ctx.vars σ) s.ctx.vars := by
  have hT : Typed [r,a,b] s.ctx.vars s.ctx.vars := .refl h.ok
  have hpos : 0 < w := h.result ▸ (h.ok r (by simp)).pos
  have hw : w ≤ 64 := h.result ▸ (h.ok r (by simp)).le
  have hb := hσ.least b (by simp)
  have hb' := hσ.most b (by simp)
  rw [ShlRel.iff (h.amount.trans hb)] at hR
  have hA := varModiv_mem hw (hσ.least a (by simp)) (hσ.most a (by simp))
  have hrange : ∀ vars', Typed [r,a,b] s.ctx.vars vars' → Inside [r,a,b] vars' σ → ∀ s0 s1,
      shiftAmountRange (vars' b) (varModiv (s.ctx.vars b) w) w = some (s0,s1) →
        Amount s0 s1 w (σ b).toNat := fun vars' ht hσ s0 s1 =>
    shiftAmountRange_spec hw (h.ok b (by simp)) (ht.same b) h.amount hb hb' (hσ.least b (by simp))
      (hσ.most b (by simp)) (ht.least b)
  have hback : ∀ vars', Typed [r,a,b] s.ctx.vars vars' → Inside [r,a,b] vars' σ →
      (shlBack a w (shiftAmountRange (vars' b) (varModiv (s.ctx.vars b) w) w)
        (varModiv (vars' r) w) (varModiv (vars' a) w)).wp (Retained [r,a,b] s.ctx.vars σ) vars' :=
    fun vars' ht hσ => shlBack_wp ht hσ (by simp) hw hpos (hrange vars' ht hσ)
      (varModiv_mem hw (hσ.least r (by simp)) (hσ.most r (by simp))) (varModiv_fits hw _)
      (varModiv_mem hw (hσ.least a (by simp)) (hσ.most a (by simp))) (varModiv_fits hw _) hR
  unfold fireBvshl64
  rw [if_neg (by omega)]
  simp only [Fire.wp]
  split
  · rename_i s0 s1 heq
    obtain ⟨h1,h2⟩ := modivShl_spec hw (varModiv_fits hw _) hA (hrange _ hT hσ s0 s1 heq)
    exact tightenToModiv_wp hT hσ (by simp) hw h1 (hR ▸ h2) hback
  · exact hback _ hT hσ

theorem fireBvshl64_refutes (h : Shifts w r a b s.ctx.vars) (hp : Pinned [r,a,b] s.ctx.vars σ)
    (hR : ¬ShlRel w r a b σ) :
    (fireBvshl64 w r a b).wp (fun res _ => res = .conflict) s.ctx.vars := by
  have hT : Typed [r,a,b] s.ctx.vars s.ctx.vars := .refl h.ok
  have hpos : 0 < w := h.result ▸ (h.ok r (by simp)).pos
  have hw : w ≤ 64 := h.result ▸ (h.ok r (by simp)).le
  have hb0 : 0 ≤ σ b := (hp.least b (by simp)) ▸ h.amount
  rw [ShlRel.iff hb0] at hR
  have hrange : ∀ vars', Typed [r,a,b] s.ctx.vars vars' → Pinned [r,a,b] vars' σ →
      ∃ c, shiftAmountRange (vars' b) (varModiv (s.ctx.vars b) w) w = some (c,c) ∧
        min c w = min (σ b).toNat w := fun vars' ht hp' =>
    shiftAmountRange_pinned hw hpos (h.ok b (by simp)) (ht.same b) hb0 (hp.least b (by simp))
      (hp.most b (by simp)) (hp'.least b (by simp)) (hp'.most b (by simp))
  obtain ⟨c,hc,_⟩ := hrange _ hT hp
  unfold fireBvshl64
  rw [if_neg (by omega)]
  simp only [Fire.wp]
  rw [hc]
  refine tightenToModiv_pinned hT hp (by simp) (fun _ => rfl) fun vars' ht hp' => ?_
  obtain ⟨c',hc',hmin⟩ := hrange vars' ht hp'
  simp only [Fire.wp]
  rw [hc',varModiv_pinned hw hpos (hp'.least r (by simp)) (hp'.most r (by simp)),
    varModiv_pinned hw hpos (hp'.least a (by simp)) (hp'.most a (by simp))]
  exact shlBack_refutes hw hpos hmin hR

/-- The modular left shift propagates its relation, whatever the width of the amount. -/
theorem fireBvshl64_propagates (h : Shifts w r a b s.ctx.vars) :
    Propagates [r,a,b] (ShlRel w r a b) (fireBvshl64 w r a b) s := by
  refine .of_wp (fun σ hσ hR => ?_) fun σ hp hR => ?_
  · exact Fire.wp_mono (fun _ _ => Retained.keeps) (fireBvshl64_keeps h hσ hR)
  · exact fireBvshl64_refutes h hp hR

/-- An amount of 16 shifts everything out of four bits. -/
theorem fireBvshl64_propagates_nibble :
    Propagates [0,1,2] (ShlRel 4 0 1 2) (fireBvshl64 4 0 1 2)
      (holding fun v => if v = 2 then wideVar 16#64 16#64 8 false else wideVar 1#64 5#64 4 false) :=
  fireBvshl64_propagates ⟨fun v hv => by
      simp only [List.mem_cons,List.not_mem_nil,or_false] at hv
      rcases hv with rfl | rfl | rfl <;>
        exact wideVar_ok (by decide) (by decide) (by decide) (by decide),rfl,by decide,by decide⟩

end Shl

end Solver
end DvSolve
