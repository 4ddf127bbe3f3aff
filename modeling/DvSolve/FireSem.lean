import DvSolve.Dist
import DvSolve.LcgSem
import DvSolve.PropagateSem

/-! What the fire of a propagator does to the domains it reads.
A domain is the interval of the numbers between its bounds; a tightening leaves it alone,
moves one end, or empties it. A fire is judged by what holds after each of its
tightenings, whatever else the propagation queued. -/
namespace DvSolve
namespace Solver

open Function
open BitVec (toInt_eq_toNat_cond toInt_sub)
open Bool (false_eq_true)
open Int (bmod_eq_of_le)

variable {v : Variable} {vars vars' : ℕ → Variable} {s : Engine} {c : Ctx}
variable {v' : Variable} {g : Fire} {lo hi : BitVec 64} {p : Prop}
variable {R : (ℕ → ℤ) → Prop}

def Variable.least (v : Variable) : ℤ := varOrd v (varLo64 v)

def Variable.most (v : Variable) : ℤ := varOrd v (varHi64 v)

/-- Whether bounds are ordered as unsigned patterns. -/
def Variable.beyond (v : Variable) : Bool := !v.signed && v.width ≥ 64

theorem varOrd_beyond (h : v.beyond = true) (x : BitVec 64) : varOrd v x = x.toNat := by
  unfold varOrd
  exact if_pos h

theorem varOrd_plain (h : v.beyond = false) (x : BitVec 64) : varOrd v x = x.toInt := by
  unfold varOrd
  exact if_neg (by rw [← Bool.not_eq_true] at h; exact h)

theorem varBGt_iff (v : Variable) (a b : BitVec 64) :
    varBGt v a b = true ↔ varOrd v b < varOrd v a := varBLt_iff v b a

theorem varOrd_bMax (v : Variable) (a b : BitVec 64) :
    varOrd v (Dist.varBMax v a b) = max (varOrd v a) (varOrd v b) := by
  unfold Dist.varBMax
  split_ifs with h
  · rw [max_eq_right ((varBLt_iff v a b).mp h).le]
  · rw [max_eq_left (not_lt.mp (mt (varBLt_iff v a b).mpr h))]

theorem varOrd_bMin (v : Variable) (a b : BitVec 64) :
    varOrd v (Dist.varBMin v a b) = min (varOrd v a) (varOrd v b) := by
  unfold Dist.varBMin
  split_ifs with h
  · rw [min_eq_left ((varBLt_iff v a b).mp h).le]
  · rw [min_eq_right (not_lt.mp (mt (varBLt_iff v a b).mpr h))]

theorem varOrd_inj {a b : BitVec 64} (h : varOrd v a = varOrd v b) : a = b := by
  unfold varOrd at h
  split_ifs at h
  · exact BitVec.eq_of_toNat_eq (by exact_mod_cast h)
  · exact BitVec.eq_of_toInt_eq h

def Variable.bot (v : Variable) : ℤ := if v.signed then -2^(v.width-1) else 0

def Variable.top (v : Variable) : ℤ := if v.signed then 2^(v.width-1)-1 else 2^v.width-1

/-- A variable as the compiler sets it up: the domain lies within the type, and in the
small tier within 32 bits. -/
structure Variable.Ok (v : Variable) : Prop where
  pos : 0 < v.width
  le : v.width ≤ 64
  tier2 : v.tier2 = false
  narrow : v.tier1 = false → v.width ≤ 32
  plain : v.tier1 = false → v.signed = false → v.lo.msb = false ∧ v.hi.msb = false
  bot : v.bot ≤ v.least
  top : v.most ≤ v.top

theorem Variable.Ok.inType {x : ℤ} (hv : v.Ok) (h1 : v.least ≤ x) (h2 : x ≤ v.most) :
    v.bot ≤ x ∧ x ≤ v.top := ⟨hv.bot.trans h1,h2.trans hv.top⟩

structure SameType (v v' : Variable) : Prop where
  width : v'.width = v.width
  signed : v'.signed = v.signed
  tier1 : v'.tier1 = v.tier1
  tier2 : v'.tier2 = v.tier2

theorem SameType.refl (v : Variable) : SameType v v := ⟨rfl,rfl,rfl,rfl⟩

theorem SameType.trans {v'' : Variable} (h : SameType v v') (h' : SameType v' v'') :
    SameType v v'' :=
  ⟨h'.width.trans h.width,h'.signed.trans h.signed,h'.tier1.trans h.tier1,h'.tier2.trans h.tier2⟩

theorem SameType.beyond (h : SameType v v') : v'.beyond = v.beyond := by
  simp [Variable.beyond,h.signed,h.width]

theorem SameType.bot (h : SameType v v') : v'.bot = v.bot := by
  simp [Variable.bot,h.signed,h.width]

theorem SameType.top (h : SameType v v') : v'.top = v.top := by
  simp [Variable.top,h.signed,h.width]

theorem SameType.varOrd (h : SameType v v') (x : BitVec 64) :
    varOrd v' x = varOrd v x := by
  simp [Solver.varOrd,h.signed,h.width]

theorem toInt_one_shiftLeft {n : ℕ} (hn : n < 63) : (1#64 <<< n).toInt = 2^n := by
  have h1 : 2^n ≤ 2^62 := Nat.pow_le_pow_right (by decide) (by omega)
  have h2 : (1#64 <<< n).toNat = 2^n := by
    rw [BitVec.toNat_shiftLeft,BitVec.toNat_ofNat,Nat.one_mod_two_pow (by decide),Nat.shiftLeft_eq,
      Nat.one_mul,Nat.mod_eq_of_lt (by omega)]
  rw [BitVec.toInt_eq_toNat_of_lt (by omega),h2]
  rfl

theorem varOrd_reprMin (hpos : 0 < v.width) (hle : v.width ≤ 64) :
    varOrd v (varReprMin v) = v.bot := by
  unfold varReprMin Variable.bot
  cases hs : v.signed
  · simp [varOrd]
  · rw [varOrd_plain (by simp [Variable.beyond,hs])]
    simp only [if_true]
    split_ifs with hw
    · have : v.width = 64 := le_antisymm hle hw
      rw [this]
      rfl
    · have hp : (2 : ℤ)^(v.width-1) ≤ 2^62 := pow_le_pow_right₀ (by norm_num) (by omega)
      have h0 : (0 : ℤ) < 2^(v.width-1) := by positivity
      rw [BitVec.toInt_neg,toInt_one_shiftLeft (by omega),bmod_eq_of_le (by omega) (by omega)]

theorem varOrd_reprMax (hpos : 0 < v.width) (hle : v.width ≤ 64) :
    varOrd v (varReprMax v) = v.top := by
  unfold varReprMax Variable.top
  cases hs : v.signed
  · by_cases hw : v.width = 64
    · rw [varOrd_beyond (by simp [Variable.beyond,hs,hw])]
      simp [hw]
    · rw [varOrd_plain (by simp [Variable.beyond,hs]; omega)]
      simp only [false_eq_true,if_false,if_neg hw,if_neg (show ¬v.width > 64 by omega)]
      by_cases h63 : v.width = 63
      · rw [h63]
        rfl
      · have hp : (2 : ℤ)^v.width ≤ 2^62 := pow_le_pow_right₀ (by norm_num) (by omega)
        have h0 : (0 : ℤ) < 2^v.width := by positivity
        rw [toInt_sub,toInt_one_shiftLeft (by omega)]
        exact bmod_eq_of_le (by simp; omega) (by simp; omega)
  · rw [varOrd_plain (by simp [Variable.beyond,hs])]
    simp only [if_true]
    split_ifs with hw
    · have : v.width = 64 := le_antisymm hle hw
      rw [this]
      rfl
    · have hp : (2 : ℤ)^(v.width-1) ≤ 2^62 := pow_le_pow_right₀ (by norm_num) (by omega)
      have h0 : (0 : ℤ) < 2^(v.width-1) := by positivity
      rw [toInt_sub,toInt_one_shiftLeft (by omega)]
      exact bmod_eq_of_le (by simp; omega) (by simp; omega)

theorem Variable.Ok.varOrd_ofInt (hv : v.Ok) {x : ℤ} (hlo : v.bot ≤ x) (hhi : x ≤ v.top) :
    varOrd v (BitVec.ofInt 64 x) = x := by
  have hw := hv.le
  unfold Variable.bot at hlo
  unfold Variable.top at hhi
  cases hb : v.beyond
  · rw [varOrd_plain hb,BitVec.toInt_ofInt]
    cases hs : v.signed
    · simp only [hs,false_eq_true,if_false] at hlo hhi
      have : v.width < 64 := by
        simpa [Variable.beyond,hs] using hb
      have hp : (2 : ℤ)^v.width ≤ 2^63 := pow_le_pow_right₀ (by norm_num) (by omega)
      exact bmod_eq_of_le (by norm_num; omega) (by norm_num; omega)
    · simp only [hs,if_true] at hlo hhi
      have hp : (2 : ℤ)^(v.width-1) ≤ 2^63 := pow_le_pow_right₀ (by norm_num) (by omega)
      exact bmod_eq_of_le (by norm_num; omega) (by norm_num; omega)
  · have hs : v.signed = false := by
      simp [Variable.beyond] at hb
      exact hb.1
    simp only [hs,false_eq_true,if_false] at hlo hhi
    have hp : (2 : ℤ)^v.width ≤ 2^64 := pow_le_pow_right₀ (by norm_num) hw
    rw [varOrd_beyond hb,BitVec.toNat_ofInt]
    have : x % (2^64 : ℕ) = x := Int.emod_eq_of_lt hlo (by push_cast; omega)
    rw [this]
    omega

/-- `_rng64`: the bounds read the same as signed numbers. -/
def rng64 (v : Variable) : Bool :=
  !(v.beyond && (decide ((varLo64 v).toInt < 0) || decide ((varHi64 v).toInt < 0)))

theorem least_of_rng64 (h : rng64 v = true) : v.least = (varLo64 v).toInt := by
  cases hb : v.beyond
  · rw [Variable.least,varOrd_plain hb]
  · simp [rng64,hb] at h
    rw [Variable.least,varOrd_beyond hb]
    rw [toInt_eq_toNat_cond] at h ⊢
    split_ifs at h ⊢ <;> omega

theorem most_of_rng64 (h : rng64 v = true) : v.most = (varHi64 v).toInt := by
  cases hb : v.beyond
  · rw [Variable.most,varOrd_plain hb]
  · simp [rng64,hb] at h
    rw [Variable.most,varOrd_beyond hb]
    have h2 := h.2
    rw [toInt_eq_toNat_cond] at h2 ⊢
    split_ifs at h2 ⊢ <;> omega

theorem varOrd_of_nonneg {b : BitVec 64} (h : v.beyond = true → 0 ≤ b.toInt) :
    varOrd v b = b.toInt := by
  cases hb : v.beyond
  · exact varOrd_plain hb b
  · have := h hb
    rw [varOrd_beyond hb]
    rw [toInt_eq_toNat_cond] at this ⊢
    split_ifs at this ⊢ <;> omega

theorem toInt_ofInt_of {x : ℤ} (h1 : -2^63 ≤ x) (h2 : x < 2^63) : (BitVec.ofInt 64 x).toInt = x := by
  rw [BitVec.toInt_ofInt]
  exact bmod_eq_of_le (by norm_num; omega) (by norm_num; omega)

theorem Variable.Ok.not_beyond (hv : v.Ok) (h : v.tier1 = false) : v.beyond = false := by
  have := hv.narrow h
  simp [Variable.beyond]
  omega

theorem Variable.Ok.tier0 (hv : v.Ok) : v.tier0 = !v.tier1 := by
  simp [Variable.tier0,hv.tier2]

theorem toInt_ext {x : BitVec 32} (signed : Bool) (h : signed = false → x.msb = false) :
    (if signed then x.signExtend 64 else x.setWidth 64).toInt = x.toInt := by
  cases signed
  · rw [if_neg (by simp),← BitVec.signExtend_eq_setWidth_of_msb_false (h rfl)]
    exact BitVec.toInt_signExtend_of_le (by decide)
  · rw [if_pos rfl]
    exact BitVec.toInt_signExtend_of_le (by decide)

theorem setWidth32_toInt {x : BitVec 64} (h1 : -2^31 ≤ x.toInt) (h2 : x.toInt < 2^31) :
    (x.setWidth 32).toInt = x.toInt := by
  rw [BitVec.toInt_setWidth]
  rw [toInt_eq_toNat_cond] at h1 h2 ⊢
  split_ifs at h1 h2 ⊢
  · exact bmod_eq_of_le (by omega) (by norm_num; omega)
  · have h3 : (x.toNat : ℤ) = (x.toNat - 2^64) + (2^32 : ℕ) * 2^32 := by push_cast; ring
    rw [h3,Int.add_mul_bmod_self_left,bmod_eq_of_le (by simp; omega) (by simp; omega)]
    simp

theorem succ32_toInt {b : BitVec 32} (h : b.toInt < 2^31-1) : (b+1#32).toInt = b.toInt+1 := by
  have := BitVec.le_toInt b
  rw [BitVec.toInt_add]
  exact bmod_eq_of_le (by simp; omega) (by simp; omega)

theorem pred32_toInt' {b : BitVec 32} (h : -2^31 < b.toInt) : (b-1#32).toInt = b.toInt-1 := by
  have := BitVec.toInt_lt (x := b)
  rw [toInt_sub]
  exact bmod_eq_of_le (by simp; omega) (by simp; omega)

theorem Variable.Ok.least_eq (hv : v.Ok) (h : v.tier1 = false) : v.least = v.lo.toInt := by
  rw [Variable.least,varOrd_plain (hv.not_beyond h),varLo64,hv.tier0,h]
  exact toInt_ext v.signed fun hs => (hv.plain h hs).1

theorem Variable.Ok.most_eq (hv : v.Ok) (h : v.tier1 = false) : v.most = v.hi.toInt := by
  rw [Variable.most,varOrd_plain (hv.not_beyond h),varHi64,hv.tier0,h]
  exact toInt_ext v.signed fun hs => (hv.plain h hs).2

/-- Patterns of a type of the small tier survive their storage. -/
theorem Variable.Ok.restored (hv : v.Ok) (h : v.tier1 = false) {b : BitVec 64}
    (hlo : v.bot ≤ varOrd v b) (hhi : varOrd v b ≤ v.top) :
    (if v.signed then (b.setWidth 32).signExtend 64 else (b.setWidth 32).setWidth 64) = b := by
  have hw := hv.narrow h
  rw [varOrd_plain (hv.not_beyond h)] at hlo hhi
  unfold Variable.bot at hlo
  unfold Variable.top at hhi
  cases hs : v.signed
  · simp only [hs,false_eq_true,if_false] at hlo hhi ⊢
    have hp : (2 : ℤ)^v.width ≤ 2^32 := pow_le_pow_right₀ (by norm_num) hw
    apply BitVec.eq_of_toNat_eq
    rw [toInt_eq_toNat_cond] at hlo hhi
    simp only [BitVec.toNat_setWidth]
    split_ifs at hlo hhi <;> omega
  · simp only [hs,if_true] at hlo hhi ⊢
    have hp : (2 : ℤ)^(v.width-1) ≤ 2^31 := pow_le_pow_right₀ (by norm_num) (by omega)
    apply BitVec.eq_of_toInt_eq
    rw [BitVec.toInt_signExtend_of_le (by decide),BitVec.toInt_setWidth]
    rw [toInt_eq_toNat_cond] at hlo hhi ⊢
    split_ifs at hlo hhi ⊢
    · exact bmod_eq_of_le (by simp) (by norm_num; omega)
    · have h1 : (b.toNat : ℤ) = (b.toNat - 2^64) + (2^32 : ℕ) * 2^32 := by push_cast; ring
      rw [h1,Int.add_mul_bmod_self_left,bmod_eq_of_le (by simp; omega) (by simp; omega)]
      simp

def Tighten.num (t : Tighten) (v : Variable) (b : BitVec 64) : ℤ :=
  match t with
  | .lb32 | .ub32 => (b.setWidth 32).toInt
  | .lb64 | .ub64 => varOrd v b

def Tighten.Fits (t : Tighten) (v : Variable) : Prop :=
  match t with
  | .lb32 | .ub32 => v.tier1 = false
  | .lb64 | .ub64 => True

def Tighten.least (t : Tighten) (v : Variable) (n : ℤ) : ℤ :=
  if t.isUb then v.least else max v.least n

def Tighten.most (t : Tighten) (v : Variable) (n : ℤ) : ℤ :=
  if t.isUb then min v.most n else v.most

inductive Tightened (t : Tighten) (id : ℕ) (b : BitVec 64) (vars : ℕ → Variable) :
    PropResult → (ℕ → Variable) → Prop
  | ok (v' : Variable) (same : SameType (vars id) v') (ok : v'.Ok)
      (least : v'.least = t.least (vars id) (t.num (vars id) b))
      (most : v'.most = t.most (vars id) (t.num (vars id) b))
      (live : v' = vars id ∨ v'.least ≤ v'.most) :
      Tightened t id b vars .ok (Function.update vars id v')
  | conflict (vars' : ℕ → Variable)
      (out : if t.isUb then t.num (vars id) b < (vars id).least
        else (vars id).most < t.num (vars id) b) :
      Tightened t id b vars .conflict vars'

theorem trailRecord_vars {id : ℕ} (hv : (c.vars id).Ok) (k : TrailKind) (new : BitVec 64) :
    (trailRecord k c id new).vars = Function.update c.vars id (setBound (c.vars id) k new) := by
  unfold trailRecord
  rw [if_pos (by rw [hv.tier0]; cases (c.vars id).tier1 <;> rfl)]
  rfl

theorem setBound_same (v : Variable) (k : TrailKind) (b : BitVec 64) :
    SameType v (setBound v k b) := by
  cases k
  · simp only [setBound]
    split_ifs <;> exact ⟨rfl,rfl,rfl,rfl⟩
  · simp only [setBound]
    split_ifs <;> exact ⟨rfl,rfl,rfl,rfl⟩
  · exact SameType.refl v

section SetBound

variable {b : BitVec 64}

theorem Variable.Ok.setLb_least (hv : v.Ok) (hlo : v.bot ≤ varOrd v b) (hhi : varOrd v b ≤ v.top) :
    (setBound v .lb b).least = varOrd v b := by
  rw [Variable.least,(setBound_same v .lb b).varOrd]
  congr 1
  cases h : v.tier1
  · conv_rhs => rw [← hv.restored h hlo hhi]
    simp [setBound,varLo64,Variable.tier0,hv.tier2,h]
  · simp [setBound,varLo64,Variable.tier0,h]

theorem Variable.Ok.setLb_most (v : Variable) (b : BitVec 64) :
    (setBound v .lb b).most = v.most := by
  rw [Variable.most,(setBound_same v .lb b).varOrd,Variable.most]
  congr 1
  simp only [setBound]
  split_ifs <;> rfl

theorem Variable.Ok.setUb_most (hv : v.Ok) (hlo : v.bot ≤ varOrd v b) (hhi : varOrd v b ≤ v.top) :
    (setBound v .ub b).most = varOrd v b := by
  rw [Variable.most,(setBound_same v .ub b).varOrd]
  congr 1
  cases h : v.tier1
  · conv_rhs => rw [← hv.restored h hlo hhi]
    simp [setBound,varHi64,Variable.tier0,hv.tier2,h]
  · simp [setBound,varHi64,Variable.tier0,h]

theorem Variable.Ok.setUb_least (v : Variable) (b : BitVec 64) :
    (setBound v .ub b).least = v.least := by
  rw [Variable.least,(setBound_same v .ub b).varOrd,Variable.least]
  congr 1
  simp only [setBound]
  split_ifs <;> rfl

/-- A bound of the small tier between its ends is not negative when the type is unsigned. -/
theorem Variable.Ok.plain_between (hv : v.Ok) (h : v.tier1 = false) (hs : v.signed = false)
    (h1 : v.least ≤ varOrd v b) (h2 : varOrd v b ≤ v.most) : (b.setWidth 32).msb = false := by
  have hlo := BitVec.msb_eq_false_iff_two_mul_lt.mp (hv.plain h hs).1
  rw [hv.least_eq h,varOrd_plain (hv.not_beyond h)] at h1
  rw [hv.most_eq h,varOrd_plain (hv.not_beyond h)] at h2
  have hhi := BitVec.toInt_lt (x := v.hi)
  rw [BitVec.toInt_eq_toNat_of_lt hlo] at h1
  rw [BitVec.msb_eq_false_iff_two_mul_lt,BitVec.toNat_setWidth]
  rw [toInt_eq_toNat_cond] at h1 h2
  split_ifs at h1 h2 <;> omega

theorem Variable.Ok.setBound_ok (hv : v.Ok) (k : TrailKind) (hbot : v.bot ≤ varOrd v b)
    (htop : varOrd v b ≤ v.top)
    (hplain : v.tier1 = false → v.signed = false → (b.setWidth 32).msb = false) :
    (setBound v k b).Ok := by
  have hsame := setBound_same v k b
  refine ⟨hsame.width ▸ hv.pos,hsame.width ▸ hv.le,hsame.tier2 ▸ hv.tier2,?_,?_,?_,?_⟩
  · rw [hsame.tier1,hsame.width]
    exact hv.narrow
  · rw [hsame.tier1,hsame.signed]
    intro h hs
    have h0 : v.tier0 = true := by rw [hv.tier0,h]; rfl
    have hold := hv.plain h hs
    cases k <;> simp only [setBound,h0,if_true]
    · exact ⟨hplain h hs,hold.2⟩
    · exact ⟨hold.1,hplain h hs⟩
    · exact hold
  · rw [hsame.bot]
    cases k
    · rwa [hv.setLb_least hbot htop]
    · rw [setUb_least]
      exact hv.bot
    · exact hv.bot
  · rw [hsame.top]
    cases k
    · rw [setLb_most]
      exact hv.top
    · rwa [hv.setUb_most hbot htop]
    · exact hv.top

theorem Variable.Ok.setIn_ok (hv : v.Ok) (k : TrailKind) (h1 : v.least ≤ varOrd v b)
    (h2 : varOrd v b ≤ v.most) : (setBound v k b).Ok :=
  hv.setBound_ok k (hv.bot.trans h1) (h2.trans hv.top) fun h hs => hv.plain_between h hs h1 h2

end SetBound

section Tightened

variable {id : ℕ}

theorem Tightened.stay {t : Tighten} {b : BitVec 64} (hv : (vars id).Ok)
    (h : if t.isUb then (vars id).most ≤ t.num (vars id) b
      else t.num (vars id) b ≤ (vars id).least) :
    Tightened t id b vars .ok vars := by
  have hsame := Tightened.ok (t:=t) (b:=b) (vars id) (SameType.refl _) hv
    (by unfold Tighten.least; split_ifs at h ⊢ <;> simp [h])
    (by unfold Tighten.most; split_ifs at h ⊢ <;> simp [h]) (.inl rfl)
  rwa [Function.update_eq_self] at hsame

/-- A bound past the present one, within the domain, as it is recorded. -/
theorem Tightened.move {t : Tighten} {b b' : BitVec 64} (hv : (vars id).Ok)
    (hb : varOrd (vars id) b' = t.num (vars id) b)
    (h1 : if t.isUb then t.num (vars id) b < (vars id).most else (vars id).least < t.num (vars id) b)
    (h2 : ¬if t.isUb then t.num (vars id) b < (vars id).least
      else (vars id).most < t.num (vars id) b) :
    Tightened t id b vars .ok
      (Function.update vars id (setBound (vars id) (if t.isUb then .ub else .lb) b')) := by
  rw [← hb] at h1 h2
  split_ifs at h1 h2 ⊢ with hub <;> rw [not_lt] at h2
  · have hl := Variable.Ok.setUb_least (vars id) b'
    have hm := hv.setUb_most (hv.bot.trans h2) (h1.le.trans hv.top)
    refine .ok _ (setBound_same _ _ _) (hv.setIn_ok .ub h2 h1.le) ?_ ?_ (.inr ?_)
    · simp [Tighten.least,hub,hl]
    · simp [Tighten.most,hub,hm,← hb,h1.le]
    · rw [hl,hm]
      exact h2
  · have hl := hv.setLb_least (hv.bot.trans h1.le) (h2.trans hv.top)
    have hm := Variable.Ok.setLb_most (vars id) b'
    refine .ok _ (setBound_same _ _ _) (hv.setIn_ok .lb h1.le h2) ?_ ?_ (.inr ?_)
    · simp [Tighten.least,hub,hl,← hb,h1.le]
    · simp [Tighten.most,hub,hm]
    · rw [hl,hm]
      exact h2

/-- What follows the recording of a bound past the present one. -/
theorem Tightened.after {t : Tighten} {b b' : BitVec 64} {empty single : Bool}
    (hv : (c.vars id).Ok) (hb : varOrd (c.vars id) b' = t.num (c.vars id) b)
    (h1 : if t.isUb then t.num (c.vars id) b < (c.vars id).most
      else (c.vars id).least < t.num (c.vars id) b)
    (htest : empty = true ↔ if t.isUb then t.num (c.vars id) b < (c.vars id).least
      else (c.vars id).most < t.num (c.vars id) b) :
    Tightened t id b c.vars
      (afterTighten (trailRecord (if t.isUb then .ub else .lb) c id b') id empty single).1
      (afterTighten (trailRecord (if t.isUb then .ub else .lb) c id b') id empty single).2.vars := by
  rw [afterTighten_fst,afterTighten_keeps,trailRecord_vars hv]
  by_cases hempty : empty = true
  · rw [if_pos hempty]
    exact .conflict _ (htest.mp hempty)
  · rw [if_neg hempty]
    exact .move hv hb h1 (mt htest.mpr hempty)

section Small

variable (b : BitVec 64) (hv : (c.vars id).Ok) (h0 : (c.vars id).tier1 = false)
include hv h0

theorem setBound_crossed (k : TrailKind) (x : BitVec 32) :
    let v := (trailRecord k c id (x.signExtend 64)).vars id
    v.hi.slt v.lo = true ↔ (if k = .ub then x.toInt else (c.vars id).most) <
      if k = .lb then x.toInt else (c.vars id).least := by
  have h0' : (c.vars id).tier0 = true := by rw [hv.tier0,h0]; rfl
  rw [trailRecord_vars hv,update_self]
  dsimp only
  rw [BitVec.slt_iff_toInt_lt,hv.least_eq h0,hv.most_eq h0]
  cases k <;> simp [setBound,h0',setWidth_signExtend]

theorem varOrd_signExtend (x : BitVec 32) : varOrd (c.vars id) (x.signExtend 64) = x.toInt := by
  rw [varOrd_plain (hv.not_beyond h0),BitVec.toInt_signExtend_of_le (by decide)]

theorem ctxTightenLb32_tightened :
    Tightened .lb32 id b c.vars (ctxTightenLb32 c id (b.setWidth 32)).1
      (ctxTightenLb32 c id (b.setWidth 32)).2.vars := by
  unfold ctxTightenLb32
  split_ifs with hle <;> rw [BitVec.sle_iff_toInt_le,← hv.least_eq h0] at hle
  · exact .stay hv hle
  · exact .after hv (varOrd_signExtend hv h0 _) (not_le.mp hle) (setBound_crossed hv h0 .lb _)

theorem ctxTightenUb32_tightened :
    Tightened .ub32 id b c.vars (ctxTightenUb32 c id (b.setWidth 32)).1
      (ctxTightenUb32 c id (b.setWidth 32)).2.vars := by
  unfold ctxTightenUb32
  split_ifs with hle <;> rw [BitVec.sle_iff_toInt_le,← hv.most_eq h0] at hle
  · exact .stay hv hle
  · exact .after hv (varOrd_signExtend hv h0 _) (not_le.mp hle) (setBound_crossed hv h0 .ub _)

end Small

theorem ctxTightenLb64_tightened (b : BitVec 64) (hv : (c.vars id).Ok) :
    Tightened .lb64 id b c.vars (ctxTightenLb64 c id b).1 (ctxTightenLb64 c id b).2.vars := by
  unfold ctxTightenLb64
  dsimp only
  split_ifs with hle hrepr
  · rw [Bool.not_eq_true',← Bool.not_eq_true,varBGt_iff,not_lt] at hle
    exact .stay hv hle
  · rw [varBGt_iff,varOrd_reprMax hv.pos hv.le] at hrepr
    exact .conflict _ (hv.top.trans_lt hrepr)
  · rw [Bool.not_eq_true',Bool.not_eq_false,varBGt_iff] at hle
    rw [varBGt_iff,varOrd_reprMax hv.pos hv.le,not_lt] at hrepr
    have hle : (c.vars id).least < varOrd (c.vars id) b := hle
    have hl := hv.setLb_least (hv.bot.trans hle.le) hrepr
    refine .after hv rfl hle ?_
    have hvars := congrFun (trailRecord_vars hv .lb b) id
    rw [update_self] at hvars
    show varBGt ((trailRecordLb c id b).vars id) _ _ = true ↔ _
    rw [trailRecordLb,hvars,varBGt_iff]
    show (setBound _ .lb b).most < (setBound _ .lb b).least ↔ _
    rw [hl,Variable.Ok.setLb_most]
    rfl

theorem ctxTightenUb64_tightened (b : BitVec 64) (hv : (c.vars id).Ok) :
    Tightened .ub64 id b c.vars (ctxTightenUb64 c id b).1 (ctxTightenUb64 c id b).2.vars := by
  unfold ctxTightenUb64
  dsimp only
  split_ifs with hle hrepr
  · rw [Bool.not_eq_true',← Bool.not_eq_true,varBLt_iff,not_lt] at hle
    exact .stay hv hle
  · rw [varBLt_iff,varOrd_reprMin hv.pos hv.le] at hrepr
    exact .conflict _ (hrepr.trans_le hv.bot)
  · rw [Bool.not_eq_true',Bool.not_eq_false,varBLt_iff] at hle
    rw [varBLt_iff,varOrd_reprMin hv.pos hv.le,not_lt] at hrepr
    have hle : varOrd (c.vars id) b < (c.vars id).most := hle
    have hm := hv.setUb_most hrepr (hle.le.trans hv.top)
    refine .after hv rfl hle ?_
    have hvars := congrFun (trailRecord_vars hv .ub b) id
    rw [update_self] at hvars
    show varBGt ((trailRecordUb c id b).vars id) _ _ = true ↔ _
    rw [trailRecordUb,hvars,varBGt_iff]
    show (setBound _ .ub b).most < (setBound _ .ub b).least ↔ _
    rw [hm,Variable.Ok.setUb_least]
    rfl

theorem tightenHeld_tightened (t : Tighten) (b : BitVec 64) (hv : (s.ctx.vars id).Ok)
    (ht : t.Fits (s.ctx.vars id)) :
    Tightened t id b s.ctx.vars (tightenHeld s t id b).1 (tightenHeld s t id b).2.ctx.vars := by
  rw [tightenHeld_fst,tightenHeld_ctx]
  cases t
  · exact ctxTightenLb32_tightened b hv ht
  · exact ctxTightenUb32_tightened b hv ht
  · exact ctxTightenLb64_tightened b hv
  · exact ctxTightenUb64_tightened b hv

end Tightened

/-- `Q` holds of the result and the variables however the tightenings of `f` go. -/
def Fire.wp (Q : PropResult → (ℕ → Variable) → Prop) : Fire → (ℕ → Variable) → Prop
  | .done r, vars => Q r vars
  | .read v k, vars => (k (vars v)).wp Q vars
  | .tighten t v b k, vars => (vars v).Ok ∧ t.Fits (vars v) ∧
      ∀ r vars', Tightened t v b vars r vars' → (k r).wp Q vars'

theorem Fire.run_of_wp {Q : PropResult → (ℕ → Variable) → Prop} {f : Fire}
    (h : f.wp Q s.ctx.vars) : Q (f.run s).1 (f.run s).2.ctx.vars := by
  induction f generalizing s with
  | done r => exact h
  | read v k ih => exact ih _ h
  | tighten t v b k ih =>
    obtain ⟨hv,ht,hk⟩ := h
    exact ih _ (hk _ _ (tightenHeld_tightened t b hv ht))

/-- `if ((res = tighten(..)) != PROP_OK) return res;` -/
def Fire.need (t : Tighten) (v : ℕ) (b : BitVec 64) (k : Fire) : Fire :=
  .tighten t v b fun r => if r = .ok then k else .done r

/-- The same with a routine in the place of the tightening. -/
def Fire.andThen : Fire → Fire → Fire
  | .done r, g => if r = .ok then g else .done r
  | .read v k, g => .read v fun x => (k x).andThen g
  | .tighten t v b k, g => .tighten t v b fun r => (k r).andThen g

theorem Fire.wp_andThen {Q : PropResult → (ℕ → Variable) → Prop} {f : Fire} :
    (f.andThen g).wp Q vars ↔ f.wp (fun r vars => if r = .ok then g.wp Q vars else Q r vars) vars := by
  induction f generalizing vars with
  | done r =>
    simp only [Fire.andThen,Fire.wp]
    split_ifs <;> rfl
  | read v k ih => exact ih _
  | tighten t v b k ih => simp only [Fire.andThen,Fire.wp,ih]

theorem Fire.wp_mono {Q Q' : PropResult → (ℕ → Variable) → Prop} {f : Fire}
    (hQ : ∀ r vars, Q r vars → Q' r vars) (h : f.wp Q vars) : f.wp Q' vars := by
  induction f generalizing vars with
  | done r => exact hQ _ _ h
  | read v k ih => exact ih _ h
  | tighten t v b k ih => exact ⟨h.1,h.2.1,fun r vars' ht => ih _ (h.2.2 r vars' ht)⟩

/-- `if (c) { f }`, where `f` may return. -/
def Fire.when (c : Prop) [Decidable c] (f k : Fire) : Fire := if c then f.andThen k else k

/-- A lower and an upper bound, one after the other. -/
def Fire.between (v : ℕ) (lo hi : BitVec 64) (k : Fire) : Fire :=
  .need .lb64 v lo <| .need .ub64 v hi k

theorem Fire.need_andThen (t : Tighten) (v : ℕ) (b : BitVec 64) (f g : Fire) :
    (Fire.need t v b f).andThen g = Fire.need t v b (f.andThen g) := by
  unfold Fire.need
  simp only [Fire.andThen]
  congr 1
  funext r
  cases r <;> rfl

theorem Fire.between_andThen (v : ℕ) (lo hi : BitVec 64) (f g : Fire) :
    (Fire.between v lo hi f).andThen g = Fire.between v lo hi (f.andThen g) := by
  simp only [Fire.between,Fire.need_andThen]

@[simp] theorem Fire.ok_andThen (g : Fire) : (Fire.done .ok).andThen g = g := rfl

/-- The numbers `σ` lie in the domains of the variables of `W`. -/
structure Inside (W : List ℕ) (vars : ℕ → Variable) (σ : ℕ → ℤ) : Prop where
  least : ∀ v ∈ W, (vars v).least ≤ σ v
  most : ∀ v ∈ W, σ v ≤ (vars v).most

structure Pinned (W : List ℕ) (vars : ℕ → Variable) (σ : ℕ → ℤ) : Prop where
  least : ∀ v ∈ W, (vars v).least = σ v
  most : ∀ v ∈ W, (vars v).most = σ v

/-- Variables of `W` in use, of the types they have in `vars₀` and with no wider bounds. -/
structure Typed (W : List ℕ) (vars₀ vars : ℕ → Variable) : Prop where
  ok : ∀ v ∈ W, (vars v).Ok
  same : ∀ v, SameType (vars₀ v) (vars v)
  least : ∀ v, (vars₀ v).least ≤ (vars v).least
  most : ∀ v, (vars v).most ≤ (vars₀ v).most

theorem Typed.refl {W : List ℕ} (h : ∀ v ∈ W, (vars v).Ok) : Typed W vars vars :=
  ⟨h,fun _ => .refl _,fun _ => le_refl _,fun _ => le_refl _⟩

theorem Tighten.least_le (t : Tighten) (v : Variable) (n : ℤ) : v.least ≤ t.least v n := by
  unfold Tighten.least
  split_ifs
  · exact le_refl _
  · exact le_max_left _ _

theorem Tighten.le_most (t : Tighten) (v : Variable) (n : ℤ) : t.most v n ≤ v.most := by
  unfold Tighten.most
  split_ifs
  · exact min_le_left _ _
  · exact le_refl _

section Rules

variable {W : List ℕ} {vars₀ : ℕ → Variable} {σ : ℕ → ℤ} {Q : PropResult → (ℕ → Variable) → Prop}
  {t : Tighten} {id : ℕ} {b : BitVec 64} {k : PropResult → Fire} {f : Fire}

theorem Typed.update {x : Variable} (h : Typed W vars₀ vars) (hs : SameType (vars id) x)
    (hx : x.Ok) (hl : (vars id).least ≤ x.least) (hm : x.most ≤ (vars id).most) :
    Typed W vars₀ (Function.update vars id x) := by
  constructor
  · intro v hv
    by_cases hid : v = id
    · subst hid
      rwa [update_self]
    · rw [update_of_ne hid]
      exact h.ok v hv
  all_goals
    intro v
    by_cases hid : v = id
    · subst hid
      rw [update_self]
      first
        | exact (h.same v).trans hs
        | exact (h.least v).trans hl
        | exact hm.trans (h.most v)
    · rw [update_of_ne hid]
      first
        | exact h.same v
        | exact h.least v
        | exact h.most v

theorem Typed.num {v : ℕ} (h : Typed W vars₀ vars) : t.num (vars v) b = t.num (vars₀ v) b := by
  cases t <;> simp [Tighten.num,(h.same v).varOrd]

theorem Typed.fits (h : Typed W vars₀ vars) (hfit : t.Fits (vars₀ id)) : t.Fits (vars id) := by
  cases t <;> simp only [Tighten.Fits,(h.same id).tier1] at hfit ⊢ <;> exact hfit

theorem Typed.trans {vars₁ : ℕ → Variable} (h : Typed W vars₀ vars₁) (h' : Typed W vars₁ vars) :
    Typed W vars₀ vars where
  ok := h'.ok
  same v := (h.same v).trans (h'.same v)
  least v := (h.least v).trans (h'.least v)
  most v := (h'.most v).trans (h.most v)

/-- A bound that a solution meets does not conflict and keeps it; it moves one end of its
variable and nothing else. -/
theorem Fire.wp_tighten_exact (ht : Typed W vars₀ vars) (hσ : Inside W vars σ) (hid : id ∈ W)
    (hfit : t.Fits (vars₀ id))
    (hb : if t.isUb then σ id ≤ t.num (vars₀ id) b else t.num (vars₀ id) b ≤ σ id)
    (hk : ∀ vars', Typed W vars vars' → Inside W vars' σ →
      (vars' id).least = t.least (vars id) (t.num (vars₀ id) b) →
      (vars' id).most = t.most (vars id) (t.num (vars₀ id) b) → (∀ v ≠ id, vars' v = vars v) →
      (k .ok).wp Q vars') :
    (Fire.tighten t id b k).wp Q vars := by
  have hnum := ht.num (t:=t) (b:=b) (v:=id)
  have h1 := hσ.least id hid
  have h2 := hσ.most id hid
  refine ⟨ht.ok id hid,ht.fits hfit,fun r vars' h => ?_⟩
  cases h with
  | ok x same ok hl hm live =>
    refine hk _ ((Typed.refl ht.ok).update same ok (hl ▸ t.least_le _ _) (hm ▸ t.le_most _ _))
      ⟨fun v hv => ?_,fun v hv => ?_⟩ ?_ ?_ fun v hv => update_of_ne hv _ _
    · by_cases hvid : v = id
      · subst hvid
        rw [update_self,hl,Tighten.least,hnum]
        split_ifs at hb ⊢ with hub
        · exact h1
        · exact max_le h1 hb
      · rw [update_of_ne hvid]
        exact hσ.least v hv
    · by_cases hvid : v = id
      · subst hvid
        rw [update_self,hm,Tighten.most,hnum]
        split_ifs at hb ⊢ with hub
        · exact le_min h2 hb
        · exact h2
      · rw [update_of_ne hvid]
        exact hσ.most v hv
    · rw [update_self,hl,hnum]
    · rw [update_self,hm,hnum]
  | conflict _ out =>
    rw [hnum] at out
    split_ifs at hb out <;> omega

theorem Fire.wp_tighten_moved (ht : Typed W vars₀ vars) (hσ : Inside W vars σ) (hid : id ∈ W)
    (hfit : t.Fits (vars₀ id))
    (hb : if t.isUb then σ id ≤ t.num (vars₀ id) b else t.num (vars₀ id) b ≤ σ id)
    (hk : ∀ vars', Typed W vars vars' → Inside W vars' σ →
      (if t.isUb then (vars' id).most ≤ t.num (vars₀ id) b
        else t.num (vars₀ id) b ≤ (vars' id).least) → (k .ok).wp Q vars') :
    (Fire.tighten t id b k).wp Q vars :=
  Fire.wp_tighten_exact ht hσ hid hfit hb fun vars' h1 h2 hl hm _ => hk vars' h1 h2 <| by
    rw [hl,hm,Tighten.least,Tighten.most]
    split_ifs
    · exact min_le_right _ _
    · exact le_max_right _ _

theorem Fire.wp_tighten (ht : Typed W vars₀ vars) (hσ : Inside W vars σ) (hid : id ∈ W)
    (hfit : t.Fits (vars₀ id))
    (hb : if t.isUb then σ id ≤ t.num (vars₀ id) b else t.num (vars₀ id) b ≤ σ id)
    (hk : ∀ vars', Typed W vars₀ vars' → Inside W vars' σ → (k .ok).wp Q vars') :
    (Fire.tighten t id b k).wp Q vars :=
  Fire.wp_tighten_moved ht hσ hid hfit hb fun vars' h1 h2 _ => hk vars' (ht.trans h1) h2

theorem Fire.wp_need (ht : Typed W vars₀ vars) (hσ : Inside W vars σ) (hid : id ∈ W)
    (hfit : t.Fits (vars₀ id))
    (hb : if t.isUb then σ id ≤ t.num (vars₀ id) b else t.num (vars₀ id) b ≤ σ id)
    (hk : ∀ vars', Typed W vars₀ vars' → Inside W vars' σ → f.wp Q vars') :
    (Fire.need t id b f).wp Q vars :=
  Fire.wp_tighten ht hσ hid hfit hb fun vars' h1 h2 => by simpa using hk vars' h1 h2

theorem Fire.wp_tighten_any (ht : Typed W vars₀ vars) (hid : id ∈ W) (hfit : t.Fits (vars₀ id))
    (hk : ∀ vars', Typed W vars₀ vars' → (k .ok).wp Q vars')
    (hc : ∀ vars', (k .conflict).wp Q vars') : (Fire.tighten t id b k).wp Q vars := by
  refine ⟨ht.ok id hid,ht.fits hfit,fun r vars' h => ?_⟩
  cases h with
  | ok x same ok hl hm live =>
    exact hk _ (ht.update same ok (hl ▸ t.least_le _ _) (hm ▸ t.le_most _ _))
  | conflict _ out => exact hc _

theorem Fire.wp_need_any (ht : Typed W vars₀ vars) (hid : id ∈ W) (hfit : t.Fits (vars₀ id))
    (hQ : ∀ vars', Q .conflict vars') (hk : ∀ vars', Typed W vars₀ vars' → f.wp Q vars') :
    (Fire.need t id b f).wp Q vars :=
  Fire.wp_tighten_any ht hid hfit (fun vars' h => by simpa using hk vars' h) fun vars' => by
    simpa [Fire.wp] using hQ vars'

/-- A variable with one value takes a bound it meets and refuses any other. -/
theorem Fire.wp_tighten_pinned (ht : Typed W vars₀ vars) (hp : Pinned W vars σ) (hid : id ∈ W)
    (hfit : t.Fits (vars₀ id))
    (hk : (if t.isUb then σ id ≤ t.num (vars₀ id) b else t.num (vars₀ id) b ≤ σ id) →
      ∀ vars', Typed W vars₀ vars' → Pinned W vars' σ → (k .ok).wp Q vars')
    (hc : ∀ vars', (k .conflict).wp Q vars') : (Fire.tighten t id b k).wp Q vars := by
  have hnum := ht.num (t:=t) (b:=b) (v:=id)
  have h1 := hp.least id hid
  have h2 := hp.most id hid
  refine ⟨ht.ok id hid,ht.fits hfit,fun r vars' h => ?_⟩
  cases h with
  | conflict _ out => exact hc _
  | ok x same ok hl hm live =>
    rw [hnum] at hl hm
    have hin : if t.isUb then σ id ≤ t.num (vars₀ id) b else t.num (vars₀ id) b ≤ σ id := by
      unfold Tighten.least at hl
      unfold Tighten.most at hm
      rcases live with rfl | live <;> split_ifs at hl hm ⊢ <;> omega
    have hxl : x.least = σ id := by
      rw [hl,Tighten.least]
      split_ifs at hin ⊢ <;> omega
    have hxm : x.most = σ id := by
      rw [hm,Tighten.most]
      split_ifs at hin ⊢ <;> omega
    refine hk hin _ (ht.update same ok (hl ▸ t.least_le _ _) (hm ▸ t.le_most _ _))
      ⟨fun v hv => ?_,fun v hv => ?_⟩
    · by_cases hvid : v = id
      · subst hvid
        rw [update_self,hxl]
      · rw [update_of_ne hvid]
        exact hp.least v hv
    · by_cases hvid : v = id
      · subst hvid
        rw [update_self,hxm]
      · rw [update_of_ne hvid]
        exact hp.most v hv

theorem Fire.wp_need_pinned (ht : Typed W vars₀ vars) (hp : Pinned W vars σ) (hid : id ∈ W)
    (hfit : t.Fits (vars₀ id)) (hQ : ∀ vars', Q .conflict vars')
    (hk : (if t.isUb then σ id ≤ t.num (vars₀ id) b else t.num (vars₀ id) b ≤ σ id) →
      ∀ vars', Typed W vars₀ vars' → Pinned W vars' σ → f.wp Q vars') :
    (Fire.need t id b f).wp Q vars :=
  Fire.wp_tighten_pinned ht hp hid hfit (fun hin vars' h1 h2 => by simpa using hk hin vars' h1 h2)
    fun vars' => by simpa [Fire.wp] using hQ vars'

theorem Fire.wp_lb64 (ht : Typed W vars₀ vars) (hσ : Inside W vars σ) (hid : id ∈ W)
    (hb : varOrd (vars₀ id) b ≤ σ id)
    (hk : ∀ vars', Typed W vars₀ vars' → Inside W vars' σ → f.wp Q vars') :
    (Fire.need .lb64 id b f).wp Q vars :=
  Fire.wp_need ht hσ hid trivial hb hk

theorem Fire.wp_ub64 (ht : Typed W vars₀ vars) (hσ : Inside W vars σ) (hid : id ∈ W)
    (hb : σ id ≤ varOrd (vars₀ id) b)
    (hk : ∀ vars', Typed W vars₀ vars' → Inside W vars' σ → f.wp Q vars') :
    (Fire.need .ub64 id b f).wp Q vars :=
  Fire.wp_need ht hσ hid trivial hb hk

theorem Fire.wp_between (ht : Typed W vars₀ vars) (hσ : Inside W vars σ) (hid : id ∈ W)
    (hlo : varOrd (vars₀ id) lo ≤ σ id) (hhi : σ id ≤ varOrd (vars₀ id) hi)
    (hk : ∀ vars', Typed W vars₀ vars' → Inside W vars' σ → f.wp Q vars') :
    (Fire.between id lo hi f).wp Q vars :=
  Fire.wp_lb64 ht hσ hid hlo fun _ ht hσ => Fire.wp_ub64 ht hσ hid hhi hk

theorem Fire.wp_between_exact (ht : Typed W vars₀ vars) (hσ : Inside W vars σ) (hid : id ∈ W)
    (hlo : varOrd (vars₀ id) lo ≤ σ id) (hhi : σ id ≤ varOrd (vars₀ id) hi)
    (hk : ∀ vars', Typed W vars₀ vars' → Inside W vars' σ →
      (vars' id).least = max (vars id).least (varOrd (vars₀ id) lo) →
      (vars' id).most = min (vars id).most (varOrd (vars₀ id) hi) →
      (∀ v ≠ id, vars' v = vars v) → f.wp Q vars') :
    (Fire.between id lo hi f).wp Q vars :=
  Fire.wp_tighten_exact ht hσ hid trivial hlo fun _ ht₁ hσ hl hm hf =>
    Fire.wp_tighten_exact (ht.trans ht₁) hσ hid trivial hhi fun vars₂ ht₂ hσ hl' hm' hf' => by
      simp only [Tighten.least,Tighten.most,Tighten.isUb,Tighten.num,if_true,false_eq_true,
        if_false] at hl hm hl' hm'
      exact hk vars₂ ((ht.trans ht₁).trans ht₂) hσ (hl'.trans hl) (by rw [hm',hm])
        fun v hv => (hf' v hv).trans (hf v hv)

theorem Fire.wp_between_moved (ht : Typed W vars₀ vars) (hσ : Inside W vars σ) (hid : id ∈ W)
    (hlo : varOrd (vars₀ id) lo ≤ σ id) (hhi : σ id ≤ varOrd (vars₀ id) hi)
    (hk : ∀ vars', Typed W vars₀ vars' → Inside W vars' σ →
      varOrd (vars₀ id) lo ≤ (vars' id).least → (vars' id).most ≤ varOrd (vars₀ id) hi →
      f.wp Q vars') :
    (Fire.between id lo hi f).wp Q vars :=
  Fire.wp_between_exact ht hσ hid hlo hhi fun vars' ht hσ hl hm _ =>
    hk vars' ht hσ (hl ▸ le_max_right _ _) (hm ▸ min_le_right _ _)

theorem Fire.wp_between_pinned (ht : Typed W vars₀ vars) (hp : Pinned W vars σ) (hid : id ∈ W)
    (hQ : ∀ vars', Q .conflict vars')
    (hk : varOrd (vars₀ id) lo ≤ σ id → σ id ≤ varOrd (vars₀ id) hi →
      ∀ vars', Typed W vars₀ vars' → Pinned W vars' σ → f.wp Q vars') :
    (Fire.between id lo hi f).wp Q vars :=
  Fire.wp_need_pinned ht hp hid trivial hQ fun hlo _ ht hp =>
    Fire.wp_need_pinned ht hp hid trivial hQ fun hhi vars' ht hp => hk hlo hhi vars' ht hp

theorem Fire.wp_when [Decidable p] (h : p → (f.andThen g).wp Q vars) (h' : ¬p → g.wp Q vars) :
    (Fire.when p f g).wp Q vars := by
  unfold Fire.when
  split_ifs with hp
  · exact h hp
  · exact h' hp

/-- How a routine ends that lost no part of the solution `σ`. -/
def Retained (W : List ℕ) (vars₀ : ℕ → Variable) (σ : ℕ → ℤ) (r : PropResult)
    (vars : ℕ → Variable) : Prop := r = .ok ∧ Typed W vars₀ vars ∧ Inside W vars σ

theorem Retained.keeps {r : PropResult} (h : Retained W vars₀ σ r vars) :
    r ≠ .conflict ∧ Inside W vars σ := ⟨by simp [h.1],h.2.2⟩

theorem Pinned.inside (h : Pinned W vars σ) : Inside W vars σ :=
  ⟨fun v hv => (h.least v hv).le,fun v hv => (h.most v hv).ge⟩

theorem Fire.wp_andThen_kept (hf : f.wp (Retained W vars₀ σ) vars)
    (hg : ∀ vars', Typed W vars₀ vars' → Inside W vars' σ → g.wp Q vars') :
    (f.andThen g).wp Q vars := by
  rw [Fire.wp_andThen]
  refine Fire.wp_mono (fun r vars' h => ?_) hf
  rw [if_pos h.1]
  exact hg vars' h.2.1 h.2.2

theorem Fire.wp_when_kept [Decidable p] (ht : Typed W vars₀ vars) (hσ : Inside W vars σ)
    (hf : p → f.wp (Retained W vars₀ σ) vars)
    (hg : ∀ vars', Typed W vars₀ vars' → Inside W vars' σ → g.wp Q vars') :
    (Fire.when p f g).wp Q vars :=
  Fire.wp_when (fun hp => Fire.wp_andThen_kept (hf hp) hg) fun _ => hg vars ht hσ

theorem Fire.wp_when_need [Decidable p] (ht : Typed W vars₀ vars) (hσ : Inside W vars σ)
    (hid : id ∈ W) (hfit : t.Fits (vars₀ id))
    (hb : p → if t.isUb then σ id ≤ t.num (vars₀ id) b else t.num (vars₀ id) b ≤ σ id)
    (hk : ∀ vars', Typed W vars₀ vars' → Inside W vars' σ → f.wp Q vars') :
    (Fire.when p (.need t id b (.done .ok)) f).wp Q vars := by
  refine Fire.wp_when (fun hp => ?_) fun _ => hk vars ht hσ
  rw [Fire.need_andThen,Fire.ok_andThen]
  exact Fire.wp_need ht hσ hid hfit (hb hp) hk

theorem Fire.wp_when_between [Decidable p] (ht : Typed W vars₀ vars) (hσ : Inside W vars σ)
    (hid : id ∈ W) (hb : p → varOrd (vars₀ id) lo ≤ σ id ∧ σ id ≤ varOrd (vars₀ id) hi)
    (hk : ∀ vars', Typed W vars₀ vars' → Inside W vars' σ → f.wp Q vars') :
    (Fire.when p (.between id lo hi (.done .ok)) f).wp Q vars := by
  refine Fire.wp_when (fun hp => ?_) fun _ => hk vars ht hσ
  rw [Fire.between_andThen,Fire.ok_andThen]
  exact Fire.wp_between ht hσ hid (hb hp).1 (hb hp).2 hk

end Rules

/-- Fired in `s`, `f` propagates the relation `R` between the variables of `W`: no solution
within the bounds is lost, a conflict means that there is none, and fixed variables that
are not in the relation conflict. -/
structure Propagates (W : List ℕ) (R : (ℕ → ℤ) → Prop) (f : Fire) (s : Engine) : Prop where
  keeps : ∀ σ, Inside W s.ctx.vars σ → R σ → Inside W (f.run s).2.ctx.vars σ
  conflict : (f.run s).1 = .conflict → ∀ σ, Inside W s.ctx.vars σ → ¬R σ
  refutes : ∀ σ, Pinned W s.ctx.vars σ → ¬R σ → (f.run s).1 = .conflict

theorem Propagates.of_wp {W : List ℕ} {f : Fire}
    (hkeep : ∀ σ, Inside W s.ctx.vars σ → R σ →
      f.wp (fun r vars => r ≠ .conflict ∧ Inside W vars σ) s.ctx.vars)
    (href : ∀ σ, Pinned W s.ctx.vars σ → ¬R σ → f.wp (fun r _ => r = .conflict) s.ctx.vars) :
    Propagates W R f s where
  keeps σ hσ hR := (Fire.run_of_wp (hkeep σ hσ hR)).2
  conflict hc σ hσ hR := (Fire.run_of_wp (hkeep σ hσ hR)).1 hc
  refutes σ hσ hR := Fire.run_of_wp (href σ hσ hR)

theorem Propagates.decides {W : List ℕ} {f : Fire} {σ : ℕ → ℤ}
    (h : Propagates W R f s) (hp : Pinned W s.ctx.vars σ) : (f.run s).1 = .conflict ↔ ¬R σ :=
  ⟨fun hc => h.conflict hc σ hp.inside,h.refutes σ hp⟩

/-- A variable with 64 bit bounds. -/
def wideVar (lo hi : BitVec 64) (width : ℕ) (signed : Bool) : Variable :=
  ⟨0#32,0#32,(lo,hi),width,signed,true,false,false⟩

/-- An engine with these variables and nothing else of interest. -/
def holding (vars : ℕ → Variable) : Engine :=
  let s := twoPropsQueued (0#32,0#32) (0#32,0#32) (.done .ok) (.done .ok) fun _ => []
  {s with ctx := {s.ctx with vars := vars}}

theorem wideVar_ok {width : ℕ} {signed : Bool} (hpos : 0 < width) (hle : width ≤ 64)
    (hbot : (wideVar lo hi width signed).bot ≤ (wideVar lo hi width signed).least)
    (htop : (wideVar lo hi width signed).most ≤ (wideVar lo hi width signed).top) :
    (wideVar lo hi width signed).Ok :=
  ⟨hpos,hle,rfl,fun h => by simp [wideVar] at h,fun h => by simp [wideVar] at h,hbot,htop⟩

end Solver
end DvSolve
