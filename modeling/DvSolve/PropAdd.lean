import DvSolve.FireSem

/-! Addition: `_fire_bounds_add_64` over the integers, with its exact 128-bit feasibility check,
and `_fire_bvadd_const_64` modulo a power of two. -/
namespace DvSolve
namespace Solver

open BitVec (allOnes le_def lt_def ssubOverflow toNat_add toNat_sub_of_le)

variable {v : Variable} {vars vars₀ : ℕ → Variable} {s : Engine} {W : List ℕ} {σ : ℕ → ℤ}
variable {b : BitVec 64}

def boundBeyondI64 (v : Variable) (b : BitVec 64) : Bool :=
  !v.signed && v.width ≥ 64 && b.toInt < 0

structure I128 where
  hi : BitVec 64
  lo : BitVec 64
  deriving DecidableEq

def trueBound (v : Variable) (b : BitVec 64) : I128 :=
  ⟨if boundBeyondI64 v b || decide (0 ≤ b.toInt) then 0#64 else allOnes 64,b⟩

def I128.add (a b : I128) : I128 :=
  let lo := a.lo+b.lo
  ⟨a.hi+b.hi+(if lo < a.lo then 1#64 else 0#64),lo⟩

def I128.lt (a b : I128) : Bool :=
  if a.hi ≠ b.hi then a.hi.slt b.hi else a.lo.ult b.lo

def I128.value (a : I128) : ℤ := a.hi.toInt*2^64+a.lo.toNat

theorem I128.lt_iff (a b : I128) : a.lt b = true ↔ a.value < b.value := by
  unfold I128.lt I128.value
  split_ifs with h
  · have hne : a.hi.toInt ≠ b.hi.toInt := fun he => h (BitVec.eq_of_toInt_eq he)
    rw [BitVec.slt_iff_toInt_lt]
    omega
  · rw [not_not.mp h,BitVec.ult_iff_lt,lt_def]
    omega

/-- The low words carry into the high ones, which have room for a sum of small numbers. -/
theorem I128.add_value {a b : I128} (ha : -2^62 ≤ a.hi.toInt ∧ a.hi.toInt < 2^62)
    (hb : -2^62 ≤ b.hi.toInt ∧ b.hi.toInt < 2^62) : (a.add b).value = a.value+b.value := by
  have hsum : (a.hi+b.hi).toInt = a.hi.toInt+b.hi.toInt := by
    rw [BitVec.toInt_add]
    exact Int.bmod_eq_of_le (by simp; omega) (by simp; omega)
  unfold I128.add I128.value
  simp only [lt_def,toNat_add]
  split_ifs with hc
  · have hwrap : (a.lo.toNat+b.lo.toNat)%2^64 = a.lo.toNat+b.lo.toNat-2^64 := by omega
    have hhi : (a.hi+b.hi+1#64).toInt = a.hi.toInt+b.hi.toInt+1 := by
      rw [BitVec.toInt_add,hsum]
      exact Int.bmod_eq_of_le (by simp; omega) (by simp; omega)
    rw [hhi,hwrap]
    omega
  · have hfit : (a.lo.toNat+b.lo.toNat)%2^64 = a.lo.toNat+b.lo.toNat := by omega
    rw [BitVec.add_zero,hsum,hfit]
    push_cast
    ring

theorem trueBound_hi (v : Variable) (b : BitVec 64) :
    -2^62 ≤ (trueBound v b).hi.toInt ∧ (trueBound v b).hi.toInt < 2^62 := by
  unfold trueBound
  split_ifs
  · simp
  · simp

theorem trueBound_value (v : Variable) (b : BitVec 64) : (trueBound v b).value = varOrd v b := by
  have hnat := BitVec.toInt_eq_toNat_cond b
  unfold trueBound I128.value boundBeyondI64
  by_cases hv : v.beyond = true
  · rw [varOrd_beyond hv]
    have hcond : (!v.signed && decide (v.width ≥ 64)) = true := hv
    by_cases hneg : b.toInt < 0
    · simp [hcond,hneg]
    · simp [not_lt.mp hneg]
  · rw [Bool.not_eq_true] at hv
    rw [varOrd_plain hv]
    have hcond : (!v.signed && decide (v.width ≥ 64)) = false := hv
    by_cases hneg : b.toInt < 0
    · have hones : (allOnes 64).toInt = -1 := by decide
      simp only [hcond,Bool.false_and,Bool.false_or,not_le.mpr hneg,decide_false,
        Bool.false_eq_true,if_false,hones]
      split_ifs at hnat <;> omega
    · simp only [not_lt.mp hneg,decide_true,Bool.or_true,if_true,BitVec.toInt_zero]
      split_ifs at hnat <;> omega

theorem trueBound_add_value (v w : Variable) (a b : BitVec 64) :
    ((trueBound v a).add (trueBound w b)).value = varOrd v a+varOrd w b := by
  rw [I128.add_value (trueBound_hi v a) (trueBound_hi w b),trueBound_value,trueBound_value]

def boundInRepr (t : Variable) (b : BitVec 64) : Bool :=
  if t.signed then (varReprMin t).sle b && b.sle (varReprMax t)
  else if b.toInt < 0 then false
  else if t.width ≥ 64 then true
  else b.sle (varReprMax t)

def tightenSafe (t : Tighten) (id : ℕ) (b : BitVec 64) (ok : Bool) : Fire :=
  if ok = false then .done .ok
  else .read id fun x => if boundInRepr x b = false then .done .ok else .need t id b <| .done .ok

def tightenLbSafe : ℕ → BitVec 64 → Bool → Fire := tightenSafe .lb64

def tightenUbSafe : ℕ → BitVec 64 → Bool → Fire := tightenSafe .ub64

theorem varOrd_of_boundInRepr (h : boundInRepr v b = true) :
    varOrd v b = b.toInt := by
  refine varOrd_of_nonneg fun hv => ?_
  have hs : v.signed = false := by
    unfold Variable.beyond at hv
    cases hsg : v.signed
    · rfl
    · simp [hsg] at hv
  by_contra hneg
  simp [boundInRepr,hs,not_le.mp hneg] at h

/-- A bound that is right as an integer loses nothing. -/
theorem tightenSafe_retains {t : Tighten} {id : ℕ} {ok : Bool} (ht : Typed W vars₀ vars)
    (hσ : Inside W vars σ) (hid : id ∈ W) (ht64 : t = .lb64 ∨ t = .ub64)
    (hb : ok = true → if t.isUb then σ id ≤ b.toInt else b.toInt ≤ σ id) :
    (tightenSafe t id b ok).wp (Retained W vars₀ σ) vars := by
  unfold tightenSafe
  split_ifs with hok
  · exact ⟨rfl,ht,hσ⟩
  · simp only [Fire.wp]
    split_ifs with hrepr
    · exact ⟨rfl,ht,hσ⟩
    · rw [Bool.not_eq_false] at hok hrepr
      have hnum : t.num (vars₀ id) b = b.toInt := by
        have h := varOrd_of_boundInRepr hrepr
        rw [(ht.same id).varOrd] at h
        rcases ht64 with rfl | rfl <;> exact h
      refine Fire.wp_need ht hσ hid (by rcases ht64 with rfl | rfl <;> trivial) ?_
        fun _ ht hσ => ⟨rfl,ht,hσ⟩
      rw [hnum]
      exact hb hok

def fireBoundsAdd64 (rid aid bid : ℕ) : Fire :=
  .read rid fun rv =>
  .read aid fun av =>
  .read bid fun bv =>
  let rlo := varLo64 rv
  let rhi := varHi64 rv
  let alo := varLo64 av
  let ahi := varHi64 av
  let blo := varLo64 bv
  let bhi := varHi64 bv
  let rloU := boundBeyondI64 rv rlo
  let rhiU := boundBeyondI64 rv rhi
  let aloU := boundBeyondI64 av alo
  let ahiU := boundBeyondI64 av ahi
  let bloU := boundBeyondI64 bv blo
  let bhiU := boundBeyondI64 bv bhi
  let slo := (trueBound av alo).add (trueBound bv blo)
  let shi := (trueBound av ahi).add (trueBound bv bhi)
  if (trueBound rv rhi).lt slo = true ∨ shi.lt (trueBound rv rlo) = true then .done .conflict
  else
  Fire.when (aloU = false ∧ bloU = false)
    (tightenLbSafe rid (alo+blo) (!BitVec.saddOverflow alo blo)) <|
  Fire.when (ahiU = false ∧ bhiU = false)
    (tightenUbSafe rid (ahi+bhi) (!BitVec.saddOverflow ahi bhi)) <|
  Fire.when (rloU = false ∧ bhiU = false)
    (tightenLbSafe aid (rlo-bhi) (!ssubOverflow rlo bhi)) <|
  Fire.when (rhiU = false ∧ bloU = false)
    (tightenUbSafe aid (rhi-blo) (!ssubOverflow rhi blo)) <|
  Fire.when (rloU = false ∧ ahiU = false)
    (tightenLbSafe bid (rlo-ahi) (!ssubOverflow rlo ahi)) <|
  Fire.when (rhiU = false ∧ aloU = false)
    (tightenUbSafe bid (rhi-alo) (!ssubOverflow rhi alo)) <|
  .done .ok

theorem toInt_of_honest (h : boundBeyondI64 v b = false) :
    b.toInt = varOrd v b := by
  refine (varOrd_of_nonneg fun hv => ?_).symm
  by_contra hneg
  have hcond : (!v.signed && decide (v.width ≥ 64)) = true := hv
  simp [boundBeyondI64,hcond,not_le.mp hneg] at h

theorem toInt_add_chk {a : BitVec 64} (h : (!BitVec.saddOverflow a b) = true) :
    (a+b).toInt = a.toInt+b.toInt :=
  BitVec.toInt_add_of_not_saddOverflow (by simpa using h)

theorem toInt_sub_chk {a : BitVec 64} (h : (!ssubOverflow a b) = true) :
    (a-b).toInt = a.toInt-b.toInt :=
  BitVec.toInt_sub_of_not_ssubOverflow (by simpa using h)

section Add

variable {rid aid bid : ℕ}

theorem fireBoundsAdd64_keeps (hok : ∀ v ∈ [rid,aid,bid], (vars v).Ok)
    (hσ : Inside [rid,aid,bid] vars σ) (hR : σ rid = σ aid+σ bid) :
    (fireBoundsAdd64 rid aid bid).wp (Retained [rid,aid,bid] vars σ) vars := by
  have hr : rid ∈ [rid,aid,bid] := by simp
  have ha : aid ∈ [rid,aid,bid] := by simp
  have hb : bid ∈ [rid,aid,bid] := by simp
  have r1 := hσ.least rid hr
  have r2 := hσ.most rid hr
  have a1 := hσ.least aid ha
  have a2 := hσ.most aid ha
  have b1 := hσ.least bid hb
  have b2 := hσ.most bid hb
  simp only [fireBoundsAdd64,Fire.wp,I128.lt_iff,trueBound_add_value,trueBound_value]
  unfold Variable.least at r1 a1 b1
  unfold Variable.most at r2 a2 b2
  rw [if_neg (by omega)]
  refine Fire.wp_when_kept (.refl hok) hσ (fun hc => tightenSafe_retains (.refl hok) hσ hr (.inl rfl)
    fun h => ?_) fun _ ht hσ => ?_
  · simp only [Tighten.isUb,Bool.false_eq_true,if_false]
    rw [toInt_add_chk h,toInt_of_honest hc.1,toInt_of_honest hc.2]
    omega
  refine Fire.wp_when_kept ht hσ (fun hc => tightenSafe_retains ht hσ hr (.inr rfl)
    fun h => ?_) fun _ ht hσ => ?_
  · simp only [Tighten.isUb,if_true]
    rw [toInt_add_chk h,toInt_of_honest hc.1,toInt_of_honest hc.2]
    omega
  refine Fire.wp_when_kept ht hσ (fun hc => tightenSafe_retains ht hσ ha (.inl rfl)
    fun h => ?_) fun _ ht hσ => ?_
  · simp only [Tighten.isUb,Bool.false_eq_true,if_false]
    rw [toInt_sub_chk h,toInt_of_honest hc.1,toInt_of_honest hc.2]
    omega
  refine Fire.wp_when_kept ht hσ (fun hc => tightenSafe_retains ht hσ ha (.inr rfl)
    fun h => ?_) fun _ ht hσ => ?_
  · simp only [Tighten.isUb,if_true]
    rw [toInt_sub_chk h,toInt_of_honest hc.1,toInt_of_honest hc.2]
    omega
  refine Fire.wp_when_kept ht hσ (fun hc => tightenSafe_retains ht hσ hb (.inl rfl)
    fun h => ?_) fun _ ht hσ => ?_
  · simp only [Tighten.isUb,Bool.false_eq_true,if_false]
    rw [toInt_sub_chk h,toInt_of_honest hc.1,toInt_of_honest hc.2]
    omega
  refine Fire.wp_when_kept ht hσ (fun hc => tightenSafe_retains ht hσ hb (.inr rfl)
    fun h => ?_) fun _ ht hσ => ⟨rfl,ht,hσ⟩
  simp only [Tighten.isUb,if_true]
  rw [toInt_sub_chk h,toInt_of_honest hc.1,toInt_of_honest hc.2]
  omega

theorem fireBoundsAdd64_refutes (hp : Pinned [rid,aid,bid] vars σ) (hR : σ rid ≠ σ aid+σ bid) :
    (fireBoundsAdd64 rid aid bid).wp (fun r _ => r = .conflict) vars := by
  have r1 := hp.least rid (by simp)
  have r2 := hp.most rid (by simp)
  have a1 := hp.least aid (by simp)
  have a2 := hp.most aid (by simp)
  have b1 := hp.least bid (by simp)
  have b2 := hp.most bid (by simp)
  unfold Variable.least at r1 a1 b1
  unfold Variable.most at r2 a2 b2
  simp only [fireBoundsAdd64,Fire.wp,I128.lt_iff,trueBound_add_value,trueBound_value]
  rw [if_pos (by omega)]
  rfl

end Add

/-- `y = (x+c) mod M` narrows `y`: both ends stay, both wrap, or the sums are a high and a low
piece and `y` is bounded when it lies in one of them. -/
def addConstWay (x y : ℕ) (M c : BitVec 64) (k : Fire) : Fire :=
  .read x fun vx =>
  let xlo := varLo64 vx
  let xhi := varHi64 vx
  if xhi+c < M then .between y (xlo+c) (xhi+c) k
  else if M ≤ xlo+c then .between y (xlo+c-M) (xhi+c-M) k
  else .read y fun vy =>
    let upLo := xlo+c
    let lowHi := xhi+c-M
    if lowHi < varLo64 vy then .between y upLo (M-1#64) k
    else if varHi64 vy < upLo then .between y 0#64 lowHi k
    else k

def fireBvaddConst64 (w : ℕ) (c : BitVec 64) (rid xid : ℕ) : Fire :=
  if w = 0 ∨ w ≥ 64 then .done .ok
  else
    let M := 1#64 <<< w
    let c := c &&& (M-1#64)
    addConstWay xid rid M c <|
    addConstWay rid xid M (if c = 0#64 then 0#64 else M-c) <|
    .done .ok

theorem toNat_of_varOrd (h : 0 ≤ varOrd v b) : (b.toNat : ℤ) = varOrd v b := by
  by_cases hv : v.beyond = true
  · exact (varOrd_beyond hv b).symm
  · rw [varOrd_plain (by simpa using hv)] at h ⊢
    have := BitVec.toInt_eq_toNat_cond b
    split_ifs at this <;> omega

theorem varOrd_of_lt (h : b.toNat < 2^63) : varOrd v b = b.toNat := by
  refine (toNat_of_varOrd ?_).symm
  unfold varOrd
  split_ifs
  · omega
  · rw [BitVec.toInt_eq_toNat_of_lt (by omega)]
    omega

theorem emod_once {n M : ℤ} (h0 : 0 ≤ n) (h : n < 2*M) : n%M = if n < M then n else n-M := by
  split_ifs with hn
  · exact Int.emod_eq_of_lt h0 hn
  · rw [← Int.sub_emod_right,Int.emod_eq_of_lt (by omega) (by omega)]

theorem Variable.Ok.least_nonneg (hv : v.Ok) (hs : v.signed = false) : 0 ≤ v.least := by
  have h := hv.bot
  unfold Variable.bot at h
  simpa [hs] using h

section Way

variable {Q : PropResult → (ℕ → Variable) → Prop} {k : Fire} {x y w : ℕ} {M c : BitVec 64}

/-- The sums may leave the second variable alone only when they wrap for some values of the
first and not for others. -/
theorem addConstWay_wp (ht : Typed W vars₀ vars) (hσ : Inside W vars σ) (hx : x ∈ W) (hy : y ∈ W)
    (hsx : (vars x).signed = false) (hsy : (vars y).signed = false) (hw : w < 64)
    (hM : M.toNat = 2^w) (hc : c.toNat < 2^w) (hroom : (vars x).most+c.toNat < 2^64)
    (hxw : σ x < 2^w) (hR : σ y = (σ x+c.toNat)%2^w)
    (hcase : (vars x).most < 2^w ∨ ((vars x).least+c.toNat ≤ (vars y).most ∧ (vars y).most < 2^w))
    (hk : ∀ vars', Typed W vars₀ vars' → Inside W vars' σ → ((vars' y).most < 2^w ∨
        (vars' = vars ∧ (vars y).least+2^w ≤ (vars x).most+c.toNat)) → k.wp Q vars') :
    (addConstWay x y M c k).wp Q vars := by
  have x0 := (ht.ok x hx).least_nonneg hsx
  have y0 := (ht.ok y hy).least_nonneg hsy
  have x1 := hσ.least x hx
  have x2 := hσ.most x hx
  have y1 := hσ.least y hy
  have y2 := hσ.most y hy
  have hp : (2 : ℤ)^w ≤ 2^63 := pow_le_pow_right₀ (by norm_num) (by omega)
  have hMz : (M.toNat : ℤ) = 2^w := by exact_mod_cast hM
  rw [emod_once (by omega) (by omega)] at hR
  have exlo : ((varLo64 (vars x)).toNat : ℤ) = (vars x).least := toNat_of_varOrd x0
  have exhi : ((varHi64 (vars x)).toNat : ℤ) = (vars x).most :=
    toNat_of_varOrd (show 0 ≤ (vars x).most by omega)
  have eylo : ((varLo64 (vars y)).toNat : ℤ) = (vars y).least := toNat_of_varOrd y0
  have eyhi : ((varHi64 (vars y)).toNat : ℤ) = (vars y).most :=
    toNat_of_varOrd (show 0 ≤ (vars y).most by omega)
  generalize (2 : ℤ)^w = P at *
  have hlo : (varLo64 (vars x)+c).toNat = (varLo64 (vars x)).toNat+c.toNat := by
    rw [toNat_add]
    omega
  have hhi : (varHi64 (vars x)+c).toNat = (varHi64 (vars x)).toNat+c.toNat := by
    rw [toNat_add]
    omega
  simp only [addConstWay,Fire.wp,lt_def,le_def,hlo,hhi]
  split_ifs with h1 h2
  · refine Fire.wp_between_moved ht hσ hy ?_ ?_ fun vars' ht hσ _ hm => hk vars' ht hσ (.inl ?_)
    · rw [varOrd_of_lt (by omega),hlo]
      split_ifs at hR <;> omega
    · rw [varOrd_of_lt (by omega),hhi]
      split_ifs at hR <;> omega
    · rw [varOrd_of_lt (by omega),hhi] at hm
      omega
  · have hsmall : (vars x).most < P := by omega
    have hlo' : (varLo64 (vars x)+c-M).toNat = (varLo64 (vars x)).toNat+c.toNat-M.toNat := by
      rw [toNat_sub_of_le (by rw [le_def,hlo]; omega),hlo]
    have hhi' : (varHi64 (vars x)+c-M).toNat = (varHi64 (vars x)).toNat+c.toNat-M.toNat := by
      rw [toNat_sub_of_le (by rw [le_def,hhi]; omega),hhi]
    refine Fire.wp_between_moved ht hσ hy ?_ ?_ fun vars' ht hσ _ hm => hk vars' ht hσ (.inl ?_)
    · rw [varOrd_of_lt (by omega),hlo']
      split_ifs at hR <;> omega
    · rw [varOrd_of_lt (by omega),hhi']
      split_ifs at hR <;> omega
    · rw [varOrd_of_lt (by omega),hhi'] at hm
      omega
  · have hhi' : (varHi64 (vars x)+c-M).toNat = (varHi64 (vars x)).toNat+c.toNat-M.toNat := by
      rw [toNat_sub_of_le (by rw [le_def,hhi]; omega),hhi]
    simp only [Fire.wp,hhi']
    have hone : (M-1#64).toNat = M.toNat-1 := toNat_sub_of_le (by simp [le_def]; omega)
    split_ifs with h3 h4
    · refine Fire.wp_between_moved ht hσ hy ?_ ?_ fun vars' ht hσ _ hm => hk vars' ht hσ (.inl ?_)
      · rw [varOrd_of_lt (by omega),hlo]
        split_ifs at hR <;> omega
      · rw [varOrd_of_lt (by omega),hone]
        split_ifs at hR <;> omega
      · rw [varOrd_of_lt (by omega),hone] at hm
        omega
    · have hsmall : (vars x).most < P := by omega
      refine Fire.wp_between_moved ht hσ hy ?_ ?_ fun vars' ht hσ _ hm => hk vars' ht hσ (.inl ?_)
      · rw [varOrd_of_lt (by simp)]
        simpa using y0.trans y1
      · rw [varOrd_of_lt (by omega),hhi']
        split_ifs at hR <;> omega
      · rw [varOrd_of_lt (by omega),hhi'] at hm
        omega
    · exact hk vars ht hσ (.inr ⟨rfl,by omega⟩)

theorem addConstWay_refutes (hp : Pinned W vars σ) (hok : ∀ v ∈ W, (vars v).Ok) (hx : x ∈ W)
    (hy : y ∈ W) (hsx : (vars x).signed = false) (hw : w < 64) (hM : M.toNat = 2^w)
    (hc : c.toNat < 2^w) (hxw : σ x < 2^w) (hR : σ y ≠ (σ x+c.toNat)%2^w) :
    (addConstWay x y M c k).wp (fun r _ => r = .conflict) vars := by
  have x0 := (hok x hx).least_nonneg hsx
  have x1 := hp.least x hx
  have x2 := hp.most x hx
  have hpow : (2 : ℤ)^w ≤ 2^63 := pow_le_pow_right₀ (by norm_num) (by omega)
  have hMz : (M.toNat : ℤ) = 2^w := by exact_mod_cast hM
  rw [emod_once (by omega) (by omega)] at hR
  have exlo : ((varLo64 (vars x)).toNat : ℤ) = σ x := (toNat_of_varOrd x0).trans x1
  have heq : varHi64 (vars x) = varLo64 (vars x) := varOrd_inj (x2.trans x1.symm)
  generalize (2 : ℤ)^w = P at *
  have hlo : (varLo64 (vars x)+c).toNat = (varLo64 (vars x)).toNat+c.toNat := by
    rw [toNat_add]
    omega
  simp only [addConstWay,Fire.wp,lt_def,le_def,heq,hlo]
  by_cases hwrap : (varLo64 (vars x)).toNat+c.toNat < M.toNat
  · rw [if_pos hwrap]
    rw [if_pos (by omega)] at hR
    refine Fire.wp_between_pinned (.refl hok) hp hy (fun _ => rfl) fun h1 h2 => absurd ?_ hR
    rw [varOrd_of_lt (by omega),hlo] at h1 h2
    omega
  · rw [if_neg hwrap,if_pos (by omega)]
    rw [if_neg (by omega)] at hR
    have hlo' : (varLo64 (vars x)+c-M).toNat = (varLo64 (vars x)).toNat+c.toNat-M.toNat := by
      rw [toNat_sub_of_le (by rw [le_def,hlo]; omega),hlo]
    refine Fire.wp_between_pinned (.refl hok) hp hy (fun _ => rfl) fun h1 h2 => absurd ?_ hR
    rw [varOrd_of_lt (by omega),hlo'] at h1 h2
    omega

end Way

section Const

variable {rid xid w : ℕ} {c : BitVec 64}

theorem toNat_modulus (hw : w < 64) : (1#64 <<< w).toNat = 2^w := by
  have hp : 2^w < 2^64 := Nat.pow_lt_pow_right (by norm_num) hw
  rw [BitVec.toNat_shiftLeft,Nat.shiftLeft_eq]
  simpa using Nat.mod_eq_of_lt hp

theorem toNat_reduced (hw : w < 64) : (c &&& (1#64 <<< w-1#64)).toNat = c.toNat%2^w := by
  rw [BitVec.toNat_and,toNat_sub_of_le (by
    rw [le_def,toNat_modulus hw]
    exact Nat.one_le_two_pow),toNat_modulus hw]
  exact Nat.and_two_pow_sub_one_eq_mod _ _

/-- Numbers the width holds: `x` below the modulus, and room above `r` for one more turn. -/
structure Turns (w rid xid : ℕ) (vars : ℕ → Variable) : Prop where
  ok : ∀ v ∈ [rid,xid], (vars v).Ok
  plain : ∀ v ∈ [rid,xid], (vars v).signed = false
  most_x : (vars xid).most < 2^w
  most_r : (vars rid).most+2^w ≤ 2^64

theorem fireBvaddConst64_keeps (h0 : 0 < w) (hw : w < 64) (h : Turns w rid xid vars)
    (hσ : Inside [rid,xid] vars σ) (hR : σ rid = (σ xid+c.toNat)%2^w) :
    (fireBvaddConst64 w c rid xid).wp (Retained [rid,xid] vars σ) vars := by
  have hr : rid ∈ [rid,xid] := by simp
  have hx : xid ∈ [rid,xid] := by simp
  have hMx := h.most_x
  have hMr := h.most_r
  have hM := toNat_modulus hw
  have hred := toNat_reduced (c:=c) hw
  have x0 := (h.ok xid hx).least_nonneg (h.plain xid hx)
  have hp : (2 : ℤ)^w ≤ 2^63 := pow_le_pow_right₀ (by norm_num) (by omega)
  have hpos : (0 : ℤ) < 2^w := by positivity
  unfold fireBvaddConst64
  rw [if_neg (by omega)]
  simp only
  generalize 1#64 <<< w = M at *
  have hc : (c &&& (M-1#64)).toNat < 2^w := hred ▸ Nat.mod_lt _ (by positivity)
  have hcz : (c.toNat : ℤ)%2^w = (c &&& (M-1#64)).toNat := by
    rw [hred]
    rfl
  have hR' : σ rid = (σ xid+(c &&& (M-1#64)).toNat)%2^w := by
    rw [hR,← hcz,Int.add_emod_emod]
  have hMz : (M.toNat : ℤ) = 2^w := by exact_mod_cast hM
  generalize c &&& (M-1#64) = d at *
  refine addConstWay_wp (.refl h.ok) hσ hx hr (h.plain xid hx) (h.plain rid hr) hw hM hc (by omega)
    ((hσ.most xid hx).trans_lt hMx) hR' (.inl hMx) fun vars₁ ht hσ₁ hcase => ?_
  have hsame := fun v hv => ((ht.same v).signed).trans (h.plain v hv)
  have rm := ht.most rid
  have hr2 := Int.emod_lt_of_pos (σ xid+d.toNat) hpos
  have hback : ∀ n : BitVec 64, n.toNat < 2^w → ((d.toNat : ℤ)+n.toNat)%2^w = 0 →
      σ xid = (σ rid+n.toNat)%2^w := fun n _ hn => by
    rw [hR',Int.emod_add_emod,add_assoc,Int.add_emod,hn,add_zero,Int.emod_emod_of_dvd _ (dvd_refl _)]
    exact (Int.emod_eq_of_lt (x0.trans (hσ.least xid hx)) ((hσ.most xid hx).trans_lt hMx)).symm
  split_ifs with hd
  · have hz : (0#64).toNat < 2^w := by simp
    refine addConstWay_wp ht hσ₁ hr hx (hsame rid hr) (hsame xid hx) hw hM hz (by simp; omega)
      (hR' ▸ hr2) (hback 0#64 hz (by simp [hd])) ?_ fun _ ht hσ _ => ⟨rfl,ht,hσ⟩
    rcases hcase with hcase | ⟨rfl,hcase⟩
    · exact .inl hcase
    · simp [hd] at hcase
      omega
  · have hd0 : d.toNat ≠ 0 := fun he => hd (BitVec.eq_of_toNat_eq he)
    have hn : (M-d).toNat = M.toNat-d.toNat := toNat_sub_of_le (by rw [le_def]; omega)
    refine addConstWay_wp ht hσ₁ hr hx (hsame rid hr) (hsame xid hx) hw hM (by omega) (by omega)
      (hR' ▸ hr2) (hback (M-d) (by omega) ?_) ?_ fun _ ht hσ _ => ⟨rfl,ht,hσ⟩
    · rw [hn,show (d.toNat : ℤ)+((M.toNat-d.toNat : ℕ) : ℤ) = 2^w by omega,Int.emod_self]
    · rcases hcase with hcase | ⟨rfl,hcase⟩
      · exact .inl hcase
      · exact .inr ⟨by omega,hMx⟩

theorem fireBvaddConst64_refutes (h0 : 0 < w) (hw : w < 64) (h : Turns w rid xid vars)
    (hp : Pinned [rid,xid] vars σ) (hR : σ rid ≠ (σ xid+c.toNat)%2^w) :
    (fireBvaddConst64 w c rid xid).wp (fun r _ => r = .conflict) vars := by
  have hx : xid ∈ [rid,xid] := by simp
  have hred := toNat_reduced (c:=c) hw
  have hc : (c &&& (1#64 <<< w-1#64)).toNat < 2^w := hred ▸ Nat.mod_lt _ (by positivity)
  unfold fireBvaddConst64
  rw [if_neg (by omega)]
  refine addConstWay_refutes hp h.ok hx (by simp) (h.plain xid hx) hw (toNat_modulus hw) hc
    ((hp.most xid hx).symm.trans_lt h.most_x) fun he => hR ?_
  rw [he,hred]
  push_cast
  rw [Int.add_emod_emod]

end Const

/-- Sums over the integers are propagated for any three variables, sums with a constant modulo
a power of two for unsigned variables that hold its residues. -/
theorem addition_propagate :
    (∀ (s : Engine) (rid aid bid : ℕ), (∀ v ∈ [rid,aid,bid], (s.ctx.vars v).Ok) →
      Propagates [rid,aid,bid] (fun σ => σ rid = σ aid+σ bid) (fireBoundsAdd64 rid aid bid) s) ∧
    ∀ (s : Engine) (rid xid w : ℕ) (c : BitVec 64), 0 < w → w < 64 → Turns w rid xid s.ctx.vars →
      Propagates [rid,xid] (fun σ => σ rid = (σ xid+c.toNat)%2^w) (fireBvaddConst64 w c rid xid) s :=
  ⟨fun _ _ _ _ hok => .of_wp
    (fun _ hσ hR => Fire.wp_mono (fun _ _ => Retained.keeps) (fireBoundsAdd64_keeps hok hσ hR))
    fun _ hp hR => fireBoundsAdd64_refutes hp hR,
  fun _ _ _ _ _ h0 hw h => .of_wp
    (fun _ hσ hR => Fire.wp_mono (fun _ _ => Retained.keeps) (fireBvaddConst64_keeps h0 hw h hσ hR))
    fun _ hp hR => fireBvaddConst64_refutes h0 hw h hp hR⟩

theorem addition_propagate_words :
    Propagates [0,1,2] (fun σ => σ 0 = σ 1+σ 2) (fireBoundsAdd64 0 1 2) (holding fun id =>
      if id = 1 then wideVar (-5) 7#64 64 true else wideVar 0#64 (allOnes 64) 64 false) ∧
    Propagates [0,1] (fun σ => σ 0 = (σ 1+5)%2^8) (fireBvaddConst64 8 5#64 0 1)
      (holding fun _ => wideVar 200#64 255#64 8 false) := by
  have hu : (wideVar 0#64 (allOnes 64) 64 false).Ok :=
    wideVar_ok (by decide) (by decide) (by decide) (by decide)
  have hs : (wideVar (-5) 7#64 64 true).Ok :=
    wideVar_ok (by decide) (by decide) (by decide) (by decide)
  have hb : (wideVar 200#64 255#64 8 false).Ok :=
    wideVar_ok (by decide) (by decide) (by decide) (by decide)
  refine ⟨addition_propagate.1 _ 0 1 2 fun v _ => ?_,addition_propagate.2 _ 0 1 8 5#64 (by decide)
    (by decide) ⟨fun _ _ => hb,fun _ _ => rfl,by decide,by decide⟩⟩
  change (if v = 1 then wideVar (-5) 7#64 64 true
    else wideVar 0#64 (allOnes 64) 64 false).Ok
  split_ifs
  · exact hs
  · exact hu

/-- A variable wider than the modulus: two turns are taken off as one. -/
theorem addition_wrong :
    ¬∀ (s : Engine) (rid xid w : ℕ) (c : BitVec 64), 0 < w → w < 64 →
      (∀ v ∈ [rid,xid], (s.ctx.vars v).Ok ∧ (s.ctx.vars v).signed = false) →
      Propagates [rid,xid] (fun σ => σ rid = (σ xid+c.toNat)%2^w)
        (fireBvaddConst64 w c rid xid) s := fun h => by
  have hr : (wideVar 5#64 5#64 40 false).Ok :=
    wideVar_ok (by decide) (by decide) (by decide) (by decide)
  have hx : (wideVar 2199023255557#64 2199023255557#64 48 false).Ok :=
    wideVar_ok (by decide) (by decide) (by decide) (by decide)
  have hp := h (holding fun id => if id = 0 then wideVar 5#64 5#64 40 false
    else wideVar 2199023255557#64 2199023255557#64 48 false) 0 1 40 0#64 (by decide) (by decide)
    (by
      simp only [List.mem_cons,List.not_mem_nil,or_false]
      rintro v (rfl | rfl)
      · exact ⟨hr,rfl⟩
      · exact ⟨hx,rfl⟩)
  refine hp.conflict (by decide) (fun id => if id = 0 then 5 else 2199023255557) ⟨?_,?_⟩ (by decide)
  · simp only [List.mem_cons,List.not_mem_nil,or_false]
    rintro v (rfl | rfl) <;> decide
  · simp only [List.mem_cons,List.not_mem_nil,or_false]
    rintro v (rfl | rfl) <;> decide

end Solver
end DvSolve
