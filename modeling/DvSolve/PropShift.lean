import DvSolve.PropBits

/-! Right shift and concatenation: `_fire_bounds_lshr_64` and `_fire_bounds_concat_64`. -/
namespace DvSolve
namespace Solver

open BitVec (intMin le_toInt toInt_lt toInt_sub)

variable {v : Variable} {vars : ℕ → Variable} {s : Engine}

def ashr64 (v : BitVec 64) (n : ℕ) : BitVec 64 :=
  if 0 ≤ v.toInt then v >>> n else ~~~(~~~v >>> n)

/-- `dvs_shl_i64_ovf`: the shifted number, unless it overflows. -/
def shlI64 (v : BitVec 64) (n : ℕ) : Option (BitVec 64) :=
  if n = 0 then some v
  else if 63 ≤ n then
    if v = 0#64 then some 0#64 else if v = BitVec.allOnes 64 then some (intMin 64) else none
  else if -2^63 ≤ v.toInt*2^n ∧ v.toInt*2^n < 2^63 then some (v <<< n) else none

def hugeAmount (vb : Variable) (x : BitVec 64) : BitVec 64 :=
  if !vb.signed && vb.width ≥ 64 && decide (x.toInt < 0) then BitVec.intMax 64 else x

def clampAmount (n : ℕ) (x : BitVec 64) : ℕ := min x.toInt.toNat n

/-- `maxsh`: where the amount of an unsigned shift is clamped. -/
def maxShift (v : Variable) : ℕ := if v.width ≠ 0 ∧ v.width ≤ 63 then v.width else 63

/-- The operand `a` from the result of a shift by `n`. -/
def shrBack (r a n : ℕ) : Fire :=
  .read r fun vr =>
  let rlo := varLo64 vr
  let rhi := varHi64 vr
  let up : Fire :=
    if rhi.toInt < 2^63-1 then
      match shlI64 (rhi+1#64) n with
      | some nhi => if (intMin 64).toInt < nhi.toInt then .need .ub64 a (nhi-1#64) <| .done .ok
        else .done .ok
      | none => .done .ok
    else .done .ok
  match shlI64 rlo n with
  | some nlo => .need .lb64 a nlo up
  | none => up

def fireBoundsLshr64 (r a b : ℕ) : Fire :=
  .read a fun va => .read b fun vb =>
  let alo := varLo64 va
  let ahi := varHi64 va
  let blo := hugeAmount vb (varLo64 vb)
  let bhi := hugeAmount vb (varHi64 vb)
  if va.signed then
    let l := clampAmount 63 blo
    let h := clampAmount 63 bhi
    .between r (if 0 ≤ alo.toInt then ashr64 alo h else ashr64 alo l)
      (if 0 ≤ ahi.toInt then ashr64 ahi l else ashr64 ahi h) <|
    if l = h then shrBack r a l else .done .ok
  else
    let l := clampAmount (maxShift va) blo
    let h := clampAmount (maxShift va) bhi
    if alo = ahi ∧ l = h then .between r (alo >>> l) (alo >>> l) <| .done .ok
    else if l = h ∧ 0 ≤ alo.toInt then
      .between r (alo.sshiftRight l) (ahi.sshiftRight l) <| shrBack r a l
    else if 0 ≤ alo.toInt ∧ 0 < h then
      .between r (alo.sshiftRight h) (ahi.sshiftRight l) <| .done .ok
    else .done .ok

def fireBoundsConcat64 (n r h l : ℕ) : Fire :=
  .read h fun vh => .read l fun vl =>
  let hlo := varLo64 vh
  let llo := varLo64 vl
  .when (0 ≤ hlo.toInt ∧ 0 ≤ llo.toInt ∧ n < 64)
    (.between r (hlo <<< n ||| llo) (varHi64 vh <<< n ||| varHi64 vl) <| .done .ok) <|
  .read r fun vr =>
  let rlo := varLo64 vr
  let rhi := varHi64 vr
  .when (0 ≤ rlo.toInt ∧ n < 64)
    (.between h (rlo.sshiftRight n) (rhi.sshiftRight n) <| .done .ok) <|
  .read h fun vh =>
  let base := varLo64 vh <<< n
  .when (varLo64 vh = varHi64 vh ∧ 0 ≤ rlo.toInt ∧ n < 64 ∧ 0 ≤ (rlo-base).toInt ∧ 0 ≤ (rhi-base).toInt)
    (.between l (rlo-base) (rhi-base) <| .done .ok) <|
  .when (n < 64) (.between l 0#64 (1#64 <<< n-1#64) <| .done .ok) <|
  .read r fun vr => .read h fun vh => .read l fun vl =>
  if varLo64 vr = varHi64 vr ∧ varLo64 vh = varHi64 vh ∧ varLo64 vl = varHi64 vl then .done .entailed
  else .done .ok

section Words

variable {x : BitVec 64} {n : ℕ}

theorem toInt_ushiftRight_of_nonneg (h : 0 ≤ x.toInt) : (x >>> n).toInt = x.toInt/2^n := by
  obtain ⟨h1,h2⟩ := toInt_of_nonneg h
  have hle : (x >>> n).toNat ≤ x.toNat := by
    rw [BitVec.toNat_ushiftRight,Nat.shiftRight_eq_div_pow]
    exact Nat.div_le_self _ _
  rw [toInt_of_lt (by omega),BitVec.toNat_ushiftRight,Nat.shiftRight_eq_div_pow,h1]
  rfl

theorem toInt_sshiftRight_eq (x : BitVec 64) (n : ℕ) : (x.sshiftRight n).toInt = x.toInt/2^n := by
  rw [BitVec.toInt_sshiftRight,Int.shiftRight_eq_div_pow]
  rfl

theorem ashr64_toInt (x : BitVec 64) (n : ℕ) : (ashr64 x n).toInt = x.toInt/2^n := by
  unfold ashr64
  split_ifs with h
  · exact toInt_ushiftRight_of_nonneg h
  · have hnot : ∀ y : BitVec 64, (~~~y).toInt = -1-y.toInt := fun y => by
      rw [BitVec.toInt_eq_toNat_cond,BitVec.toNat_not,BitVec.toInt_eq_toNat_cond]
      split_ifs <;> omega
    rw [hnot,toInt_ushiftRight_of_nonneg (by rw [hnot]; omega),hnot]
    have hp : (0 : ℤ) < 2^n := by positivity
    have h1 := Int.mul_ediv_add_emod x.toInt (2^n)
    have h4 := ((Int.ediv_emod_unique (a:=-1-x.toInt) (q:=-1-x.toInt/2^n)
      (r:=2^n-1-x.toInt%2^n) hp).mpr ⟨by linear_combination -h1,by omega,by omega⟩).1
    rw [h4]
    ring

/-- A shifted number that was not refused is the exact one. -/
theorem shlI64_toInt {y : BitVec 64} (hn : n ≤ 63) (h : shlI64 x n = some y) :
    y.toInt = x.toInt*2^n := by
  unfold shlI64 at h
  split_ifs at h with h0 h63 hz hm hfit
  · cases h
    simp [h0]
  · cases h
    simp [hz]
  · cases h
    obtain rfl : n = 63 := by omega
    rw [hm]
    decide
  · cases h
    have hcast : ∃ c : ℤ, (x.toNat : ℤ) = x.toInt+2^64*c := by
      by_cases hx : 0 ≤ x.toInt
      · exact ⟨0,by rw [(toInt_of_nonneg hx).1]; ring⟩
      · exact ⟨1,by rw [(toInt_of_neg (not_le.mp hx)).1]; ring⟩
    obtain ⟨c,hc⟩ := hcast
    rw [BitVec.toInt_shiftLeft,Nat.shiftLeft_eq,Nat.cast_mul,hc,
      show (x.toInt+2^64*c)*((2^n : ℕ) : ℤ) = x.toInt*2^n+((2^64 : ℕ) : ℤ)*(c*2^n) by push_cast; ring,
      Int.add_mul_bmod_self_left]
    exact Int.bmod_eq_of_le (by norm_num; omega) (by norm_num; omega)

end Words

section Shifted

variable {x y : ℤ} {m n k : ℕ}

theorem shift_far (h1 : -2^m ≤ x) (h2 : x < 2^m) (hmn : m ≤ n) :
    x/2^n = if 0 ≤ x then 0 else -1 := by
  have hp : (2 : ℤ)^m ≤ 2^n := pow_le_pow_right₀ (by norm_num) hmn
  split_ifs with h
  · exact Int.ediv_eq_zero_of_lt h (by omega)
  · exact ((Int.ediv_emod_unique (a:=x) (q:=-1) (r:=x+2^n) (by positivity)).mpr
      ⟨by ring,by omega,by omega⟩).1

theorem shift_clamp (h1 : -2^m ≤ x) (h2 : x < 2^m) (n : ℕ) : x/2^min n m = x/2^n := by
  rcases le_total n m with h | h
  · rw [min_eq_left h]
  · rw [min_eq_right h,shift_far h1 h2 h,shift_far h1 h2 (le_refl m)]

theorem shift_antitone (hx : 0 ≤ x) (h : n ≤ k) : x/2^k ≤ x/2^n := by
  obtain ⟨d,rfl⟩ := Nat.exists_eq_add_of_le h
  rw [pow_add,← Int.ediv_ediv_of_nonneg (by positivity)]
  exact Int.ediv_le_self _ (Int.ediv_nonneg hx (by positivity))

theorem shift_monotone (hx : x < 0) (h : n ≤ k) : x/2^n ≤ x/2^k := by
  obtain ⟨d,rfl⟩ := Nat.exists_eq_add_of_le h
  rw [pow_add,← Int.ediv_ediv_of_nonneg (by positivity)]
  have hneg : x/2^n < 0 := Int.ediv_neg_of_neg_of_pos hx (by positivity)
  have h1 : (1 : ℤ) ≤ 2^d := one_le_pow₀ (by norm_num)
  rw [Int.le_ediv_iff_mul_le (by positivity)]
  nlinarith

theorem shift_ge (hx : y ≤ x) {i j : ℕ} (hi : i ≤ n) (hj : n ≤ j) :
    (if 0 ≤ y then y/2^j else y/2^i) ≤ x/2^n := by
  have hmono : y/2^n ≤ x/2^n := Int.ediv_le_ediv (by positivity) hx
  split_ifs with h
  · exact (shift_antitone h hj).trans hmono
  · exact (shift_monotone (not_le.mp h) hi).trans hmono

theorem shift_le (hx : x ≤ y) {i j : ℕ} (hi : i ≤ n) (hj : n ≤ j) :
    x/2^n ≤ (if 0 ≤ y then y/2^i else y/2^j) := by
  have hmono : x/2^n ≤ y/2^n := Int.ediv_le_ediv (by positivity) hx
  split_ifs with h
  · exact hmono.trans (shift_antitone h hi)
  · exact hmono.trans (shift_monotone (not_le.mp h) hj)

end Shifted

section Lshr

variable {r a b : ℕ} {σ : ℕ → ℤ} {W : List ℕ} {vars₀ : ℕ → Variable} {n : ℕ}

/-- `r` is the floor of `a` by the power of `b`, an amount below zero counting as zero. -/
def ShrRel (r a b : ℕ) (σ : ℕ → ℤ) : Prop := σ r = σ a/2^(σ b).toNat

/-- What `_binop_exact` admits: the bounds of the operands read as their numbers, and an
unsigned result has an operand that is not negative. -/
structure Admitted (r a b : ℕ) (vars : ℕ → Variable) : Prop where
  ok : ∀ v ∈ [r,a,b], (vars v).Ok
  left : rng64 (vars a) = true
  right : rng64 (vars b) = true
  sign : (vars r).signed = false → 0 ≤ (vars a).least

theorem toInt_of_ord_lt {c : BitVec 64} (h : varOrd v c < 2^63) : c.toInt = varOrd v c := by
  cases hb : v.beyond
  · exact (varOrd_plain hb c).symm
  · rw [varOrd_beyond hb] at h ⊢
    exact toInt_of_lt (by omega)

theorem Fire.wp_between_read {Q : PropResult → (ℕ → Variable) → Prop} {lo hi : BitVec 64} {k : Fire}
    (ht : Typed W vars₀ vars) (hσ : Inside W vars σ) (hr : r ∈ W) (hlo : lo.toInt ≤ σ r)
    (hhi : σ r ≤ hi.toInt) (hn : (vars₀ r).beyond = true → 0 ≤ lo.toInt)
    (hk : ∀ vars', Typed W vars₀ vars' → Inside W vars' σ → lo.toInt ≤ (varLo64 (vars' r)).toInt →
      (varLo64 (vars' r)).toInt ≤ σ r → σ r ≤ (varHi64 (vars' r)).toInt → k.wp Q vars') :
    (Fire.between r lo hi k).wp Q vars := by
  have hl : varOrd (vars₀ r) lo = lo.toInt := varOrd_of_nonneg hn
  have hh : varOrd (vars₀ r) hi = hi.toInt := varOrd_of_nonneg fun hb => by
    have := hn hb
    omega
  have hi63 := toInt_lt (x := hi)
  refine Fire.wp_between_moved ht hσ hr (by omega) (by omega) fun vars₁ ht hσ h1 h2 => ?_
  have h3 := hσ.least r hr
  have h4 := hσ.most r hr
  have h5 : (varLo64 (vars₁ r)).toInt = (vars₁ r).least :=
    toInt_of_ord_lt (v:=vars₁ r) (by unfold Variable.least at h3; omega)
  have h6 : (varHi64 (vars₁ r)).toInt = (vars₁ r).most :=
    toInt_of_ord_lt (v:=vars₁ r) (by unfold Variable.most at h2; omega)
  exact hk vars₁ ht hσ (by omega) (by omega) (by omega)

theorem shrBack_wp (ht : Typed W vars₀ vars) (hσ : Inside W vars σ) (ha : a ∈ W)
    (hn : n ≤ 63) (hR : σ r = σ a/2^n) (hlo : (varLo64 (vars r)).toInt ≤ σ r)
    (hhi : σ r ≤ (varHi64 (vars r)).toInt)
    (hpos : (vars₀ a).beyond = true → 0 ≤ (varLo64 (vars r)).toInt) :
    (shrBack r a n).wp (Retained W vars₀ σ) vars := by
  have hp : (0 : ℤ) < 2^n := by positivity
  have h1 : σ r*2^n ≤ σ a := by
    rw [hR]
    exact Int.ediv_mul_le _ hp.ne'
  have h2 : σ a < (σ r+1)*2^n := by
    rw [hR]
    exact Int.lt_ediv_add_one_mul_self _ hp
  have hup : ∀ vars', Typed W vars₀ vars' → Inside W vars' σ → (if (varHi64 (vars r)).toInt < 2^63-1 then
        match shlI64 (varHi64 (vars r)+1#64) n with
        | some nhi => if (intMin 64).toInt < nhi.toInt then
            Fire.need .ub64 a (nhi-1#64) <| .done .ok
          else .done .ok
        | none => .done .ok
      else .done .ok).wp (Retained W vars₀ σ) vars' := fun vars' ht hσ => by
    have hdone : (Fire.done .ok).wp (Retained W vars₀ σ) vars' := ⟨rfl,ht,hσ⟩
    split_ifs with hmax
    · split
      · rename_i nhi hnhi
        split_ifs with hmin
        · have h3 := shlI64_toInt hn hnhi
          have hmin' : -2^63 < nhi.toInt := hmin
          have h4 := toInt_lt (x := nhi)
          have h5 : (varHi64 (vars r)+1#64).toInt = (varHi64 (vars r)).toInt+1 := by
            have := le_toInt (varHi64 (vars r))
            rw [BitVec.toInt_add]
            exact Int.bmod_eq_of_le (by norm_num; omega) (by norm_num; omega)
          have h6 : (nhi-1#64).toInt = nhi.toInt-1 := by
            rw [toInt_sub]
            exact Int.bmod_eq_of_le (by norm_num; omega) (by norm_num; omega)
          rw [h5] at h3
          have h7 : σ a < nhi.toInt := h2.trans_le (by rw [h3]; nlinarith)
          refine Fire.wp_ub64 ht hσ ha ?_ fun _ ht hσ => ⟨rfl,ht,hσ⟩
          rw [varOrd_of_nonneg fun hb => ?_,h6]
          · omega
          · have h8 := hpos hb
            have h9 : 0 ≤ σ r*2^n := mul_nonneg (hlo.trans' h8) hp.le
            rw [h6]
            omega
        · exact hdone
      · exact hdone
    · exact hdone
  simp only [shrBack,Fire.wp]
  split
  · rename_i nlo hnlo
    have h3 := shlI64_toInt hn hnlo
    refine Fire.wp_lb64 ht hσ ha ?_ hup
    rw [varOrd_of_nonneg fun hb => by rw [h3]; exact mul_nonneg (hpos hb) hp.le,h3]
    nlinarith
  · exact hup vars ht hσ

theorem hugeAmount_eq (h : rng64 v = true) :
    hugeAmount v (varLo64 v) = varLo64 v ∧ hugeAmount v (varHi64 v) = varHi64 v := by
  unfold rng64 at h
  constructor <;> refine if_neg fun hc => ?_ <;>
    (change (v.beyond && _) = true at hc; rw [Bool.and_eq_true] at hc; simp [hc.1] at h hc; omega)

theorem clampAmount_le {lo : BitVec 64} {x : ℤ} (h : lo.toInt ≤ x) (m : ℕ) :
    clampAmount m lo ≤ min x.toNat m := by
  unfold clampAmount
  omega

theorem le_clampAmount {hi : BitVec 64} {x : ℤ} (h : x ≤ hi.toInt) (m : ℕ) :
    min x.toNat m ≤ clampAmount m hi := by
  unfold clampAmount
  omega

theorem lt_maxShift (hv : v.Ok) (hs : v.signed = false) (hr : rng64 v = true) :
    0 ≤ (varLo64 v).toInt ∧ (varHi64 v).toInt < 2^maxShift v ∧ maxShift v ≤ 63 := by
  have hbot := hv.bot
  have htop := hv.top
  rw [least_of_rng64 hr] at hbot
  rw [most_of_rng64 hr] at htop
  simp only [Variable.bot,Variable.top,hs,Bool.false_eq_true,if_false] at hbot htop
  have := toInt_lt (x := varHi64 v)
  unfold maxShift
  split_ifs with hw
  · exact ⟨hbot,by omega,hw.2⟩
  · exact ⟨hbot,by norm_num; omega,le_refl _⟩

theorem Admitted.nonneg (h : Admitted r a b vars) (hb : (vars r).beyond = true) :
    0 ≤ (varLo64 (vars a)).toInt := by
  have := h.sign (by simp [Variable.beyond] at hb; exact hb.1)
  rwa [least_of_rng64 h.left] at this

theorem fireBoundsLshr64_keeps (h : Admitted r a b s.ctx.vars) (hσ : Inside [r,a,b] s.ctx.vars σ)
    (hR : ShrRel r a b σ) :
    (fireBoundsLshr64 r a b).wp (Retained [r,a,b] s.ctx.vars σ) s.ctx.vars := by
  have hT : Typed [r,a,b] s.ctx.vars s.ctx.vars := .refl h.ok
  obtain ⟨hbl,hbh⟩ := hugeAmount_eq h.right
  obtain ⟨_,a2,a3,a4⟩ := operand_toInt h.left (hσ.least a (by simp)) (hσ.most a (by simp))
  obtain ⟨_,b2,b3,_⟩ := operand_toInt h.right (hσ.least b (by simp)) (hσ.most b (by simp))
  have hspec : ∀ m : ℕ, -2^m ≤ σ a → σ a < 2^m → σ r = σ a/2^min (σ b).toNat m :=
    fun m h1 h2 => hR.trans (shift_clamp h1 h2 _).symm
  have hl := clampAmount_le b2
  have hh := le_clampAmount b3
  simp only [fireBoundsLshr64,Fire.wp,hbl,hbh]
  by_cases hsg : (s.ctx.vars a).signed = true
  · rw [if_pos hsg]
    have h1 := le_toInt (varLo64 (s.ctx.vars a))
    have h2 := toInt_lt (x := varHi64 (s.ctx.vars a))
    have hr := hspec 63 (by norm_num; omega) (by norm_num; omega)
    refine Fire.wp_between_read hT hσ (by simp) ?_ ?_ (fun hb => ?_) fun vars₁ hT hσ _ g2 g3 => ?_
    · rw [apply_ite BitVec.toInt,ashr64_toInt,ashr64_toInt,hr]
      exact shift_ge a2 (hl 63) (hh 63)
    · rw [apply_ite BitVec.toInt,ashr64_toInt,ashr64_toInt,hr]
      exact shift_le a3 (hl 63) (hh 63)
    · rw [if_pos (h.nonneg hb),ashr64_toInt]
      exact Int.ediv_nonneg (h.nonneg hb) (by positivity)
    · split_ifs with heq
      · have hl' := hl 63
        have hh' := hh 63
        refine shrBack_wp hT hσ (by simp) ?_ ?_ g2 g3 fun hb => ?_
        · exact min_le_right _ _
        · rw [hr,le_antisymm hl' (heq ▸ hh')]
        · simp [Variable.beyond,hsg] at hb
      · exact ⟨rfl,hT,hσ⟩
  · rw [if_neg hsg]
    obtain ⟨p1,p2,p3⟩ := lt_maxShift (h.ok a (by simp)) (by simpa using hsg) h.left
    generalize maxShift (s.ctx.vars a) = m at *
    have hr := hspec m (by omega) (by omega)
    have hl' := hl m
    have hh' := hh m
    generalize clampAmount m (varLo64 (s.ctx.vars b)) = l at *
    generalize clampAmount m (varHi64 (s.ctx.vars b)) = g at *
    have hge := shift_ge a2 hl' hh'
    have hle := shift_le a3 hl' hh'
    rw [if_pos p1,← hr] at hge
    rw [if_pos (show 0 ≤ (varHi64 (s.ctx.vars a)).toInt by omega),← hr] at hle
    have hnn : ∀ k : ℕ, 0 ≤ (varLo64 (s.ctx.vars a)).toInt/2^k := fun k =>
      Int.ediv_nonneg p1 (by positivity)
    split_ifs with hfix hone hmany
    · rw [← hfix.1,← toInt_ushiftRight_of_nonneg p1] at hle
      rw [← hfix.2,← toInt_ushiftRight_of_nonneg p1] at hge
      refine Fire.wp_between_read hT hσ (by simp) hge hle (fun _ => ?_)
        fun vars₁ hT hσ _ _ _ => ⟨rfl,hT,hσ⟩
      rw [toInt_ushiftRight_of_nonneg p1]
      exact hnn l
    · rw [← hone.1,← toInt_sshiftRight_eq] at hge
      rw [← toInt_sshiftRight_eq] at hle
      have hn0 : 0 ≤ ((varLo64 (s.ctx.vars a)).sshiftRight l).toInt := by
        rw [toInt_sshiftRight_eq]
        exact hnn l
      refine Fire.wp_between_read hT hσ (by simp) hge hle (fun _ => hn0) fun vars₁ hT hσ g1 g2 g3 => ?_
      exact shrBack_wp hT hσ (by simp) (by omega)
        (by rw [hr,le_antisymm hl' (hone.1 ▸ hh')]) g2 g3 fun _ => hn0.trans g1
    · rw [← toInt_sshiftRight_eq] at hge hle
      refine Fire.wp_between_read hT hσ (by simp) hge hle (fun _ => ?_)
        fun vars₁ hT hσ _ _ _ => ⟨rfl,hT,hσ⟩
      rw [toInt_sshiftRight_eq]
      exact hnn g
    · exact ⟨rfl,hT,hσ⟩

theorem fireBoundsLshr64_refutes (h : Admitted r a b s.ctx.vars) (hp : Pinned [r,a,b] s.ctx.vars σ)
    (hR : ¬ShrRel r a b σ) :
    (fireBoundsLshr64 r a b).wp (fun res _ => res = .conflict) s.ctx.vars := by
  have hT : Typed [r,a,b] s.ctx.vars s.ctx.vars := .refl h.ok
  have hσ := hp.inside
  obtain ⟨hbl,hbh⟩ := hugeAmount_eq h.right
  obtain ⟨a1,a2,a3,a4⟩ := operand_toInt h.left (hσ.least a (by simp)) (hσ.most a (by simp))
  obtain ⟨b1,b2,b3,_⟩ := operand_toInt h.right (hσ.least b (by simp)) (hσ.most b (by simp))
  have hfa := hp.fixed (show a ∈ [r,a,b] by simp)
  have hfb := hp.fixed (show b ∈ [r,a,b] by simp)
  have hA : (varLo64 (s.ctx.vars a)).toInt = σ a := by
    rw [← hfa] at a3
    omega
  have hB : (varLo64 (s.ctx.vars b)).toInt = σ b := by
    rw [← hfb] at b3
    omega
  -- whichever branch is taken, both bounds are the shifted number
  have hend : ∀ (m : ℕ) (x : BitVec 64) (f : Fire), -2^m ≤ σ a → σ a < 2^m →
      x.toInt = σ a/2^min (σ b).toNat m →
      (Fire.between r x x f).wp (fun res _ => res = .conflict) s.ctx.vars := fun m x f h1 h2 hx => by
    refine Fire.wp_between_pinned hT hp (by simp) (fun _ => rfl) fun g1 g2 _ _ _ => absurd ?_ hR
    rw [shift_clamp h1 h2] at hx
    rw [varOrd_of_nonneg fun hb => by
      rw [hx]
      exact Int.ediv_nonneg (hA ▸ h.nonneg hb) (by positivity)] at g1 g2
    exact (le_antisymm g1 g2).symm.trans hx
  simp only [fireBoundsLshr64,Fire.wp,hbl,← hfa,← hfb,hA]
  have hcl : ∀ m, clampAmount m (varLo64 (s.ctx.vars b)) = min (σ b).toNat m := fun m => by
    rw [clampAmount,hB]
  by_cases hsg : (s.ctx.vars a).signed = true
  · rw [if_pos hsg,ite_self]
    have h1 := le_toInt (varLo64 (s.ctx.vars a))
    have h2 := toInt_lt (x := varLo64 (s.ctx.vars a))
    exact hend 63 _ _ (by norm_num; omega) (by norm_num; omega) (by rw [ashr64_toInt,hA,hcl])
  · rw [if_neg hsg,if_pos ⟨trivial,trivial⟩]
    obtain ⟨p1,p2,p3⟩ := lt_maxShift (h.ok a (by simp)) (by simpa using hsg) h.left
    rw [hA] at p1
    rw [← hfa,hA] at p2
    exact hend _ _ _ (by omega) p2 (by rw [toInt_ushiftRight_of_nonneg (hA ▸ p1),hA,hcl])

theorem fireBoundsLshr64_propagates (h : Admitted r a b s.ctx.vars) :
    Propagates [r,a,b] (ShrRel r a b) (fireBoundsLshr64 r a b) s :=
  .of_wp (fun _ hσ hR => Fire.wp_mono (fun _ _ => Retained.keeps) (fireBoundsLshr64_keeps h hσ hR))
    fun _ hp hR => fireBoundsLshr64_refutes h hp hR

end Lshr

section Concat

variable {n r h l : ℕ} {σ : ℕ → ℤ}

/-- `r` is the part `h` above the `n` bits of the part `l`. -/
def ConcatRel (n r h l : ℕ) (σ : ℕ → ℤ) : Prop := σ r = σ h*2^n+σ l

/-- Unsigned parts, the lower of width `n`, of at most 63 bits together. -/
structure Parts (n r h l : ℕ) (vars : ℕ → Variable) : Prop where
  ok : ∀ v ∈ [r,h,l], (vars v).Ok
  high : (vars h).signed = false
  low : (vars l).signed = false
  width : (vars l).width = n
  total : (vars h).width+n ≤ 63

theorem part_toInt {b : BitVec 64} (hs : v.signed = false) (hw : v.width < 64) :
    varOrd v b = b.toInt := varOrd_plain (by simp [Variable.beyond,hs]; omega) b

theorem concat_toInt {H L : BitVec 64} {p : ℕ} (hH : 0 ≤ H.toInt) (hH' : H.toInt < 2^p)
    (hL : 0 ≤ L.toInt) (hL' : L.toInt < 2^n) (hp : p+n ≤ 63) :
    (H <<< n ||| L).toInt = H.toInt*2^n+L.toInt ∧ (H <<< n).toInt = H.toInt*2^n := by
  obtain ⟨h1,h2⟩ := toInt_of_nonneg hH
  obtain ⟨h3,h4⟩ := toInt_of_nonneg hL
  have hHn : H.toNat < 2^p := by
    have : ((2^p : ℕ) : ℤ) = 2^p := by push_cast; rfl
    omega
  have hLn : L.toNat < 2^n := by
    have : ((2^n : ℕ) : ℤ) = 2^n := by push_cast; rfl
    omega
  have htop : H.toNat*2^n+2^n ≤ 2^63 := by
    calc H.toNat*2^n+2^n = (H.toNat+1)*2^n := by ring
      _ ≤ 2^p*2^n := Nat.mul_le_mul_right _ hHn
      _ = 2^(p+n) := (pow_add _ _ _).symm
      _ ≤ 2^63 := Nat.pow_le_pow_right (by decide) hp
  have hshift : (H <<< n).toNat = H.toNat*2^n := by
    rw [BitVec.toNat_shiftLeft,Nat.shiftLeft_eq,Nat.mod_eq_of_lt (by omega)]
  have hor : (H <<< n ||| L).toNat = H.toNat*2^n+L.toNat := by
    rw [BitVec.toNat_or,hshift,Nat.mul_comm,Nat.two_pow_add_eq_or_of_lt hLn]
  constructor
  · rw [toInt_of_lt (by omega),hor,h1,h3]
    push_cast
    ring
  · rw [toInt_of_lt (by omega),hshift,h1]
    push_cast
    ring

theorem Parts.range (hp : Parts n r h l vars) (hσ : Inside [r,h,l] vars σ) :
    (0 ≤ (varLo64 (vars h)).toInt ∧ (varLo64 (vars h)).toInt ≤ σ h ∧
      σ h ≤ (varHi64 (vars h)).toInt ∧ (varHi64 (vars h)).toInt < 2^(vars h).width) ∧
    (0 ≤ (varLo64 (vars l)).toInt ∧ (varLo64 (vars l)).toInt ≤ σ l ∧
      σ l ≤ (varHi64 (vars l)).toInt ∧ (varHi64 (vars l)).toInt < 2^n) := by
  have htot := hp.total
  have hw := hp.width
  have key : ∀ v ∈ [r,h,l], (vars v).signed = false → (vars v).width < 64 →
      0 ≤ (varLo64 (vars v)).toInt ∧ (varLo64 (vars v)).toInt ≤ σ v ∧
        σ v ≤ (varHi64 (vars v)).toInt ∧ (varHi64 (vars v)).toInt < 2^(vars v).width :=
    fun v hv hs hw => by
      have h1 := hσ.least v hv
      have h2 := hσ.most v hv
      have h3 := (hp.ok v hv).bot
      have h4 := (hp.ok v hv).top
      simp only [Variable.bot,Variable.top,hs,Bool.false_eq_true,if_false,Variable.least,
        Variable.most,part_toInt hs hw] at h1 h2 h3 h4
      omega
  have h1 := key h (by simp) hp.high (by omega)
  have h2 := key l (by simp) hp.low (by omega)
  rw [hw] at h2
  exact ⟨h1,h2⟩

theorem Parts.lt (hp : Parts n r h l vars) : n < 63 := by
  have := hp.total
  have := (hp.ok h (by simp)).pos
  omega

theorem Parts.forward (hp : Parts n r h l vars) (hσ : Inside [r,h,l] vars σ) :
    (varLo64 (vars h) <<< n ||| varLo64 (vars l)).toInt
        = (varLo64 (vars h)).toInt*2^n+(varLo64 (vars l)).toInt ∧
      (varHi64 (vars h) <<< n ||| varHi64 (vars l)).toInt
        = (varHi64 (vars h)).toInt*2^n+(varHi64 (vars l)).toInt := by
  obtain ⟨⟨h1,h2,h3,h4⟩,⟨l1,l2,l3,l4⟩⟩ := hp.range hσ
  exact ⟨(concat_toInt h1 (by omega) l1 (by omega) hp.total).1,
    (concat_toInt (by omega) h4 (by omega) l4 hp.total).1⟩

theorem fireBoundsConcat64_keeps (hp : Parts n r h l s.ctx.vars)
    (hσ : Inside [r,h,l] s.ctx.vars σ) (hR : ConcatRel n r h l σ) :
    (fireBoundsConcat64 n r h l).wp (fun res vars => res ≠ .conflict ∧ Inside [r,h,l] vars σ)
      s.ctx.vars := by
  have hT : Typed [r,h,l] s.ctx.vars s.ctx.vars := .refl hp.ok
  have hn := hp.lt
  have htot := hp.total
  have hp0 : (0 : ℤ) < 2^n := by positivity
  obtain ⟨⟨h1,h2,h3,h4⟩,⟨l1,l2,l3,l4⟩⟩ := hp.range hσ
  obtain ⟨f1,f2⟩ := hp.forward hσ
  have hplain : ∀ b, varOrd (s.ctx.vars h) b = b.toInt := fun b => part_toInt hp.high (by omega)
  have hplain' : ∀ b, varOrd (s.ctx.vars l) b = b.toInt := fun b =>
    part_toInt hp.low (by have := hp.width; omega)
  have hdiv : σ r/2^n = σ h := by
    rw [hR,add_comm,Int.add_mul_ediv_right _ _ hp0.ne',
      Int.ediv_eq_zero_of_lt (by omega) (by omega),zero_add]
  simp only [fireBoundsConcat64,Fire.wp]
  rw [Fire.when,if_pos ⟨h1,l1,by omega⟩,Fire.between_andThen,Fire.ok_andThen]
  refine Fire.wp_between_read hT hσ (by simp) (by rw [f1,hR]; nlinarith)
    (by rw [f2,hR]; nlinarith) (fun _ => by rw [f1]; positivity) fun vars₁ hT hσ _ g2 g3 => ?_
  simp only [Fire.wp]
  generalize varLo64 (vars₁ r) = rlo at *
  generalize varHi64 (vars₁ r) = rhi at *
  refine Fire.wp_when_between hT hσ (by simp) (fun _ => ?_) fun vars₂ hT hσ => ?_
  · rw [hplain,hplain,toInt_sshiftRight_eq,toInt_sshiftRight_eq,← hdiv]
    exact ⟨Int.ediv_le_ediv hp0 g2,Int.ediv_le_ediv hp0 g3⟩
  simp only [Fire.wp]
  refine Fire.wp_when_between hT hσ (by simp) (fun hcond => ?_) fun vars₃ hT hσ => ?_
  · obtain ⟨hfix,hr0,_⟩ := hcond
    have hhw := word_of_fixed (hT.ok h (by simp)) hfix (hσ.least h (by simp)) (hσ.most h (by simp))
    have hlt : σ h < 2^(s.ctx.vars h).width := by omega
    have hpow : (2 : ℤ)^(s.ctx.vars h).width ≤ 2^63 := pow_le_pow_right₀ (by norm_num) (by omega)
    have hH := toInt_ofInt_of (x:=σ h) (by omega) (by omega)
    have hbase := (concat_toInt (H:=varLo64 (vars₂ h)) (L:=0#64) (n:=n) (by rw [hhw,hH]; omega)
      (by rw [hhw,hH]; exact hlt) (by simp) (by simp) htot).2
    rw [hhw,hH] at hbase
    have hb0 : 0 ≤ σ h*2^n := mul_nonneg (by omega) hp0.le
    have hR' : σ r = σ h*2^n+σ l := hR
    have hr63 := toInt_lt (x := rhi)
    have hsub : ∀ x : BitVec 64, 0 ≤ x.toInt → x.toInt ≤ rhi.toInt →
        (x-varLo64 (vars₂ h) <<< n).toInt = x.toInt-σ h*2^n := fun x hx hx' => by
      rw [toInt_sub,hhw,hbase]
      exact Int.bmod_eq_of_le (by norm_num; omega) (by norm_num; omega)
    rw [hplain',hplain',hsub rlo hr0 (by omega),hsub rhi (by omega) (by omega)]
    omega
  refine Fire.wp_when_between hT hσ (by simp) (fun _ => ?_) fun vars₄ hT hσ => ?_
  · have hone : (1#64 <<< n-1#64).toInt = 2^n-1 := by
      have hp62 : (2 : ℤ)^n ≤ 2^62 := pow_le_pow_right₀ (by norm_num) (by omega)
      rw [toInt_sub,toInt_one_shiftLeft hn]
      exact Int.bmod_eq_of_le (by norm_num; omega) (by norm_num; omega)
    rw [hplain',hplain',hone]
    simp
    omega
  · simp only [Fire.wp]
    split_ifs
    · exact ⟨by simp,hσ⟩
    · exact ⟨by simp,hσ⟩

theorem fireBoundsConcat64_refutes (hp : Parts n r h l s.ctx.vars)
    (hσ : Pinned [r,h,l] s.ctx.vars σ) (hR : ¬ConcatRel n r h l σ) :
    (fireBoundsConcat64 n r h l).wp (fun res _ => res = .conflict) s.ctx.vars := by
  obtain ⟨⟨h1,h2,h3,h4⟩,⟨l1,l2,l3,l4⟩⟩ := hp.range hσ.inside
  obtain ⟨f1,f2⟩ := hp.forward hσ.inside
  have hn := hp.lt
  have hfh := hσ.fixed (show h ∈ [r,h,l] by simp)
  have hfl := hσ.fixed (show l ∈ [r,h,l] by simp)
  simp only [fireBoundsConcat64,Fire.wp]
  rw [Fire.when,if_pos ⟨h1,l1,by omega⟩,Fire.between_andThen]
  refine Fire.wp_between_pinned (.refl hp.ok) hσ (by simp) (fun _ => rfl)
    fun g1 g2 _ _ _ => absurd ?_ hR
  have hH : (varLo64 (s.ctx.vars h)).toInt = σ h := by
    rw [← hfh] at h3
    omega
  have hL : (varLo64 (s.ctx.vars l)).toInt = σ l := by
    rw [← hfl] at l3
    omega
  have hnn : 0 ≤ (varLo64 (s.ctx.vars h)).toInt*2^n+(varLo64 (s.ctx.vars l)).toInt := by positivity
  rw [varOrd_of_nonneg fun _ => by rw [f1]; exact hnn,f1] at g1
  rw [← hfh,← hfl,varOrd_of_nonneg fun _ => by rw [f1]; exact hnn,f1] at g2
  rw [ConcatRel,← hH,← hL]
  exact le_antisymm g2 g1

theorem fireBoundsConcat64_propagates (hp : Parts n r h l s.ctx.vars) :
    Propagates [r,h,l] (ConcatRel n r h l) (fireBoundsConcat64 n r h l) s :=
  .of_wp (fun _ hσ hR => fireBoundsConcat64_keeps hp hσ hR)
    fun _ hσ hR => fireBoundsConcat64_refutes hp hσ hR

end Concat

section Both

variable {r a b : ℕ} {σ : ℕ → ℤ}

theorem ShrRel.far (h : Admitted r a b vars) (hσ : Inside [r,a,b] vars σ) (hR : ShrRel r a b σ)
    (hw : (vars a).width ≤ σ b) : σ r = if 0 ≤ σ a then 0 else -1 := by
  have hok := h.ok a (by simp)
  have hin := hok.inType (hσ.least a (by simp)) (hσ.most a (by simp))
  have hp : (2 : ℤ)^((vars a).width-1) ≤ 2^(vars a).width :=
    pow_le_pow_right₀ (by norm_num) (Nat.sub_le _ _)
  rw [hR]
  refine shift_far (m:=(vars a).width) ?_ ?_ (by omega)
  all_goals
    simp only [Variable.bot,Variable.top] at hin
    split_ifs at hin <;> omega

theorem shift_concat_propagate :
    (∀ (s : Engine) (r a b : ℕ), Admitted r a b s.ctx.vars →
      Propagates [r,a,b] (ShrRel r a b) (fireBoundsLshr64 r a b) s ∧
        ∀ σ, Inside [r,a,b] s.ctx.vars σ → ShrRel r a b σ → (s.ctx.vars a).width ≤ σ b →
          σ r = if 0 ≤ σ a then 0 else -1) ∧
      ∀ (s : Engine) (n r h l : ℕ), Parts n r h l s.ctx.vars →
        Propagates [r,h,l] (ConcatRel n r h l) (fireBoundsConcat64 n r h l) s := by
  refine ⟨fun s r a b h => ⟨?_,fun σ hσ hR hw => ?_⟩,fun s n r h l hp => ?_⟩
  · exact fireBoundsLshr64_propagates h
  · exact hR.far h hσ hw
  · exact fireBoundsConcat64_propagates hp

theorem shift_concat_propagate_nibbles :
    Propagates [0,1,2] (ShrRel 0 1 2) (fireBoundsLshr64 0 1 2)
      (holding fun _ => wideVar 1#64 5#64 8 true) ∧
    Propagates [0,1,2] (ConcatRel 4 0 1 2) (fireBoundsConcat64 4 0 1 2)
      (holding fun _ => wideVar 1#64 5#64 4 false) :=
  ⟨(shift_concat_propagate.1 _ 0 1 2 ⟨fun _ _ => wideVar_ok (by decide) (by decide) (by decide)
      (by decide),by decide,by decide,fun h => by simp [holding,wideVar] at h⟩).1,
    shift_concat_propagate.2 _ 4 0 1 2 ⟨fun _ _ => wideVar_ok (by decide) (by decide) (by decide)
      (by decide),rfl,rfl,rfl,by decide⟩⟩

def FloorRel (r a b : ℕ) (σ : ℕ → ℤ) : Prop := σ r = ⌊(σ a : ℚ)/(2 : ℚ)^σ b⌋

def fixedBytes (σ : ℕ → ℤ) : Engine :=
  holding fun v => wideVar (BitVec.ofInt 64 (σ v)) (BitVec.ofInt 64 (σ v)) 8 true

def upShift : ℕ → ℤ := fun v => if v = 0 then 2 else if v = 1 then 1 else -1

theorem upShift_admitted : Admitted 0 1 2 (fixedBytes upShift).ctx.vars := by
  refine ⟨fun v hv => ?_,by decide,by decide,fun h => by simp [fixedBytes,holding,wideVar] at h⟩
  simp only [List.mem_cons,List.not_mem_nil,or_false] at hv
  rcases hv with rfl | rfl | rfl <;>
    exact wideVar_ok (by decide) (by decide) (by decide) (by decide)

theorem upShift_pinned : Pinned [0,1,2] (fixedBytes upShift).ctx.vars upShift := by
  constructor <;> decide

/-- The fire takes the amount for zero and finds a conflict. -/
theorem shift_negative_amount : Admitted 0 1 2 (fixedBytes upShift).ctx.vars ∧
    ¬Propagates [0,1,2] (FloorRel 0 1 2) (fireBoundsLshr64 0 1 2) (fixedBytes upShift) := by
  refine ⟨upShift_admitted,fun h => ?_⟩
  have hconf := (fireBoundsLshr64_propagates upShift_admitted).refutes _ upShift_pinned
    (by unfold ShrRel upShift; decide)
  exact h.conflict hconf upShift upShift_pinned.inside (by norm_num [FloorRel,upShift])

end Both

end Solver
end DvSolve
