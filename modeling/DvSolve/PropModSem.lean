import DvSolve.PropDivSem

/-! What the remainder propagators keep and lose, and both operations together. -/
namespace DvSolve
namespace Solver

open BitVec (eq_of_toInt_eq intMin le_toInt toInt_add toInt_lt toInt_neg toInt_srem toInt_sub)
open Int (bmod_eq_of_le emod_lt_of_pos emod_nonneg)
open List (mem_cons not_mem_nil)

variable {v : Variable} {vars : ℕ → Variable} {s : Engine}

section Mod

variable {r a b n : ℕ} {σ : ℕ → ℤ} {num : BitVec 64 → ℤ}
  {within : BitVec 64 → BitVec 64 → Fire → Fire}

def ModRel (r a b : ℕ) (σ : ℕ → ℤ) : Prop := σ r = (σ a).tmod (σ b)

/-- The solutions that the signed part loses: as large as the greatest divisor when the least
one has no opposite; and with an unsigned result of 64 bits beside a negative dividend. -/
def ModLost (r a b : ℕ) (vars : ℕ → Variable) (σ : ℕ → ℤ) : Prop :=
  (vars b).least = -2^63 ∧ (vars b).most ≠ -2^63 ∧ (vars b).most ≠ 0 ∧ |(vars b).most| ≤ |σ r| ∨
  (vars r).beyond = true ∧ (vars a).least < 0 ∧
    ((vars b).least ≠ -2^63 ∧ 2 ≤ |(vars b).least| ∨ (vars b).most ≠ -2^63 ∧ 2 ≤ |(vars b).most|)

/-- The step up from the dividend `x` to the remainder `q` of `k` leaves the 64 bits and comes
back negative. -/
def UpOut (q x k : ℤ) : Prop := 2^63 ≤ q-x%k+k ∧ x < (2^64-(q-x%k+k))%k

/-- The same down, where it comes back past the 64 bits. -/
def DownOut (q x k : ℤ) : Prop := 2^63 ≤ x%k-q+k ∧ 2^63 ≤ x+(2^64-(x%k-q+k))%k

/-- The solutions that the unsigned part loses: with a fixed remainder by a fixed divisor, where
the step from an end of the dividend comes back as a bound. -/
def StepLost (r a b : ℕ) (vars : ℕ → Variable) (σ : ℕ → ℤ) : Prop :=
  (vars b).least = (vars b).most ∧
  ((vars r).least = (vars r).most ∨ (vars r).least = (vars b).least-1) ∧
    ((vars a).beyond = true ∧ UpOut (σ r) (vars a).least (vars b).least ∨
      DownOut (σ r) (vars a).most (vars b).least)

theorem absWord_toInt (x : BitVec 64) :
    (absWord x).toInt = if x.toInt = -2^63 then -2^63 else |x.toInt| := by
  have h1 := le_toInt x
  have h2 := toInt_lt (x := x)
  unfold absWord
  split_ifs with h h3 h3
  · rw [toInt_neg,h3]
    decide
  · rw [toInt_neg,abs_of_neg h]
    exact bmod_eq_of_le (by norm_num; omega) (by norm_num; omega)
  · omega
  · rw [abs_of_nonneg (not_lt.mp h)]

/-- The ends of the remainder, from the greatest absolute value `M` of a divisor. -/
theorem remEnds {M : BitVec 64} (hM : 1 ≤ M.toInt) (x : BitVec 64) :
    (if 0 ≤ x.toInt then 0#64 else -(M-1#64)).toInt = (if 0 ≤ x.toInt then 0 else -(M.toInt-1)) ∧
    (if x.toInt ≤ 0 then 0#64 else M-1#64).toInt = if x.toInt ≤ 0 then 0 else M.toInt-1 := by
  have h2 := toInt_lt (x := M)
  have h1 : (M-1#64).toInt = M.toInt-1 := by
    rw [toInt_sub]
    exact bmod_eq_of_le (by simp; omega) (by simp; omega)
  have h3 : (-(M-1#64)).toInt = -(M.toInt-1) := by
    rw [toInt_neg,h1]
    exact bmod_eq_of_le (by norm_num; omega) (by norm_num; omega)
  constructor
  · split_ifs
    · exact BitVec.toInt_zero
    · exact h3
  · split_ifs
    · exact BitVec.toInt_zero
    · exact h1

theorem DivSetting.rem (h : DivSetting r a b n vars num within σ)
    (ha : varLo64 (vars a) = varHi64 (vars a)) (hb : varLo64 (vars b) = varHi64 (vars b)) :
    (svSmod64 (varLo64 (vars a)) (varLo64 (vars b))).toInt = (σ a).tmod (σ b) ∧
      Asked (vars r) num (σ r) (svSmod64 (varLo64 (vars a)) (varLo64 (vars b))) := by
  have hla := h.honest.lo (x:=a) (by simp)
  have hlb := h.honest.lo (x:=b) (by simp)
  have hfa := (h.honest.fixed_iff (x:=a) (by simp)).mp ha
  have hfb := (h.honest.fixed_iff (x:=b) (by simp)).mp hb
  have a1 := h.inside.least a (by simp)
  have a2 := h.inside.most a (by simp)
  have b1 := h.inside.least b (by simp)
  have b2 := h.inside.most b (by simp)
  have e : (svSmod64 (varLo64 (vars a)) (varLo64 (vars b))).toInt = (σ a).tmod (σ b) := by
    rw [svSmod64_toInt,hla,hlb,show (vars a).least = σ a by omega,show (vars b).least = σ b by omega]
  refine ⟨e,h.asked _ ?_ ?_⟩
  all_goals
    have hle := Int.natAbs_tmod (σ a) (σ b)
    have hmod := Nat.mod_le (σ a).natAbs (σ b).natAbs
    have hmin := h.least
    have hmax := h.most
    obtain ⟨s1,s2,-⟩ := TruncDiv.tmod_range (x:=σ a) h.ne
    rw [e]
    rcases le_total 0 (σ a) with h0 | h0
    · have := s1 h0
      omega
    · have := s2 h0
      omega

section Signed

variable {cut : Prop} [Decidable cut] {m : BitVec 64} (h : DivSetting r a b n vars num within σ)
  (hm : cut → 1 ≤ m.toInt ∧ m.toInt ≤ 2^n)

include h hm

theorem modSigned_keeps (hR : ModRel r a b σ) (hfit : cut → |σ r| < m.toInt)
    (hneg : cut → (vars r).beyond = true → (vars a).least < 0 → m.toInt ≤ 1) :
    (modSigned within cut m (varLo64 (vars a)) (varHi64 (vars a)) (varLo64 (vars b))
      (varHi64 (vars b))).wp (fun res vars => res ≠ .conflict ∧ Inside [r,a,b] vars σ) vars := by
  have hdone : ∀ vars', Typed [r,a,b] vars vars' → Inside [r,a,b] vars' σ →
      (Fire.done .ok).wp (fun res vars => res ≠ .conflict ∧ Inside [r,a,b] vars σ) vars' :=
    fun vars' _ hσ => ⟨by simp,hσ⟩
  have hexact : ∀ vars', Typed [r,a,b] vars vars' → Inside [r,a,b] vars' σ →
      (if varLo64 (vars a) = varHi64 (vars a) ∧ varLo64 (vars b) = varHi64 (vars b) ∧
          varLo64 (vars b) ≠ 0#64 then
        within (svSmod64 (varLo64 (vars a)) (varLo64 (vars b)))
          (svSmod64 (varLo64 (vars a)) (varLo64 (vars b))) (.done .ok)
      else .done .ok).wp (fun res vars => res ≠ .conflict ∧ Inside [r,a,b] vars σ) vars' := by
    intro vars' hT hσ
    split_ifs with hc
    · obtain ⟨e,hask⟩ := h.rem hc.1 hc.2.1
      rw [← hR] at e
      exact h.bounds.keep hT hσ (hask.le e.le fun hb => e ▸ hask.nonneg hb) (hask.ge e.ge) hdone
    · exact hdone vars' hT hσ
  have hT : Typed [r,a,b] vars vars := .refl h.honest.ok
  unfold modSigned
  by_cases hcut : cut
  · rw [if_pos hcut]
    obtain ⟨m1,m2⟩ := hm hcut
    obtain ⟨e1,-⟩ := remEnds m1 (varLo64 (vars a))
    obtain ⟨-,e4⟩ := remEnds m1 (varHi64 (vars a))
    have a1 := h.inside.least a (by simp)
    have a2 := h.inside.most a (by simp)
    obtain ⟨s1,s2,-⟩ := TruncDiv.tmod_range (x:=σ a) h.ne
    have hlt := abs_lt.mp (hfit hcut)
    have hR' : σ r = (σ a).tmod (σ b) := hR
    rw [h.honest.lo (by simp)] at e1
    rw [h.honest.hi (by simp)] at e4
    refine h.bounds.keep hT h.inside ((h.asked _ ?_ ?_).le ?_ fun hb => ?_)
      ((h.asked _ ?_ ?_).ge ?_) hexact
    · rw [h.honest.lo (by simp),e1]
      split_ifs <;> omega
    · rw [h.honest.lo (by simp),e1]
      split_ifs <;> omega
    · rw [h.honest.lo (by simp),e1]
      split_ifs <;> omega
    · have := hneg hcut hb
      rw [h.honest.lo (by simp),e1]
      split_ifs <;> omega
    · rw [h.honest.hi (by simp),e4]
      split_ifs <;> omega
    · rw [h.honest.hi (by simp),e4]
      split_ifs <;> omega
    · rw [h.honest.hi (by simp),e4]
      split_ifs <;> omega
  · rw [if_neg hcut]
    exact hexact vars hT h.inside

theorem modSigned_loses (hcut : cut)
    (hL : m.toInt ≤ |σ r| ∨ (vars r).beyond = true ∧ (vars a).least < 0 ∧ 2 ≤ m.toInt) :
    (modSigned within cut m (varLo64 (vars a)) (varHi64 (vars a)) (varLo64 (vars b))
      (varHi64 (vars b))).wp (Lost [r,a,b] σ) vars := by
  have hT : Typed [r,a,b] vars vars := .refl h.honest.ok
  obtain ⟨m1,m2⟩ := hm hcut
  obtain ⟨e1,-⟩ := remEnds m1 (varLo64 (vars a))
  obtain ⟨-,e4⟩ := remEnds m1 (varHi64 (vars a))
  rw [h.honest.lo (by simp)] at e1
  rw [h.honest.hi (by simp)] at e4
  have k1 : Asked (vars r) num (σ r) (if 0 ≤ (varLo64 (vars a)).toInt then 0#64 else -(m-1#64)) := by
    refine h.asked _ ?_ ?_ <;> rw [h.honest.lo (by simp),e1] <;> split_ifs <;> omega
  have k4 : Asked (vars r) num (σ r) (if (varHi64 (vars a)).toInt ≤ 0 then 0#64 else m-1#64) := by
    refine h.asked _ ?_ ?_ <;> rw [h.honest.hi (by simp),e4] <;> split_ifs <;> omega
  unfold modSigned
  rw [if_pos hcut]
  refine h.bounds.lose (σ:=σ) hT ?_ (fun _ => .inl rfl) fun vars₁ hT₁ hout => ?_
  · rcases hL with hL | ⟨hb,hneg,hL⟩
    · rcases le_or_gt 0 (σ r) with h0 | h0
      · rw [abs_of_nonneg h0] at hL
        refine .inr ?_
        rw [k4.eq fun _ => ?_,h.honest.hi (by simp),e4]
        · split_ifs <;> omega
        · rw [h.honest.hi (by simp),e4]
          split_ifs <;> omega
      · rw [abs_of_neg h0] at hL
        refine .inl (k1.gt ?_)
        rw [h.honest.lo (by simp),e1]
        split_ifs <;> omega
    · refine .inl (k1.far hb ?_)
      rw [h.honest.lo (by simp),e1]
      split_ifs <;> omega
  · split_ifs
    · refine h.bounds.any hT₁ (fun _ => .inl rfl) fun vars₂ hT₂ => Lost.of_least (show r ∈ [r,a,b] by simp) ?_
      have := hT₂.least r
      have := hT₂.most r
      omega
    · exact Lost.of_least (by simp) hout

omit hm in
theorem modSigned_refutes (hp : Pinned [r,a,b] vars σ) (hR : ¬ModRel r a b σ) :
    (modSigned within cut m (varLo64 (vars a)) (varHi64 (vars a)) (varLo64 (vars b))
      (varHi64 (vars b))).wp (fun res _ => res = .conflict) vars := by
  have hfa := hp.fixed (show a ∈ [r,a,b] by simp)
  have hfb := hp.fixed (show b ∈ [r,a,b] by simp)
  have hne : varLo64 (vars b) ≠ 0#64 := fun h0 => by
    have hword := h.honest.lo (x:=b) (by simp)
    rw [h0,hp.least b (by simp)] at hword
    exact h.ne hword.symm
  obtain ⟨e,hask⟩ := h.rem hfa hfb
  have hexact : ∀ vars', Typed [r,a,b] vars vars' → Pinned [r,a,b] vars' σ →
      (within (svSmod64 (varLo64 (vars a)) (varLo64 (vars b)))
        (svSmod64 (varLo64 (vars a)) (varLo64 (vars b))) (.done .ok)).wp
        (fun res _ => res = .conflict) vars' := fun vars' hT hp =>
    h.bounds.pin hT hp (fun _ => rfl) fun h1 h2 => absurd (by
      rw [ModRel,← e,← hask.of_eq h1]
      exact le_antisymm h2 h1) hR
  have hT : Typed [r,a,b] vars vars := .refl h.honest.ok
  unfold modSigned
  have hfix : varLo64 (vars a) = varHi64 (vars a) ∧ varLo64 (vars b) = varHi64 (vars b) ∧
      varLo64 (vars b) ≠ 0#64 := ⟨hfa,hfb,hne⟩
  rw [if_pos hfix]
  by_cases hcut : cut
  · rw [if_pos hcut]
    exact h.bounds.pin hT hp (fun _ => rfl) fun _ _ => hexact
  · rw [if_neg hcut]
    exact hexact vars hT hp

end Signed

theorem maxAbs_toInt (x y : BitVec 64) :
    (maxAbs x y).toInt = max (absWord x).toInt (absWord y).toInt := by
  unfold maxAbs
  split_ifs <;> omega

theorem maxAbs_fits (h : DivSetting r a b 63 vars num within σ) (hR : ModRel r a b σ)
    (hcut : 1 ≤ (maxAbs (varLo64 (vars b)) (varHi64 (vars b))).toInt) :
    ModLost r a b vars σ ↔ (maxAbs (varLo64 (vars b)) (varHi64 (vars b))).toInt ≤ |σ r| ∨
      (vars r).beyond = true ∧ (vars a).least < 0 ∧
        2 ≤ (maxAbs (varLo64 (vars b)) (varHi64 (vars b))).toInt := by
  have hlb := h.honest.lo (x:=b) (by simp)
  have hub := h.honest.hi (x:=b) (by simp)
  have hmin := le_toInt (varLo64 (vars b))
  have b1 := h.inside.least b (by simp)
  have b2 := h.inside.most b (by simp)
  obtain ⟨-,-,hlt⟩ := TruncDiv.tmod_range (x:=σ a) h.ne
  rw [← hR] at hlt
  rw [maxAbs_toInt,absWord_toInt,absWord_toInt,hlb,hub] at hcut ⊢
  unfold ModLost
  have h1 : |σ b| ≤ max |(vars b).least| |(vars b).most| := abs_le_max_abs_abs b1 b2
  norm_num at hcut ⊢
  by_cases g1 : (vars b).least = -9223372036854775808
  · by_cases g2 : (vars b).most = -9223372036854775808
    · simp only [g1,g2,if_true] at hcut
      omega
    · simp only [g1,g2,if_true,if_false,not_false_eq_true,true_and] at hcut ⊢
      have g3 : (vars b).most ≠ 0 := fun hc => by simp [hc] at hcut
      have g4 : (-9223372036854775808 : ℤ) ≤ |σ r| := by
        have := abs_nonneg (σ r)
        omega
      simp [g3,g4]
  · have g2 : (vars b).most ≠ -9223372036854775808 := by omega
    simp only [g1,g2,if_false,not_false_eq_true,true_and,false_and,false_or]
    have hnot : ¬(|(vars b).least| ≤ |σ r| ∧ |(vars b).most| ≤ |σ r|) := by omega
    tauto

theorem maxAbs_zero (h : DivSetting r a b 63 vars num within σ)
    (hcut : ¬1 ≤ (maxAbs (varLo64 (vars b)) (varHi64 (vars b))).toInt) : ¬ModLost r a b vars σ := by
  have hlb := h.honest.lo (x:=b) (by simp)
  have hub := h.honest.hi (x:=b) (by simp)
  rw [maxAbs_toInt,absWord_toInt,absWord_toInt,hlb,hub] at hcut
  unfold ModLost
  have h4 : (vars b).most ≠ 0 → 1 ≤ |(vars b).most| := Int.one_le_abs
  rintro (⟨h1,h2,h5,-⟩ | ⟨-,-,⟨h1,h2⟩ | ⟨h1,h2⟩⟩)
  · have := h4 h5
    omega
  · rw [if_neg h1] at hcut
    omega
  · rw [if_neg h1] at hcut
    omega

/-! The unsigned part of the 64 bit fire. -/

section Step

variable {x k w : BitVec 64}

theorem posRem_toInt (hx : 0 ≤ x.toInt) : (posRem x k).toInt = x.toInt%k.toInt := by
  have h := toInt_srem x k
  have h0 := Int.tmod_nonneg k.toInt hx
  rw [posRem,if_neg (by omega),h,Int.tmod_eq_emod_of_nonneg hx]

theorem distance_toInt (hk : 0 < k.toInt) {p q : BitVec 64} (hp : 0 ≤ p.toInt)
    (hp' : p.toInt < k.toInt) (hq : 0 ≤ q.toInt) (hq' : q.toInt < k.toInt) :
    ((p-q+k).srem k).toInt = if p.toInt-q.toInt+k.toInt < 2^63 then
        (p.toInt-q.toInt+k.toInt)%k.toInt
      else -((2^64-(p.toInt-q.toInt+k.toInt))%k.toInt) := by
  have hlt := toInt_lt (x := k)
  have hsub : (p-q).toInt = p.toInt-q.toInt := by
    rw [toInt_sub]
    exact bmod_eq_of_le (by norm_num; omega) (by norm_num; omega)
  rw [toInt_srem,toInt_add,hsub]
  split_ifs with h
  · rw [bmod_eq_of_le (by norm_num; omega) (by norm_num; omega),Int.tmod_eq_emod_of_nonneg (by omega)]
  · have hwrap : (p.toInt-q.toInt+k.toInt).bmod (2^64) = -(2^64-(p.toInt-q.toInt+k.toInt)) := by
      have h1 : p.toInt-q.toInt+k.toInt = -(2^64-(p.toInt-q.toInt+k.toInt))+(2^64 : ℕ)*1 := by
        ring
      rw [h1,Int.add_mul_bmod_self_left,bmod_eq_of_le (by norm_num; omega) (by norm_num; omega)]
      ring
    rw [hwrap,Int.neg_tmod,Int.tmod_eq_emod_of_nonneg (by norm_num; omega)]

variable {q x y : BitVec 64} {z : ℤ}

theorem stepUp_toInt (hk : 0 < k.toInt) (hx : 0 ≤ x.toInt) (hz : x.toInt ≤ z) (hz' : z < 2^63)
    (hq : z%k.toInt = q.toInt) :
    (x+(q-posRem x k+k).srem k).toInt ≤ z ∧
      (UpOut q.toInt x.toInt k.toInt ↔ (x+(q-posRem x k+k).srem k).toInt < 0) := by
  have hrem := posRem_toInt (k:=k) hx
  have hm0 := emod_nonneg x.toInt hk.ne'
  have hm1 := emod_lt_of_pos x.toInt hk
  have hq0 := emod_nonneg z hk.ne'
  have hq1 := emod_lt_of_pos z hk
  have hd := distance_toInt hk (p:=q) (q:=posRem x k) (by omega) (by omega) (by omega) (by omega)
  have hup := TruncDiv.residue_up hk hz
  rw [hrem] at hd
  rw [hq] at hup
  unfold UpOut
  have e0 := emod_nonneg (2^64-(q.toInt-x.toInt%k.toInt+k.toInt)) hk.ne'
  have e1 := emod_lt_of_pos (2^64-(q.toInt-x.toInt%k.toInt+k.toInt)) hk
  have d0 := emod_nonneg (q.toInt-x.toInt%k.toInt+k.toInt) hk.ne'
  have hklt := toInt_lt (x := k)
  have hxlt := toInt_lt (x := x)
  rw [toInt_add,hd]
  generalize (q.toInt-x.toInt%k.toInt+k.toInt)%k.toInt = d at *
  generalize (2^64-(q.toInt-x.toInt%k.toInt+k.toInt))%k.toInt = e at *
  split_ifs with h
  · rw [bmod_eq_of_le (by norm_num; omega) (by norm_num; omega)]
    exact ⟨hup,iff_of_false (fun hc => by omega) (by omega)⟩
  · rw [bmod_eq_of_le (by norm_num; omega) (by norm_num; omega)]
    exact ⟨by omega,⟨fun hc => by omega,fun hc => ⟨by omega,by omega⟩⟩⟩

theorem stepDown_toInt (hk : 0 < k.toInt) (hz0 : 0 ≤ z) (hz : z ≤ y.toInt)
    (hq : z%k.toInt = q.toInt) :
    (DownOut q.toInt y.toInt k.toInt → (y-(posRem y k-q+k).srem k).toInt < 0) ∧
      (¬DownOut q.toInt y.toInt k.toInt → z ≤ (y-(posRem y k-q+k).srem k).toInt) := by
  have hrem := posRem_toInt (x:=y) (k:=k) (hz0.trans hz)
  have hm0 := emod_nonneg y.toInt hk.ne'
  have hm1 := emod_lt_of_pos y.toInt hk
  have hq0 := emod_nonneg z hk.ne'
  have hq1 := emod_lt_of_pos z hk
  have hd := distance_toInt hk (p:=posRem y k) (q:=q) (by omega) (by omega) (by omega) (by omega)
  have hdown := TruncDiv.residue_down hk hz
  rw [hrem] at hd
  rw [hq] at hdown
  have e0 := emod_nonneg (2^64-(y.toInt%k.toInt-q.toInt+k.toInt)) hk.ne'
  have e1 := emod_lt_of_pos (2^64-(y.toInt%k.toInt-q.toInt+k.toInt)) hk
  have d0 := emod_nonneg (y.toInt%k.toInt-q.toInt+k.toInt) hk.ne'
  have hklt := toInt_lt (x := k)
  have hylt := toInt_lt (x := y)
  unfold DownOut
  rw [toInt_sub,hd]
  generalize (y.toInt%k.toInt-q.toInt+k.toInt)%k.toInt = d at *
  generalize (2^64-(y.toInt%k.toInt-q.toInt+k.toInt))%k.toInt = e at *
  by_cases h : y.toInt%k.toInt-q.toInt+k.toInt < 2^63
  · rw [if_pos h,bmod_eq_of_le (by norm_num; omega) (by norm_num; omega)]
    exact ⟨fun hc => by omega,fun _ => hdown⟩
  rw [if_neg h]
  by_cases hout : y.toInt+e < 2^63
  · rw [bmod_eq_of_le (by norm_num; omega) (by norm_num; omega)]
    exact ⟨fun hc => by omega,fun _ => by omega⟩
  · have h1 : y.toInt- -e = (y.toInt+e-2^64)+(2^64 : ℕ)*1 := by
      ring
    rw [h1,Int.add_mul_bmod_self_left,bmod_eq_of_le (by norm_num; omega) (by norm_num; omega)]
    exact ⟨fun _ => by omega,fun hc => by omega⟩

end Step

section Back

variable {vars₀ : ℕ → Variable} {q k : BitVec 64}

structure Dividend (r a b : ℕ) (vars₀ vars : ℕ → Variable) (σ : ℕ → ℤ) (q k : BitVec 64) : Prop where
  typed : Typed [r,a,b] vars₀ vars
  inside : Inside [r,a,b] vars σ
  lo : (varLo64 (vars a)).toInt = (vars a).least
  hi : (varHi64 (vars a)).toInt = (vars a).most
  nonneg : 0 ≤ (vars a).least
  divisor : k.toInt = σ b
  pos : 0 < k.toInt
  rem : q.toInt = σ r
  rel : σ a%σ b = σ r

theorem modBack_keeps (h : Dividend r a b vars₀ vars σ q k)
    (hup : (vars₀ a).beyond = true → ¬UpOut (σ r) (vars a).least (σ b))
    (hdown : ¬DownOut (σ r) (vars a).most (σ b)) :
    (modBack a q k (varLo64 (vars a)) (varHi64 (vars a))).wp
      (fun res vars => res ≠ .conflict ∧ Inside [r,a,b] vars σ) vars := by
  have a1 := h.inside.least a (by simp)
  have a2 := h.inside.most a (by simp)
  have hlt := toInt_lt (x := varHi64 (vars a))
  rw [h.hi] at hlt
  have hrel : σ a%k.toInt = q.toInt := by rw [h.divisor,h.rem,h.rel]
  obtain ⟨u1,u2⟩ := stepUp_toInt (x:=varLo64 (vars a)) h.pos (by rw [h.lo]; exact h.nonneg)
    (by rw [h.lo]; exact a1) (by omega) hrel
  obtain ⟨-,d2⟩ := stepDown_toInt (y:=varHi64 (vars a)) h.pos (h.nonneg.trans a1)
    (by rw [h.hi]; exact a2) hrel
  rw [h.rem,h.lo,h.divisor] at u2
  rw [h.rem,h.hi,h.divisor] at d2
  have d3 := d2 hdown
  unfold modBack
  have hnn := h.nonneg
  rw [if_neg (by rw [h.hi]; omega)]
  refine Fire.wp_lb64 h.typed h.inside (by simp) ?_ fun vars₁ ht hσ => ?_
  · rw [varOrd_of_nonneg fun hb => not_lt.mp fun hc => hup hb (u2.mpr hc)]
    exact u1
  · rw [if_neg (by omega)]
    refine Fire.wp_ub64 ht hσ (by simp) ?_ fun vars₂ _ hσ => ⟨by simp,hσ⟩
    rw [varOrd_of_nonneg fun _ => by omega]
    exact d3

theorem modBack_loses (h : Dividend r a b vars₀ vars σ q k)
    (hout : (vars₀ a).beyond = true ∧ UpOut (σ r) (vars a).least (σ b) ∨
      DownOut (σ r) (vars a).most (σ b)) :
    (modBack a q k (varLo64 (vars a)) (varHi64 (vars a))).wp (Lost [r,a,b] σ) vars := by
  have a1 := h.inside.least a (by simp)
  have a2 := h.inside.most a (by simp)
  have hlt := toInt_lt (x := varHi64 (vars a))
  rw [h.hi] at hlt
  have hrel : σ a%k.toInt = q.toInt := by rw [h.divisor,h.rem,h.rel]
  obtain ⟨u1,u2⟩ := stepUp_toInt (x:=varLo64 (vars a)) h.pos (by rw [h.lo]; exact h.nonneg)
    (by rw [h.lo]; exact a1) (by omega) hrel
  obtain ⟨d1,-⟩ := stepDown_toInt (y:=varHi64 (vars a)) h.pos (h.nonneg.trans a1)
    (by rw [h.hi]; exact a2) hrel
  rw [h.rem,h.lo,h.divisor] at u2
  rw [h.rem,h.hi,h.divisor] at d1
  have hnn := h.nonneg
  unfold modBack
  dsimp only
  generalize varLo64 (vars a)+(q-posRem (varLo64 (vars a)) k+k).srem k = newAlo at *
  generalize varHi64 (vars a)-(posRem (varHi64 (vars a)) k-q+k).srem k = newAhi at *
  rw [if_neg (by rw [h.hi]; omega)]
  have hgone : ∀ vars₁, Typed [r,a,b] vars₀ vars₁ → (σ a < (vars₁ a).least ∨ (vars₁ a).most < σ a) →
      (if newAhi.toInt < newAlo.toInt then Fire.done .conflict
        else .need .ub64 a newAhi <| .done .ok).wp (Lost [r,a,b] σ) vars₁ := by
    intro vars₁ ht hgone
    split_ifs
    · exact .inl rfl
    · refine Fire.wp_need_any (.refl ht.ok) (show a ∈ [r,a,b] by simp) trivial (fun _ => .inl rfl)
        fun vars₂ ht₂ => Lost.of_least (show a ∈ [r,a,b] by simp) ?_
      have := ht₂.least a
      have := ht₂.most a
      omega
  by_cases hneg : (vars₀ a).beyond = true ∧ newAlo.toInt < 0
  · refine Fire.wp_need_lost (σ:=σ) h.typed (by simp) trivial ?_ (fun _ => .inl rfl) hgone
    have h1 := (toInt_of_neg hneg.2).2
    simp only [Tighten.isUb,Tighten.num,Bool.false_eq_true,if_false]
    rw [varOrd_beyond hneg.1]
    omega
  · have hd := d1 (hout.resolve_left fun hc => hneg ⟨hc.1,u2.mp hc.2⟩)
    refine Fire.wp_need_any h.typed (by simp) trivial (fun _ => .inl rfl) fun vars₁ ht => ?_
    split_ifs with hc
    · exact .inl rfl
    · refine Fire.wp_need_lost (σ:=σ) ht (by simp) trivial ?_ (fun _ => .inl rfl)
        fun vars₂ _ hgone => Lost.of_least (show a ∈ [r,a,b] by simp) hgone
      have hb : (vars₀ a).beyond = false := by
        cases hb : (vars₀ a).beyond
        · rfl
        · exact absurd ⟨hb,by omega⟩ hneg
      simp only [Tighten.isUb,Tighten.num,if_true]
      rw [varOrd_plain hb]
      omega

end Back

section Mod64

variable {vars₀ : ℕ → Variable}

theorem not_out {q x k : ℤ} (hk : 0 < k) (hk' : k < 2^63) (hq : q = x%k) :
    ¬UpOut q x k ∧ ¬DownOut q x k := by
  exact ⟨fun h => by have := h.1; omega,fun h => by have := h.1; omega⟩

structure UnsignedMod (r a b : ℕ) (vars : ℕ → Variable) (σ : ℕ → ℤ) : Prop where
  honest : Honest r a b vars
  inside : Inside [r,a,b] vars σ
  nonneg : 0 ≤ (vars a).least
  pos : 0 < σ b
  rel : σ a%σ b = σ r

theorem UnsignedMod.of (hh : Honest r a b vars) (hσ : Inside [r,a,b] vars σ) (hb : σ b ≠ 0)
    (hR : ModRel r a b σ) (hs : signedOp (vars r) (vars a) (vars b) = false) :
    UnsignedMod r a b vars σ := by
  obtain ⟨ha0,hb0⟩ := (divSetting64 hh hσ hb).nonneg hs
  have a1 := hσ.least a (by simp)
  have b1 := hσ.least b (by simp)
  refine ⟨hh,hσ,ha0,by omega,?_⟩
  rw [hR,Int.tmod_eq_emod_of_nonneg (by omega)]

theorem UnsignedMod.rem (h : UnsignedMod r a b vars σ) :
    0 ≤ σ r ∧ σ r < σ b ∧ σ b < 2^63 := by
  have hlt := toInt_lt (x := varHi64 (vars b))
  have b2 := h.inside.most b (by simp)
  rw [h.honest.hi (by simp)] at hlt
  rw [← h.rel]
  exact ⟨emod_nonneg _ h.pos.ne',emod_lt_of_pos _ h.pos,by omega⟩

theorem UnsignedMod.dividend (h : UnsignedMod r a b vars₀ σ)
    (hfix : varLo64 (vars₀ b) = varHi64 (vars₀ b)) (hT : Typed [r,a,b] vars₀ vars)
    (hσ : Inside [r,a,b] vars σ) (hr : varLo64 (vars r) = varHi64 (vars r)) :
    Dividend r a b vars₀ vars σ (varLo64 (vars r)) (varLo64 (vars₀ b)) := by
  have hrem := h.rem
  have hlb := h.honest.lo (x:=b) (by simp)
  have hfb := (h.honest.fixed_iff (x:=b) (by simp)).mp hfix
  have b1 := h.inside.least b (by simp)
  have b2 := h.inside.most b (by simp)
  have hua := h.honest.hi (x:=a) (by simp)
  have hlt := toInt_lt (x := varHi64 (vars₀ a))
  have ha1 := hT.most a
  have ha2 := hσ.least a (by simp)
  have ha3 := hσ.most a (by simp)
  have ha4 := hT.least a
  have ha0 := h.nonneg
  have hl : (varLo64 (vars a)).toInt = varOrd (vars a) (varLo64 (vars a)) := by
    refine toInt_of_ord_lt (lt_of_le_of_lt (ha2.trans ha3) ?_)
    omega
  have hm : (varHi64 (vars a)).toInt = varOrd (vars a) (varHi64 (vars a)) := by
    refine toInt_of_ord_lt ?_
    have : varOrd (vars a) (varHi64 (vars a)) = (vars a).most := rfl
    omega
  have hr1 := hσ.least r (by simp)
  have hr2 := hσ.most r (by simp)
  have hr3 : (vars r).most = (vars r).least := by rw [Variable.most,Variable.least,hr]
  have hq : (varLo64 (vars r)).toInt = varOrd (vars r) (varLo64 (vars r)) := by
    refine toInt_of_ord_lt (lt_of_le_of_lt hr1 ?_)
    omega
  have hq' : varOrd (vars r) (varLo64 (vars r)) = (vars r).least := rfl
  exact ⟨hT,hσ,hl,hm,by omega,by omega,by omega,by omega,h.rel⟩

/-- The tail of the fire where nothing comes back past an end. -/
theorem modFixed_keeps (h : UnsignedMod r a b vars₀ σ) (hT : Typed [r,a,b] vars₀ vars)
    (hσ : Inside [r,a,b] vars σ) (hup : varLo64 (vars r) = varHi64 (vars r) →
      varLo64 (vars₀ b) = varHi64 (vars₀ b) →
      ((vars₀ a).beyond = true → ¬UpOut (σ r) (vars a).least (σ b)) ∧
        ¬DownOut (σ r) (vars a).most (σ b)) :
    (modFixed r a (varLo64 (vars₀ b)) (varHi64 (vars₀ b))).wp
      (fun res vars => res ≠ .conflict ∧ Inside [r,a,b] vars σ) vars := by
  simp only [modFixed,Fire.wp]
  split_ifs with hc
  · obtain ⟨h1,h2⟩ := hup hc.1 hc.2.1
    exact modBack_keeps (h.dividend hc.2.1 hT hσ hc.1) h1 h2
  · exact ⟨by simp,hσ⟩

theorem modExact_keeps (h : UnsignedMod r a b vars₀ σ) (hT : Typed [r,a,b] vars₀ vars)
    (hσ : Inside [r,a,b] vars σ) (hup : varLo64 (vars r) = varHi64 (vars r) →
      varLo64 (vars₀ b) = varHi64 (vars₀ b) → varLo64 (vars₀ a) ≠ varHi64 (vars₀ a) →
      ((vars₀ a).beyond = true → ¬UpOut (σ r) (vars a).least (σ b)) ∧
        ¬DownOut (σ r) (vars a).most (σ b)) :
    (modExact r a (varLo64 (vars₀ a)) (varHi64 (vars₀ a)) (varLo64 (vars₀ b))
      (varHi64 (vars₀ b))).wp (fun res vars => res ≠ .conflict ∧ Inside [r,a,b] vars σ) vars := by
  have hrem := h.rem
  have hlb := h.honest.lo (x:=b) (by simp)
  have b1 := h.inside.least b (by simp)
  have b2 := h.inside.most b (by simp)
  unfold modExact
  by_cases ha : varLo64 (vars₀ a) = varHi64 (vars₀ a)
  · have hfa := (h.honest.fixed_iff (x:=a) (by simp)).mp ha
    have hla := h.honest.lo (x:=a) (by simp)
    have a1 := h.inside.least a (by simp)
    have a2 := h.inside.most a (by simp)
    have hout := not_out (q:=σ r) (x:=σ a) h.pos hrem.2.2 h.rel.symm
    have hends : ∀ vars', Typed [r,a,b] vars₀ vars' → Inside [r,a,b] vars' σ →
        (vars' a).least = σ a ∧ (vars' a).most = σ a := fun vars' hT hσ => by
      have := hT.least a
      have := hT.most a
      have := hσ.least a (by simp)
      have := hσ.most a (by simp)
      omega
    have htail : ∀ vars', Typed [r,a,b] vars₀ vars' → Inside [r,a,b] vars' σ →
        (modFixed r a (varLo64 (vars₀ b)) (varHi64 (vars₀ b))).wp
          (fun res vars => res ≠ .conflict ∧ Inside [r,a,b] vars σ) vars' := fun vars' hT hσ =>
      modFixed_keeps h hT hσ fun _ _ => by
        obtain ⟨h1,h2⟩ := hends vars' hT hσ
        rw [h1,h2]
        exact ⟨fun _ => hout.1,hout.2⟩
    split_ifs with hc
    · have hfb := (h.honest.fixed_iff (x:=b) (by simp)).mp hc.2.1
      have hval : (posRem (varLo64 (vars₀ a)) (varLo64 (vars₀ b))).toInt = σ r := by
        rw [posRem_toInt (by rw [hla]; exact h.nonneg),hla,hlb,← h.rel]
        congr 1 <;> omega
      have hord : varOrd (vars₀ r) (posRem (varLo64 (vars₀ a)) (varLo64 (vars₀ b))) = σ r := by
        rw [varOrd_of_nonneg fun _ => by omega,hval]
      exact Fire.wp_between hT hσ (by simp) hord.le hord.ge htail
    · exact htail vars hT hσ
  · rw [if_neg fun hc => ha hc.1]
    exact modFixed_keeps h hT hσ fun hr hb => hup hr hb ha

theorem pred_toInt {x : BitVec 64} (hx : 0 < x.toInt) : (x-1#64).toInt = x.toInt-1 := by
  have h2 := toInt_lt (x := x)
  rw [toInt_sub]
  exact bmod_eq_of_le (by simp; omega) (by simp; omega)

theorem modUnsigned_keeps (h : UnsignedMod r a b vars σ) (hs : (vars r).signed = false)
    (hL : ¬StepLost r a b vars σ) :
    (modUnsigned r a (varLo64 (vars a)) (varHi64 (vars a)) (varLo64 (vars b))
      (varHi64 (vars b))).wp (fun res vars => res ≠ .conflict ∧ Inside [r,a,b] vars σ) vars := by
  have hT : Typed [r,a,b] vars vars := .refl h.honest.ok
  obtain ⟨r0,r1,r2⟩ := h.rem
  have hlb := h.honest.lo (x:=b) (by simp)
  have hub := h.honest.hi (x:=b) (by simp)
  have hfb := h.honest.fixed_iff (x:=b) (by simp)
  have b1 := h.inside.least b (by simp)
  have b2 := h.inside.most b (by simp)
  have hz : varOrd (vars r) 0#64 = 0 := varOrd_of_nonneg fun _ => by simp
  have hpred : ∀ {x : BitVec 64}, 0 < x.toInt → varOrd (vars r) (x-1#64) = x.toInt-1 := fun hx => by
    rw [varOrd_of_nonneg fun _ => by rw [pred_toInt hx]; omega,pred_toInt hx]
  unfold modUnsigned
  split_ifs with hc hpos
  · have hfix := hfb.mp hc.1
    refine Fire.wp_between_exact hT h.inside (by simp) (hz.trans_le r0)
      (by rw [hpred hc.2]; omega) fun vars₁ hT₁ hσ hl hm hframe => modExact_keeps h hT₁ hσ ?_
    intro hr _ _
    have hr' : (vars₁ r).least = (vars₁ r).most := by rw [Variable.most,Variable.least,hr]
    have hr1 := hσ.least r (by simp)
    have hr2 := hσ.most r (by simp)
    by_cases hra : r = a
    · subst hra
      have hout := not_out (q:=σ r) (x:=σ r) h.pos r2 h.rel.symm
      rw [show (vars₁ r).least = σ r by omega,show (vars₁ r).most = σ r by omega]
      exact ⟨fun _ => hout.1,hout.2⟩
    · rw [hframe a (Ne.symm hra)]
      have hr0 := (h.honest.ok r (by simp)).nonneg hs le_rfl
      have hend : (vars r).least = (vars r).most ∨ (vars r).least = (vars b).least-1 := by
        rw [hpred hc.2] at hm
        omega
      have hk : σ b = (vars b).least := by omega
      rw [hk]
      exact ⟨fun hb hu => hL ⟨hfix,hend,.inl ⟨hb,hu⟩⟩,fun hd => hL ⟨hfix,hend,.inr hd⟩⟩
  · refine Fire.wp_between hT h.inside (by simp) (hz.trans_le r0)
      (by rw [hpred (by omega)]; omega) fun vars₁ hT₁ hσ => modExact_keeps h hT₁ hσ ?_
    exact fun _ hb => absurd ⟨hb,hpos⟩ hc
  · refine modExact_keeps h hT h.inside fun _ hb => ?_
    have := hfb.mp hb
    omega

theorem modUnsigned_loses (h : UnsignedMod r a b vars σ) (hL : StepLost r a b vars σ) :
    (modUnsigned r a (varLo64 (vars a)) (varHi64 (vars a)) (varLo64 (vars b))
      (varHi64 (vars b))).wp (Lost [r,a,b] σ) vars := by
  have hT : Typed [r,a,b] vars vars := .refl h.honest.ok
  obtain ⟨r0,r1,r2⟩ := h.rem
  obtain ⟨hfix,hend,hout⟩ := hL
  have hlb := h.honest.lo (x:=b) (by simp)
  have hfb := (h.honest.fixed_iff (x:=b) (by simp)).mpr hfix
  have hfa := h.honest.fixed_iff (x:=a) (by simp)
  have b1 := h.inside.least b (by simp)
  have b2 := h.inside.most b (by simp)
  have a1 := h.inside.least a (by simp)
  have a2 := h.inside.most a (by simp)
  have p1 := h.inside.least r (by simp)
  have p2 := h.inside.most r (by simp)
  have hpos := h.pos
  have hk : (vars b).least = σ b := by omega
  have hc : varLo64 (vars b) = varHi64 (vars b) ∧ 0 < (varLo64 (vars b)).toInt := ⟨hfb,by omega⟩
  have hz : varOrd (vars r) 0#64 = 0 := varOrd_of_nonneg fun _ => by simp
  have hp : varOrd (vars r) (varLo64 (vars b)-1#64) = σ b-1 := by
    rw [varOrd_of_nonneg fun _ => by rw [pred_toInt hc.2]; omega,pred_toInt hc.2]
    omega
  rw [hk] at hend hout
  have hafix : varLo64 (vars a) ≠ varHi64 (vars a) := fun hc => by
    have hm := hfa.mp hc
    have hno := not_out (q:=σ r) (x:=σ a) h.pos r2 h.rel.symm
    rw [show (vars a).least = σ a by omega,show (vars a).most = σ a by omega] at hout
    exact hout.elim (fun hu => hno.1 hu.2) hno.2
  unfold modUnsigned
  rw [if_pos hc]
  refine Fire.wp_between_exact hT h.inside (by simp) (hz.trans_le r0) (by rw [hp]; omega)
    fun vars₁ hT₁ hσ hl hm hframe => ?_
  have hr' : (vars₁ r).least = (vars₁ r).most := by omega
  have hr : varLo64 (vars₁ r) = varHi64 (vars₁ r) := varOrd_inj hr'
  have hra : r ≠ a := by
    rintro rfl
    rcases hend with he | he
    · exact hafix (hfa.mpr he)
    · have hno := not_out (q:=σ r) (x:=σ r) h.pos r2 h.rel.symm
      have hdown : ¬DownOut (σ r) (vars r).most (σ b) := fun hd => by
        have h1 := emod_lt_of_pos (vars r).most hpos
        have h2 := hd.1
        omega
      rw [show (vars r).least = σ r by omega] at hout
      exact hout.elim (fun hu => hno.1 hu.2) hdown
  rw [modExact,if_neg fun hc => hafix hc.1]
  simp only [modFixed,Fire.wp]
  rw [if_pos ⟨hr,hc⟩]
  refine modBack_loses (h.dividend hfb hT₁ hσ hr) ?_
  rw [hframe a hra.symm]
  exact hout

theorem modUnsigned_refutes (hh : Honest r a b vars) (hp : Pinned [r,a,b] vars σ)
    (ha : 0 ≤ σ a) (hb : 0 < σ b) (hR : ¬ModRel r a b σ) :
    (modUnsigned r a (varLo64 (vars a)) (varHi64 (vars a)) (varLo64 (vars b))
      (varHi64 (vars b))).wp (fun res _ => res = .conflict) vars := by
  have hla := hh.lo (x:=a) (by simp)
  have hlb := hh.lo (x:=b) (by simp)
  rw [hp.least a (by simp)] at hla
  rw [hp.least b (by simp)] at hlb
  have hfb : varLo64 (vars b) = varHi64 (vars b) ∧ 0 < (varLo64 (vars b)).toInt :=
    ⟨hp.fixed (by simp),by omega⟩
  have hval : (posRem (varLo64 (vars a)) (varLo64 (vars b))).toInt = (σ a).tmod (σ b) := by
    rw [posRem_toInt (by omega),hla,hlb,Int.tmod_eq_emod_of_nonneg ha]
  unfold modUnsigned modExact
  rw [if_pos hfb,if_pos ⟨hp.fixed (by simp),hfb⟩]
  refine Fire.wp_between_pinned (.refl hh.ok) hp (by simp) (fun _ => rfl) fun _ _ vars₁ hT hp₁ =>
    Fire.wp_between_pinned hT hp₁ (by simp) (fun _ => rfl) fun h1 h2 => absurd ?_ hR
  have hord : varOrd (vars r) (posRem (varLo64 (vars a)) (varLo64 (vars b))) = (σ a).tmod (σ b) := by
    rw [varOrd_of_nonneg fun _ => hval ▸ Int.tmod_nonneg _ ha,hval]
  rw [ModRel,← hord]
  exact le_antisymm h2 h1

end Mod64

theorem fireBoundsMod64_propagates (hh : Honest r a b s.ctx.vars) :
    PropagatesOn [r,a,b] (fun σ => σ b ≠ 0) (ModRel r a b) (fireBoundsMod64 r a b) s ↔
      ∀ σ, Inside [r,a,b] s.ctx.vars σ → σ b ≠ 0 → ModRel r a b σ →
        ¬(if signedOp (s.ctx.vars r) (s.ctx.vars a) (s.ctx.vars b) then ModLost r a b s.ctx.vars σ
          else StepLost r a b s.ctx.vars σ) := by
  have hm : ∀ x : BitVec 64, 1 ≤ x.toInt → 1 ≤ x.toInt ∧ x.toInt ≤ 2^63 := fun x hx =>
    ⟨hx,by have := toInt_lt (x := x); norm_num at this ⊢; omega⟩
  refine PropagatesOn.iff (fun σ hσ hb hR hL => ?_) (fun σ hσ hb hR hL => ?_)
    fun σ hp hb hR => ?_
  · have h := divSetting64 hh hσ hb
    simp only [fireBoundsMod64,Fire.wp]
    cases hs : signedOp (s.ctx.vars r) (s.ctx.vars a) (s.ctx.vars b)
    · rw [hs,if_neg (by simp)] at hL
      rw [if_neg (by simp)]
      exact modUnsigned_keeps (.of hh hσ hb hR hs) (signedOp_false hs).1 hL
    · rw [hs,if_pos rfl] at hL
      rw [if_pos rfl]
      refine modSigned_keeps h (hm _) hR (fun hcut => ?_) fun hcut hbe hneg => ?_
      · rw [maxAbs_fits h hR hcut] at hL
        omega
      · rw [maxAbs_fits h hR hcut,not_or] at hL
        by_contra hbig
        exact hL.2 ⟨hbe,hneg,by omega⟩
  · have h := divSetting64 hh hσ hb
    simp only [fireBoundsMod64,Fire.wp]
    cases hs : signedOp (s.ctx.vars r) (s.ctx.vars a) (s.ctx.vars b)
    · rw [hs,if_neg (by simp)] at hL
      rw [if_neg (by simp)]
      exact modUnsigned_loses (.of hh hσ hb hR hs) hL
    · rw [hs,if_pos rfl] at hL
      rw [if_pos rfl]
      have hcut := not_not.mp (mt (maxAbs_zero h) (not_not.mpr hL))
      exact modSigned_loses h (hm _) hcut ((maxAbs_fits h hR hcut).mp hL)
  · have h := divSetting64 hh hp.inside hb
    simp only [fireBoundsMod64,Fire.wp]
    cases hs : signedOp (s.ctx.vars r) (s.ctx.vars a) (s.ctx.vars b)
    · obtain ⟨ha0,hb0⟩ := h.nonneg hs
      rw [hp.least a (by simp)] at ha0
      rw [hp.least b (by simp)] at hb0
      rw [if_neg (by simp)]
      exact modUnsigned_refutes hh hp ha0 (by omega) hR
    · rw [if_pos rfl]
      exact modSigned_refutes h hp hR

/-! The unsigned part of the 32 bit fire, whose steps have room. -/

section Mod32

variable {vars₀ : ℕ → Variable} {q x k : BitVec 32} {z : ℤ}

theorem wide_toInt (x : BitVec 32) : (x.signExtend 64).toInt = x.toInt :=
  BitVec.toInt_signExtend_of_le (by decide)

theorem posRem32_toInt (hx : 0 ≤ x.toInt) : (posRem x k).toInt = x.toInt%k.toInt := by
  have h := toInt_srem x k
  have h0 := Int.tmod_nonneg k.toInt hx
  rw [posRem,if_neg (by omega),h,Int.tmod_eq_emod_of_nonneg hx]

theorem distance32_toInt (hk : 0 < k.toInt) (hq : 0 ≤ q.toInt) (hq' : q.toInt < k.toInt)
    (hx : 0 ≤ x.toInt) (hx' : x.toInt < k.toInt) :
    (distance32 q x k).toInt = (q.toInt-x.toInt+k.toInt)%k.toInt := by
  have hlt := toInt_lt (x := k)
  have h := distance_toInt (k:=k.signExtend 64) (p:=q.signExtend 64) (q:=x.signExtend 64)
  rw [wide_toInt,wide_toInt,wide_toInt] at h
  have h := h hk hq hq' hx hx'
  rw [if_pos (by omega)] at h
  have h0 := emod_nonneg (q.toInt-x.toInt+k.toInt) hk.ne'
  have h1 := emod_lt_of_pos (q.toInt-x.toInt+k.toInt) hk
  rw [distance32,setWidth32_toInt (by rw [h]; omega) (by rw [h]; omega),h]

/-- What the operands of an unsigned remainder of the small tier are worth. -/
structure UnsignedMod32 (r a b : ℕ) (vars : ℕ → Variable) (σ : ℕ → ℤ) : Prop where
  ok : ∀ v ∈ [r,a,b], (vars v).Ok
  small : Small r a b vars
  nonneg : ∀ v ∈ [r,a,b], 0 ≤ (vars v).least
  pos : 0 < σ b
  rel : σ a%σ b = σ r

theorem UnsignedMod32.ends (h : UnsignedMod32 r a b vars₀ σ) (hT : Typed [r,a,b] vars₀ vars)
    {v : ℕ} (hv : v ∈ [r,a,b]) :
    (vars v).lo.toInt = (vars v).least ∧ (vars v).hi.toInt = (vars v).most ∧ 0 ≤ (vars v).least := by
  have h0 : (vars v).tier1 = false := ((hT.same v).tier1).trans (h.small v hv)
  exact ⟨((hT.ok v hv).least_eq h0).symm,((hT.ok v hv).most_eq h0).symm,
    (h.nonneg v hv).trans (hT.least v)⟩

theorem num32 {v' : Variable} (x : BitVec 32) :
    Tighten.lb32.num v' (x.signExtend 64) = x.toInt ∧
      Tighten.ub32.num v' (x.signExtend 64) = x.toInt := by
  simp [Tighten.num,setWidth_signExtend]

theorem step32 {x y : BitVec 32} (hk : 0 < k.toInt) (hx : 0 ≤ x.toInt) (hxz : x.toInt ≤ z)
    (hzy : z ≤ y.toInt) (hq : z%k.toInt = q.toInt) :
    (x+distance32 q (posRem x k) k).toInt ≤ z ∧ z ≤ (y-distance32 (posRem y k) q k).toInt := by
  have hq0 := emod_nonneg z hk.ne'
  have hq1 := emod_lt_of_pos z hk
  have m0 := emod_nonneg x.toInt hk.ne'
  have m1 := emod_lt_of_pos x.toInt hk
  have n0 := emod_nonneg y.toInt hk.ne'
  have n1 := emod_lt_of_pos y.toInt hk
  have ex := posRem32_toInt (x:=x) (k:=k) hx
  have ey := posRem32_toInt (x:=y) (k:=k) (by omega)
  have up := TruncDiv.residue_up hk hxz
  have down := TruncDiv.residue_down hk hzy
  have du := distance32_toInt hk (q:=q) (x:=posRem x k) (by omega) (by omega) (by omega) (by omega)
  have dd := distance32_toInt hk (q:=posRem y k) (x:=q) (by omega) (by omega) (by omega) (by omega)
  rw [ex] at du
  rw [ey] at dd
  rw [hq] at up down
  have d0 := emod_nonneg (q.toInt-x.toInt%k.toInt+k.toInt) hk.ne'
  have e0 := emod_nonneg (y.toInt%k.toInt-q.toInt+k.toInt) hk.ne'
  have hlt := toInt_lt (x := y)
  rw [toInt_add,toInt_sub,du,dd]
  generalize (q.toInt-x.toInt%k.toInt+k.toInt)%k.toInt = d at *
  generalize (y.toInt%k.toInt-q.toInt+k.toInt)%k.toInt = e at *
  rw [bmod_eq_of_le (by norm_num; omega) (by norm_num; omega),
    bmod_eq_of_le (by norm_num; omega) (by norm_num; omega)]
  exact ⟨up,down⟩

theorem modFixed32_keeps (h : UnsignedMod32 r a b vars₀ σ) (hT : Typed [r,a,b] vars₀ vars)
    (hσ : Inside [r,a,b] vars σ) :
    (modFixed32 r a b).wp (fun res vars => res ≠ .conflict ∧ Inside [r,a,b] vars σ) vars := by
  obtain ⟨r1,r2,-⟩ := h.ends hT (v:=r) (by simp)
  obtain ⟨a1,a2,a0⟩ := h.ends hT (v:=a) (by simp)
  obtain ⟨b1,b2,-⟩ := h.ends hT (v:=b) (by simp)
  have p1 := hσ.least r (by simp)
  have p2 := hσ.most r (by simp)
  have p3 := hσ.least a (by simp)
  have p4 := hσ.most a (by simp)
  have p5 := hσ.least b (by simp)
  have p6 := hσ.most b (by simp)
  have hrel := h.rel
  simp only [modFixed32,Fire.wp]
  by_cases hc : (vars r).lo = (vars r).hi ∧ (vars b).lo = (vars b).hi ∧ 0 < (vars b).lo.toInt
  · rw [if_pos hc]
    have hr : (vars r).lo.toInt = σ r := by
      have := hc.1 ▸ r2
      omega
    have hb : (vars b).lo.toInt = σ b := by
      have := hc.2.1 ▸ b2
      omega
    obtain ⟨s1,s2⟩ := step32 hc.2.2 (by omega) (show (vars a).lo.toInt ≤ σ a by omega)
      (show σ a ≤ (vars a).hi.toInt by omega) (show σ a%(vars b).lo.toInt = (vars r).lo.toInt by
        rw [hb,hr,hrel])
    generalize (vars a).lo+distance32 (vars r).lo (posRem (vars a).lo (vars b).lo) (vars b).lo = newLo at *
    generalize (vars a).hi-distance32 (posRem (vars a).hi (vars b).lo) (vars r).lo (vars b).lo = newHi at *
    have h0 := h.small a (by simp)
    rw [if_neg (by omega)]
    refine Fire.wp_need hT hσ (by simp) h0 (by simpa [Tighten.isUb,(num32 newLo).1] using s1)
      fun vars₁ hT₁ hσ => ?_
    rw [if_neg (by omega)]
    exact Fire.wp_need hT₁ hσ (by simp) h0 (by simpa [Tighten.isUb,(num32 newHi).2] using s2)
      fun vars₂ _ hσ => ⟨by simp,hσ⟩
  · rw [if_neg hc]
    exact ⟨by simp,hσ⟩

theorem modExact32_keeps (h : UnsignedMod32 r a b vars₀ σ) (hT : Typed [r,a,b] vars₀ vars)
    (hσ : Inside [r,a,b] vars σ) :
    (modExact32 r a b).wp (fun res vars => res ≠ .conflict ∧ Inside [r,a,b] vars σ) vars := by
  obtain ⟨a1,a2,a0⟩ := h.ends hT (v:=a) (by simp)
  obtain ⟨b1,b2,-⟩ := h.ends hT (v:=b) (by simp)
  have p3 := hσ.least a (by simp)
  have p4 := hσ.most a (by simp)
  have p5 := hσ.least b (by simp)
  have p6 := hσ.most b (by simp)
  simp only [modExact32,Fire.wp]
  by_cases hc : (vars a).lo = (vars a).hi ∧ (vars b).lo = (vars b).hi ∧ 0 < (vars b).lo.toInt
  · rw [if_pos hc]
    have hval : (posRem (vars a).lo (vars b).lo).toInt = σ r := by
      have e1 := hc.1 ▸ a2
      have e2 := hc.2.1 ▸ b2
      rw [posRem32_toInt (by omega),← h.rel]
      congr 1 <;> omega
    have hnum : (((posRem (vars a).lo (vars b).lo).signExtend 64).setWidth 32).toInt = σ r := by
      rw [setWidth_signExtend,hval]
    exact (bounds32 (by simp) (h.small r (by simp))).keep hT hσ hnum.le hnum.ge
      fun _ hT hσ => modFixed32_keeps h hT hσ
  · rw [if_neg hc]
    exact modFixed32_keeps h hT hσ

theorem pred32_toInt (hx : 0 < x.toInt) : (x-1#32).toInt = x.toInt-1 := by
  have h2 := toInt_lt (x := x)
  rw [toInt_sub]
  exact bmod_eq_of_le (by simp; omega) (by simp; omega)

theorem UnsignedMod32.rem (h : UnsignedMod32 r a b vars σ) : 0 ≤ σ r ∧ σ r < σ b := by
  rw [← h.rel]
  exact ⟨emod_nonneg _ h.pos.ne',emod_lt_of_pos _ h.pos⟩

theorem modExact32_refutes (h0 : Small r a b vars₀)
    (hT : Typed [r,a,b] vars₀ vars) (hp : Pinned [r,a,b] vars σ) (ha : 0 ≤ σ a) (hb : 0 < σ b)
    (hR : ¬ModRel r a b σ) : (modExact32 r a b).wp (fun res _ => res = .conflict) vars := by
  have hsmall : ∀ v ∈ [r,a,b], (vars v).lo.toInt = σ v ∧ (vars v).hi.toInt = σ v := fun v hv => by
    have ht : (vars v).tier1 = false := ((hT.same v).tier1).trans (h0 v hv)
    exact ⟨((hT.ok v hv).least_eq ht).symm.trans (hp.least v hv),
      ((hT.ok v hv).most_eq ht).symm.trans (hp.most v hv)⟩
  obtain ⟨a1,a2⟩ := hsmall a (by simp)
  obtain ⟨b1,b2⟩ := hsmall b (by simp)
  have hval : (posRem (vars a).lo (vars b).lo).toInt = (σ a).tmod (σ b) := by
    rw [posRem32_toInt (by omega),a1,b1,Int.tmod_eq_emod_of_nonneg ha]
  have hnum : (((posRem (vars a).lo (vars b).lo).signExtend 64).setWidth 32).toInt =
      (σ a).tmod (σ b) := by rw [setWidth_signExtend,hval]
  simp only [modExact32,Fire.wp]
  rw [if_pos ⟨eq_of_toInt_eq (a1.trans a2.symm),eq_of_toInt_eq (b1.trans b2.symm),by omega⟩]
  refine (bounds32 (by simp) (h0 r (by simp))).pin hT hp (fun _ => rfl) fun h1 h2 => absurd ?_ hR
  rw [ModRel,← hnum]
  exact le_antisymm h2 h1

end Mod32

theorem fireBoundsMod32_propagates (hh : Honest r a b s.ctx.vars) (h0 : Small r a b s.ctx.vars) :
    PropagatesOn [r,a,b] (fun σ => σ b ≠ 0) (ModRel r a b) (fireBoundsMod32 r a b) s := by
  have hT : Typed [r,a,b] s.ctx.vars s.ctx.vars := .refl hh.ok
  have hbounds := bounds32 (W:=[r,a,b]) (by simp) (h0 r (by simp))
  have eb := (hh.ok b (by simp)).least_eq (h0 b (by simp))
  have eb' := (hh.ok b (by simp)).most_eq (h0 b (by simp))
  have hwb := hh.lo (x:=b) (by simp)
  refine (PropagatesOn.iff (L:=fun _ => False) (fun σ hσ hb hR _ => ?_) (fun _ _ _ _ h => h.elim)
    fun σ hp hb hR => ?_).mpr fun _ _ _ _ h => h
  · have h := divSetting32 hh h0 hσ hb
    have b1 := hσ.least b (by simp)
    have b2 := hσ.most b (by simp)
    simp only [fireBoundsMod32,Fire.wp]
    cases hs : signedOp (s.ctx.vars r) (s.ctx.vars a) (s.ctx.vars b)
    · obtain ⟨ha0,hb0⟩ := h.nonneg hs
      have a1 := hσ.least a (by simp)
      have hu : UnsignedMod32 r a b s.ctx.vars σ := by
        refine ⟨hh.ok,h0,?_,by omega,?_⟩
        · have hr0 := (hh.ok r (by simp)).nonneg (signedOp_false hs).1 le_rfl
          simp only [mem_cons,not_mem_nil,or_false]
          rintro v (rfl | rfl | rfl)
          · exact hr0
          · exact ha0
          · exact hb0
        · rw [hR,Int.tmod_eq_emod_of_nonneg (by omega)]
      rw [if_neg (by simp)]
      by_cases hc : (s.ctx.vars b).lo = (s.ctx.vars b).hi ∧ 0 < (s.ctx.vars b).lo.toInt
      · rw [if_pos hc]
        obtain ⟨r0,r1⟩ := hu.rem
        have hk := hc.1 ▸ eb'
        refine hbounds.keep hT hσ (by simpa using r0) ?_ fun _ hT hσ => modExact32_keeps hu hT hσ
        rw [setWidth_signExtend,pred32_toInt hc.2]
        omega
      · rw [if_neg hc]
        exact modExact32_keeps hu hT hσ
    · rw [if_pos rfl]
      have hlo := le_toInt (s.ctx.vars b).lo
      have hlt := toInt_lt (x := (s.ctx.vars b).lo)
      have habs : (absWord (varLo64 (s.ctx.vars b))).toInt = |(s.ctx.vars b).least| := by
        rw [absWord_toInt,hwb,if_neg (by omega)]
      have hfb := hh.fixed_iff (x:=b) (by simp)
      refine modSigned_keeps h (fun hcut => ?_) hR (fun hcut => ?_) fun _ hbe => ?_
      · have hne : (s.ctx.vars b).least ≠ 0 := fun h0 => hcut.2 (eq_of_toInt_eq (by
          rw [hwb,h0]
          rfl))
        rw [habs]
        exact ⟨Int.one_le_abs hne,abs_le.mpr ⟨by norm_num; omega,by norm_num; omega⟩⟩
      · have hk : (s.ctx.vars b).least = σ b := by
          have := hfb.mp hcut.1
          omega
        have hR' : σ r = (σ a).tmod (σ b) := hR
        rw [habs,hk,hR']
        exact (TruncDiv.tmod_range hb).2.2
      · rw [(hh.ok r (by simp)).not_beyond (h0 r (by simp))] at hbe
        simp at hbe
  · have h := divSetting32 hh h0 hp.inside hb
    simp only [fireBoundsMod32,Fire.wp]
    cases hs : signedOp (s.ctx.vars r) (s.ctx.vars a) (s.ctx.vars b)
    · obtain ⟨ha0,hb0⟩ := h.nonneg hs
      rw [hp.least a (by simp)] at ha0
      rw [hp.least b (by simp)] at hb0 eb
      rw [hp.most b (by simp)] at eb'
      rw [if_neg (by simp),if_pos ⟨eq_of_toInt_eq (eb.symm.trans eb'),by omega⟩]
      exact hbounds.pin hT hp (fun _ => rfl) fun _ _ _ hT hp =>
        modExact32_refutes h0 hT hp ha0 (by omega) hR
    · rw [if_pos rfl]
      exact modSigned_refutes h hp hR

end Mod

/-- The fires of quotient and remainder propagate among the nonzero divisors exactly when no
solution is among the lost ones; that of the small remainders always does. -/
theorem div_mod_exact (s : Engine) (r a b : ℕ) (hh : Honest r a b s.ctx.vars) :
    (PropagatesOn [r,a,b] (fun σ => σ b ≠ 0) (DivRel r a b s.ctx.vars) (fireBoundsDiv64 r a b) s ↔
      ∀ σ, Inside [r,a,b] s.ctx.vars σ → σ b ≠ 0 → DivRel r a b s.ctx.vars σ →
        ¬(signedOp (s.ctx.vars r) (s.ctx.vars a) (s.ctx.vars b) = true ∧ DivLost r a b s.ctx.vars σ)) ∧
    (PropagatesOn [r,a,b] (fun σ => σ b ≠ 0) (ModRel r a b) (fireBoundsMod64 r a b) s ↔
      ∀ σ, Inside [r,a,b] s.ctx.vars σ → σ b ≠ 0 → ModRel r a b σ →
        ¬(if signedOp (s.ctx.vars r) (s.ctx.vars a) (s.ctx.vars b) then ModLost r a b s.ctx.vars σ
          else StepLost r a b s.ctx.vars σ)) ∧
    (Small r a b s.ctx.vars →
      (PropagatesOn [r,a,b] (fun σ => σ b ≠ 0) (DivRel r a b s.ctx.vars) (fireBoundsDiv32 r a b) s ↔
        ∀ σ, Inside [r,a,b] s.ctx.vars σ → σ b ≠ 0 → DivRel r a b s.ctx.vars σ →
          ¬(signedOp (s.ctx.vars r) (s.ctx.vars a) (s.ctx.vars b) = true ∧ DivLost r a b s.ctx.vars σ)) ∧
      PropagatesOn [r,a,b] (fun σ => σ b ≠ 0) (ModRel r a b) (fireBoundsMod32 r a b) s) := by
  refine ⟨fireBoundsDiv64_propagates hh,fireBoundsMod64_propagates hh,fun h0 => ?_⟩
  exact ⟨fireBoundsDiv32_propagates hh h0,fireBoundsMod32_propagates hh h0⟩

def byteDivision : Engine :=
  holding fun v => if v = 2 then wideVar 3#64 3#64 8 true else wideVar (-128#64) 127#64 8 true

theorem div_mod_exact_bytes :
    PropagatesOn [0,1,2] (fun σ => σ 2 ≠ 0) (DivRel 0 1 2 byteDivision.ctx.vars)
      (fireBoundsDiv64 0 1 2) byteDivision ∧
    PropagatesOn [0,1,2] (fun σ => σ 2 ≠ 0) (ModRel 0 1 2) (fireBoundsMod64 0 1 2) byteDivision := by
  have hh : Honest 0 1 2 byteDivision.ctx.vars := by
    refine ⟨fun v hv => ?_,fun v hv => ?_⟩
    · simp only [mem_cons,not_mem_nil,or_false] at hv
      rcases hv with rfl | rfl | rfl <;>
        exact wideVar_ok (by decide) (by decide) (by decide) (by decide)
    · simp only [mem_cons,not_mem_nil,or_false] at hv
      rcases hv with rfl | rfl | rfl <;> decide
  obtain ⟨hdiv,hmod,-⟩ := div_mod_exact byteDivision 0 1 2 hh
  refine ⟨hdiv.mpr fun σ _ _ _ h => ?_,hmod.mpr fun σ _ _ _ h => ?_⟩
  · have h1 : (byteDivision.ctx.vars 2).least = 3 := by decide
    have h2 : (byteDivision.ctx.vars 2).most = 3 := by decide
    have h3 : (byteDivision.ctx.vars 0).beyond = false := by decide
    simp [DivLost,h1,h2,h3] at h
  · have h1 : (byteDivision.ctx.vars 2).least = 3 := by decide
    have h2 : (byteDivision.ctx.vars 0).beyond = false := by decide
    rw [if_pos (by decide)] at h
    simp [ModLost,h1,h2] at h

def wordDivision (b : Variable) : Engine :=
  holding fun v => if v = 0 then wideVar (intMin 64) (BitVec.intMax 64) 64 true else
    if v = 1 then wideVar (intMin 64) 0#64 64 true else b

theorem wordDivision_honest {b : Variable} (hok : b.Ok) (hb : rng64 b = true) :
    Honest 0 1 2 (wordDivision b).ctx.vars := by
  refine ⟨fun v hv => ?_,fun v hv => ?_⟩
  · simp only [mem_cons,not_mem_nil,or_false] at hv
    rcases hv with rfl | rfl | rfl
    · exact wideVar_ok (by decide) (by decide) (by decide) (by decide)
    · exact wideVar_ok (by decide) (by decide) (by decide) (by decide)
    · exact hok
  · simp only [mem_cons,not_mem_nil,or_false] at hv
    rcases hv with rfl | rfl | rfl
    · rfl
    · rfl
    · exact hb

/-- The quotients by -1 are cut at those of both ends, and the least of these has wrapped; the
remainders are cut at the greatest divisor, when the least one has no opposite. -/
theorem div_mod_wrong :
    (Honest 0 1 2 (wordDivision (wideVar (-1#64) (-1#64) 64 true)).ctx.vars ∧
      ¬PropagatesOn [0,1,2] (fun σ => σ 2 ≠ 0)
        (DivRel 0 1 2 (wordDivision (wideVar (-1#64) (-1#64) 64 true)).ctx.vars)
        (fireBoundsDiv64 0 1 2) (wordDivision (wideVar (-1#64) (-1#64) 64 true))) ∧
    Honest 0 1 2 (wordDivision (wideVar (intMin 64) 1#64 64 true)).ctx.vars ∧
      ¬PropagatesOn [0,1,2] (fun σ => σ 2 ≠ 0) (ModRel 0 1 2) (fireBoundsMod64 0 1 2)
        (wordDivision (wideVar (intMin 64) 1#64 64 true)) := by
  have hdiv := wordDivision_honest (b:=wideVar (-1#64) (-1#64) 64 true)
    (wideVar_ok (by decide) (by decide) (by decide) (by decide)) (by decide)
  have hmod := wordDivision_honest (b:=wideVar (intMin 64) 1#64 64 true)
    (wideVar_ok (by decide) (by decide) (by decide) (by decide)) (by decide)
  refine ⟨⟨hdiv,fun h => ?_⟩,hmod,fun h => ?_⟩
  · have hb : ((wordDivision (wideVar (-1#64) (-1#64) 64 true)).ctx.vars 2).least = -1 := by decide
    have hb' : ((wordDivision (wideVar (-1#64) (-1#64) 64 true)).ctx.vars 2).most = -1 := by decide
    have ha : ((wordDivision (wideVar (-1#64) (-1#64) 64 true)).ctx.vars 1).least = -2^63 := by decide
    have ha' : ((wordDivision (wideVar (-1#64) (-1#64) 64 true)).ctx.vars 1).most = 0 := by decide
    have hr : DivRel 0 1 2 (wordDivision (wideVar (-1#64) (-1#64) 64 true)).ctx.vars fun v =>
        if v = 2 then -1 else if v = 1 then -5 else 5 := by
      change (5 : ℤ) = ((-5 : ℤ).tdiv (-1)).bmod (2^64)
      decide
    refine (fireBoundsDiv64_propagates hdiv).mp h _ ⟨?_,?_⟩ (by decide) hr
      ⟨rfl,?_,.inl ⟨hb,hb',rfl,ha,.inr ?_⟩⟩
    · simp only [mem_cons,not_mem_nil,or_false]
      rintro v (rfl | rfl | rfl) <;> decide
    · simp only [mem_cons,not_mem_nil,or_false]
      rintro v (rfl | rfl | rfl) <;> decide
    · rw [ha,ha']
      decide
    · rw [ha']
      decide
  · have hb : ((wordDivision (wideVar (intMin 64) 1#64 64 true)).ctx.vars 2).least = -2^63 := by
      decide
    have hb' : ((wordDivision (wideVar (intMin 64) 1#64 64 true)).ctx.vars 2).most = 1 := by
      decide
    have hr : ModRel 0 1 2 fun v => if v = 2 then -5 else -3 := by
      change (-3 : ℤ) = (-3 : ℤ).tmod (-5)
      decide
    refine (fireBoundsMod64_propagates hmod).mp h _ ⟨?_,?_⟩ (by decide) hr ?_
    · simp only [mem_cons,not_mem_nil,or_false]
      rintro v (rfl | rfl | rfl) <;> decide
    · simp only [mem_cons,not_mem_nil,or_false]
      rintro v (rfl | rfl | rfl) <;> decide
    · rw [if_pos (by decide)]
      refine .inl ⟨hb,?_,?_,?_⟩ <;> rw [hb'] <;> decide

end Solver
end DvSolve
