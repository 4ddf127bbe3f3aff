import DvSolve.PropIte
import Mathlib.Order.Bounds.Basic

/-! Membership in a set of values or a union of ranges: `_fire_in_set_32`, `_fire_in_set_64` and
`_fire_in_ranges_64`. -/
namespace DvSolve
namespace Solver

open BitVec (allOnes intMax intMin)

variable {v : Variable} {vars : ℕ → Variable} {s : Engine} {x : ℕ}

/-- The running minimum and maximum of the elements between `lo` and `hi`. -/
def setStep {w : ℕ} (lo hi : BitVec w) (h : BitVec w × BitVec w) (e : BitVec w) :
    BitVec w × BitVec w :=
  if lo.toInt ≤ e.toInt ∧ e.toInt ≤ hi.toInt then
    (if e.toInt < h.1.toInt then e else h.1,if h.2.toInt < e.toInt then e else h.2)
  else h

def setHull {w : ℕ} (lo hi : BitVec w) (elems : List (BitVec w)) : BitVec w × BitVec w :=
  elems.foldl (setStep lo hi) (intMax w,intMin w)

def fireInSet32 (x : ℕ) (elems : List (BitVec 32)) : Fire :=
  .read x fun vx =>
  let h := setHull vx.lo vx.hi elems
  if h.1 = intMax 32 then .done .conflict
  else .need .lb32 x (h.1.signExtend 64) <| .need .ub32 x (h.2.signExtend 64) <| .done .ok

def fireInSet64 (x : ℕ) (elems : List (BitVec 64)) : Fire :=
  .read x fun vx =>
  let h := setHull (varLo64 vx) (varHi64 vx) elems
  if h.1 = intMax 64 then .done .conflict
  else .between x h.1 h.2 <| .done .ok

/-- One range meets the domain `lo` to `hi`; `none` until one has. -/
def rangeStep (v : Variable) (lo hi : BitVec 64) (h : Option (BitVec 64 × BitVec 64))
    (r : BitVec 64 × BitVec 64) : Option (BitVec 64 × BitVec 64) :=
  let l := Dist.varBMax v r.1 lo
  let u := Dist.varBMin v r.2 hi
  if varBGt v l u = true then h
  else
    match h with
    | none => some (l,u)
    | some (a,b) => some (if varBLt v l a = true then l else a,if varBGt v u b = true then u else b)

def fireInRanges64 (x : ℕ) (ranges : List (BitVec 64 × BitVec 64)) : Fire :=
  .read x fun vx =>
  match ranges.foldl (rangeStep vx (varLo64 vx) (varHi64 vx)) none with
  | none => .done .conflict
  | some (lo,hi) => .between x lo hi <| .done .ok

section SetHull

variable {w : ℕ} {lo hi : BitVec w} {elems : List (BitVec w)}

theorem le_setStep (h : BitVec w × BitVec w) (e : BitVec w) (z : ℤ) :
    z ≤ (setStep lo hi h e).1.toInt ↔
      z ≤ h.1.toInt ∧ (lo.toInt ≤ e.toInt → e.toInt ≤ hi.toInt → z ≤ e.toInt) := by
  unfold setStep
  split_ifs <;> (try dsimp only) <;> omega

theorem setStep_le (h : BitVec w × BitVec w) (e : BitVec w) (z : ℤ) :
    (setStep lo hi h e).2.toInt ≤ z ↔
      h.2.toInt ≤ z ∧ (lo.toInt ≤ e.toInt → e.toInt ≤ hi.toInt → e.toInt ≤ z) := by
  unfold setStep
  split_ifs <;> (try dsimp only) <;> omega

theorem le_foldl_setStep (h : BitVec w × BitVec w) (z : ℤ) :
    z ≤ (elems.foldl (setStep lo hi) h).1.toInt ↔ z ≤ h.1.toInt ∧
      ∀ e ∈ elems, lo.toInt ≤ e.toInt → e.toInt ≤ hi.toInt → z ≤ e.toInt := by
  induction elems generalizing h with
  | nil => simp
  | cons e elems ih => rw [List.foldl_cons,ih,le_setStep,List.forall_mem_cons,and_assoc]

theorem foldl_setStep_le (h : BitVec w × BitVec w) (z : ℤ) :
    (elems.foldl (setStep lo hi) h).2.toInt ≤ z ↔ h.2.toInt ≤ z ∧
      ∀ e ∈ elems, lo.toInt ≤ e.toInt → e.toInt ≤ hi.toInt → e.toInt ≤ z := by
  induction elems generalizing h with
  | nil => simp
  | cons e elems ih => rw [List.foldl_cons,ih,setStep_le,List.forall_mem_cons,and_assoc]

def between (lo hi : BitVec w) (elems : List (BitVec w)) : Set ℤ :=
  {n | ∃ e ∈ elems, e.toInt = n ∧ lo.toInt ≤ n ∧ n ≤ hi.toInt}

theorem setHull_least {m : ℤ} (h : IsLeast (between lo hi elems) m) :
    (setHull lo hi elems).1.toInt = m := by
  obtain ⟨⟨e,he,rfl,h1,h2⟩,hmin⟩ := h
  refine le_antisymm ?_ ?_
  · exact ((le_foldl_setStep _ _).mp le_rfl).2 e he h1 h2
  · refine (le_foldl_setStep _ _).mpr ⟨?_,fun e' he' h1' h2' => hmin ⟨e',he',rfl,h1',h2'⟩⟩
    rw [BitVec.toInt_intMax]
    exact BitVec.toInt_le

theorem setHull_greatest {m : ℤ} (h : IsGreatest (between lo hi elems) m) :
    (setHull lo hi elems).2.toInt = m := by
  obtain ⟨⟨e,he,rfl,h1,h2⟩,hmax⟩ := h
  refine le_antisymm ?_ ?_
  · exact (foldl_setStep_le _ _).mpr
      ⟨BitVec.toInt_intMin_le e,fun e' he' h1' h2' => hmax ⟨e',he',rfl,h1',h2'⟩⟩
  · exact ((foldl_setStep_le _ _).mp le_rfl).2 e he h1 h2

theorem setHull_sentinel :
    (setHull lo hi elems).1 = intMax w ↔
      between lo hi elems = ∅ ∨ IsLeast (between lo hi elems) (intMax w).toInt := by
  have hmax : ∀ e : BitVec w, e.toInt ≤ (intMax w).toInt := fun e => by
    rw [BitVec.toInt_intMax]
    exact BitVec.toInt_le
  constructor
  · intro h
    have hall := ((le_foldl_setStep (intMax w,intMin w) _).mp
      (congrArg BitVec.toInt h).ge).2
    rcases Set.eq_empty_or_nonempty (between lo hi elems) with he | ⟨n,e,he,rfl,h1,h2⟩
    · exact .inl he
    · have heq := le_antisymm (hmax e) (hall e he h1 h2)
      refine .inr ⟨heq ▸ ⟨e,he,rfl,h1,h2⟩,?_⟩
      rintro _ ⟨e',he',rfl,h1',h2'⟩
      exact hall e' he' h1' h2'
  · rintro (h | h)
    · refine BitVec.eq_of_toInt_eq (le_antisymm (hmax _) ((le_foldl_setStep _ _).mpr ⟨le_rfl,?_⟩))
      exact fun e he h1 h2 => absurd h (Set.nonempty_iff_ne_empty.mp ⟨_,e,he,rfl,h1,h2⟩)
    · exact BitVec.eq_of_toInt_eq (setHull_least h)

section Shifted

variable {D : Set ℤ} {c m : ℤ} (hD : ∀ n, n ∈ D ↔ n-c ∈ between lo hi elems)

include hD

theorem isLeast_shifted : IsLeast D m ↔ IsLeast (between lo hi elems) (m-c) := by
  constructor
  · rintro ⟨h1,h2⟩
    refine ⟨(hD m).mp h1,fun n hn => ?_⟩
    have := h2 ((hD (n+c)).mpr (by rwa [add_sub_cancel_right]))
    omega
  · rintro ⟨h1,h2⟩
    refine ⟨(hD m).mpr h1,fun n hn => ?_⟩
    have := h2 ((hD n).mp hn)
    omega

theorem isGreatest_shifted : IsGreatest D m ↔ IsGreatest (between lo hi elems) (m-c) := by
  constructor
  · rintro ⟨h1,h2⟩
    refine ⟨(hD m).mp h1,fun n hn => ?_⟩
    have := h2 ((hD (n+c)).mpr (by rwa [add_sub_cancel_right]))
    omega
  · rintro ⟨h1,h2⟩
    refine ⟨(hD m).mpr h1,fun n hn => ?_⟩
    have := h2 ((hD n).mp hn)
    omega

theorem sentinel_iff : (setHull lo hi elems).1 = intMax w ↔ D = ∅ ∨ IsLeast D ((intMax w).toInt+c) := by
  rw [setHull_sentinel,isLeast_shifted hD,add_sub_cancel_right]
  refine or_congr_left ⟨fun h => ?_,fun h => ?_⟩
  · refine Set.eq_empty_of_forall_notMem fun n hn => ?_
    have := (hD n).mp hn
    rw [h] at this
    exact this
  · refine Set.eq_empty_of_forall_notMem fun n hn => ?_
    have := (hD (n+c)).mpr (by rwa [add_sub_cancel_right])
    rw [h] at this
    exact this

end Shifted

end SetHull

def members (x : ℕ) (M : Set ℤ) (vars : ℕ → Variable) : Set ℤ :=
  M ∩ Set.Icc (vars x).least (vars x).most

/-- Fired in `s`, `f` leaves the domain from the least to the greatest member that it holds, and
conflicts exactly when it holds none. -/
structure Narrows (x : ℕ) (M : Set ℤ) (f : Fire) (s : Engine) : Prop where
  conflict : (f.run s).1 = .conflict ↔ members x M s.ctx.vars = ∅
  hull : ∀ lo hi, IsLeast (members x M s.ctx.vars) lo → IsGreatest (members x M s.ctx.vars) hi →
    ((f.run s).2.ctx.vars x).least = lo ∧ ((f.run s).2.ctx.vars x).most = hi ∧
      ∀ v ≠ x, (f.run s).2.ctx.vars v = s.ctx.vars v

section Members

variable {M : Set ℤ} {lo hi : ℤ}

theorem members_ends (h : (members x M vars).Nonempty) :
    ∃ lo hi, IsLeast (members x M vars) lo ∧ IsGreatest (members x M vars) hi := by
  obtain ⟨lo,h1,h2⟩ := Int.exists_least_of_bdd (P:=(· ∈ members x M vars))
    ⟨(vars x).least,fun _ hn => hn.2.1⟩ h
  obtain ⟨hi,h3,h4⟩ := Int.exists_greatest_of_bdd (P:=(· ∈ members x M vars))
    ⟨(vars x).most,fun _ hn => hn.2.2⟩ h
  exact ⟨lo,hi,⟨h1,fun _ => h2 _⟩,h3,fun _ => h4 _⟩

def Left (x : ℕ) (vars₀ : ℕ → Variable) (lo hi : ℤ) (r : PropResult) (vars : ℕ → Variable) : Prop :=
  r ≠ .conflict ∧ (vars x).least = lo ∧ (vars x).most = hi ∧ ∀ v ≠ x, vars v = vars₀ v

theorem Narrows.of_wp {f : Fire}
    (hnone : members x M s.ctx.vars = ∅ → f.wp (fun r _ => r = .conflict) s.ctx.vars)
    (hsome : ∀ lo hi, IsLeast (members x M s.ctx.vars) lo → IsGreatest (members x M s.ctx.vars) hi →
      f.wp (Left x s.ctx.vars lo hi) s.ctx.vars) : Narrows x M f s where
  conflict := by
    refine ⟨fun hc => ?_,fun h => Fire.run_of_wp (hnone h)⟩
    by_contra hne
    obtain ⟨lo,hi,hlo,hhi⟩ := members_ends (Set.nonempty_iff_ne_empty.mpr hne)
    exact (Fire.run_of_wp (hsome lo hi hlo hhi)).1 hc
  hull lo hi hlo hhi := (Fire.run_of_wp (hsome lo hi hlo hhi)).2

theorem Narrows.none_of_conflict {f : Fire} (h : f.wp (fun r _ => r = .conflict) s.ctx.vars) :
    Narrows x M f s ↔ members x M s.ctx.vars = ∅ :=
  ⟨fun hn => hn.conflict.mp (Fire.run_of_wp h),fun he => .of_wp (fun _ => h) fun lo hi hlo _ => by
    rw [he] at hlo
    exact absurd hlo.1 (Set.notMem_empty _)⟩

theorem wp_between_left {a b : BitVec 64} (hok : (vars x).Ok) (hlo : IsLeast (members x M vars) lo)
    (hhi : IsGreatest (members x M vars) hi) (ha : varOrd (vars x) a = lo)
    (hb : varOrd (vars x) b = hi) :
    (Fire.between x a b <| .done .ok).wp (Left x vars lo hi) vars := by
  have hok' : ∀ v ∈ [x], (vars v).Ok := by simpa using hok
  have hle : lo ≤ hi := hlo.2 hhi.1
  refine Fire.wp_between_exact (W:=[x]) (σ:=fun _ => lo) (.refl hok') ⟨?_,?_⟩ (by simp) ha.le
    (hb ▸ hle) fun vars' _ _ h1 h2 h3 => ⟨by simp,?_,?_,h3⟩
  · simpa using hlo.1.2.1
  · simpa using hlo.1.2.2
  · rw [h1,ha]
    exact max_eq_right hlo.1.2.1
  · rw [h2,hb]
    exact min_eq_right hhi.1.2.2

theorem wp_between32_left {a b : BitVec 32} (hok : (vars x).Ok) (h0 : (vars x).tier1 = false)
    (hlo : IsLeast (members x M vars) lo) (hhi : IsGreatest (members x M vars) hi)
    (ha : a.toInt = lo) (hb : b.toInt = hi) :
    (Fire.need .lb32 x (a.signExtend 64) <| .need .ub32 x (b.signExtend 64) <| .done .ok).wp
      (Left x vars lo hi) vars := by
  have hok' : ∀ v ∈ [x], (vars v).Ok := by simpa using hok
  have hle : lo ≤ hi := hlo.2 hhi.1
  have hna : Tighten.lb32.num (vars x) (a.signExtend 64) = lo := by
    rw [← ha]
    exact congrArg BitVec.toInt (setWidth_signExtend _)
  have hnb : Tighten.ub32.num (vars x) (b.signExtend 64) = hi := by
    rw [← hb]
    exact congrArg BitVec.toInt (setWidth_signExtend _)
  refine Fire.wp_tighten_exact (W:=[x]) (σ:=fun _ => lo) (.refl hok') ⟨?_,?_⟩ (by simp) h0 hna.le
    fun vars₁ ht₁ hσ₁ hl₁ hm₁ hf₁ => Fire.wp_tighten_exact ht₁ hσ₁ (by simp) h0 (hnb ▸ hle)
    fun vars₂ ht₂ hσ₂ hl₂ hm₂ hf₂ => ⟨by simp,?_,?_,fun v hv => (hf₂ v hv).trans (hf₁ v hv)⟩
  · simpa using hlo.1.2.1
  · simpa using hlo.1.2.2
  all_goals
    simp only [Tighten.least,Tighten.most,Tighten.isUb,if_true,Bool.false_eq_true,
      if_false] at hl₁ hm₁ hl₂ hm₂
  · rw [hl₂,hl₁,hna]
    exact max_eq_right hlo.1.2.1
  · rw [hm₂,hm₁,hnb]
    exact min_eq_right hhi.1.2.2

end Members

def valuesOf (v : Variable) (elems : List (BitVec 64)) : Set ℤ := {n | ∃ e ∈ elems, varOrd v e = n}

/-- The domain has patterns of both signs, so that as signed numbers its ends are crossed. -/
def Crossed (v : Variable) : Prop := v.beyond = true ∧ v.least < 2^63 ∧ 2^63 ≤ v.most

section Sets

variable {elems : List (BitVec 64)}

theorem fireInSet64_narrows {c : ℤ} (hok : (s.ctx.vars x).Ok)
    (hin : ∀ e : BitVec 64, (s.ctx.vars x).least ≤ varOrd (s.ctx.vars x) e ∧
      varOrd (s.ctx.vars x) e ≤ (s.ctx.vars x).most ↔
        (varLo64 (s.ctx.vars x)).toInt ≤ e.toInt ∧ e.toInt ≤ (varHi64 (s.ctx.vars x)).toInt)
    (hord : ∀ e : BitVec 64, (varLo64 (s.ctx.vars x)).toInt ≤ e.toInt →
      e.toInt ≤ (varHi64 (s.ctx.vars x)).toInt → varOrd (s.ctx.vars x) e = e.toInt+c) :
    Narrows x (valuesOf (s.ctx.vars x) elems) (fireInSet64 x elems) s ↔
      ¬IsLeast (members x (valuesOf (s.ctx.vars x) elems) s.ctx.vars) (2^63-1+c) := by
  have hD : ∀ n, n ∈ members x (valuesOf (s.ctx.vars x) elems) s.ctx.vars ↔
      n-c ∈ between (varLo64 (s.ctx.vars x)) (varHi64 (s.ctx.vars x)) elems := fun n => by
    constructor
    · rintro ⟨⟨e,he,rfl⟩,h1,h2⟩
      obtain ⟨h3,h4⟩ := (hin e).mp ⟨h1,h2⟩
      have heq : varOrd (s.ctx.vars x) e-c = e.toInt := by
        rw [hord e h3 h4]
        omega
      exact ⟨e,he,heq.symm,heq ▸ h3,heq ▸ h4⟩
    · rintro ⟨e,he,heq,h1,h2⟩
      rw [← heq] at h1 h2
      have hn : varOrd (s.ctx.vars x) e = n := by
        rw [hord e h1 h2]
        omega
      obtain ⟨h3,h4⟩ := (hin e).mpr ⟨h1,h2⟩
      exact ⟨⟨e,he,hn⟩,hn ▸ h3,hn ▸ h4⟩
  have hsent := sentinel_iff hD
  by_cases hmax : IsLeast (members x (valuesOf (s.ctx.vars x) elems) s.ctx.vars) (2^63-1+c)
  · rw [Narrows.none_of_conflict]
    · exact iff_of_false (fun he => Set.notMem_empty _ (he ▸ hmax.1)) (not_not.mpr hmax)
    · simp only [fireInSet64,Fire.wp]
      rw [if_pos (hsent.mpr (.inr hmax))]
      rfl
  refine iff_of_true (.of_wp (fun he => ?_) fun lo hi hlo hhi => ?_) hmax
  · simp only [fireInSet64,Fire.wp]
    rw [if_pos (hsent.mpr (.inl he))]
    rfl
  · simp only [fireInSet64,Fire.wp]
    rw [if_neg (fun hc => (hsent.mp hc).elim (fun he => Set.notMem_empty _ (he ▸ hlo.1)) hmax)]
    have hl := (isLeast_shifted hD).mp hlo
    have hg := (isGreatest_shifted hD).mp hhi
    have h1 := setHull_least hl
    have h2 := setHull_greatest hg
    obtain ⟨⟨-,-,-,a1,a2⟩,-⟩ := hl
    obtain ⟨⟨-,-,-,b1,b2⟩,-⟩ := hg
    refine wp_between_left hok hlo hhi ?_ ?_
    · rw [hord _ (h1 ▸ a1) (h1 ▸ a2),h1]
      omega
    · rw [hord _ (h2 ▸ b1) (h2 ▸ b2),h2]
      omega

/-- The set of 64 bit patterns is narrowed, unless the least member is the sentinel, or the
domain is crossed and holds a member. -/
theorem fireInSet64_iff (hok : (s.ctx.vars x).Ok) (hdom : (s.ctx.vars x).least ≤ (s.ctx.vars x).most) :
    Narrows x (valuesOf (s.ctx.vars x) elems) (fireInSet64 x elems) s ↔
      ¬(IsLeast (members x (valuesOf (s.ctx.vars x) elems) s.ctx.vars) (2^63-1) ∨
        Crossed (s.ctx.vars x) ∧ (members x (valuesOf (s.ctx.vars x) elems) s.ctx.vars).Nonempty) := by
  have wl := word_cases (varLo64 (s.ctx.vars x))
  have wh := word_cases (varHi64 (s.ctx.vars x))
  cases hb : (s.ctx.vars x).beyond
  · have hcross : ¬Crossed (s.ctx.vars x) := fun hc => absurd hc.1 (by simp [hb])
    rw [fireInSet64_narrows (c:=0) hok]
    · simp [hcross]
    · simp only [Variable.least,Variable.most,varOrd_plain hb,implies_true]
    · simp only [varOrd_plain hb,add_zero,implies_true]
  have hl : (s.ctx.vars x).least = (varLo64 (s.ctx.vars x)).toNat := varOrd_beyond hb _
  have hh : (s.ctx.vars x).most = (varHi64 (s.ctx.vars x)).toNat := varOrd_beyond hb _
  rcases lt_or_ge (s.ctx.vars x).most (2^63) with hlow | hhigh
  · have hcross : ¬Crossed (s.ctx.vars x) := fun hc => by
      have := hc.2.2
      omega
    rw [fireInSet64_narrows (c:=0) hok]
    · simp [hcross]
    · intro e
      have we := word_cases e
      rw [hl,hh,varOrd_beyond hb]
      omega
    · intro e h1 h2
      have we := word_cases e
      rw [varOrd_beyond hb]
      omega
  rcases lt_or_ge (s.ctx.vars x).least (2^63) with hlt | hge
  · have hcross : Crossed (s.ctx.vars x) := ⟨hb,hlt,hhigh⟩
    have hnone : between (varLo64 (s.ctx.vars x)) (varHi64 (s.ctx.vars x)) elems = ∅ := by
      refine Set.eq_empty_of_forall_notMem ?_
      rintro _ ⟨-,-,-,h1,h2⟩
      omega
    rw [Narrows.none_of_conflict,← Set.not_nonempty_iff_eq_empty]
    · refine not_congr ⟨fun h => .inr ⟨hcross,h⟩,?_⟩
      rintro (h | h)
      · exact ⟨_,h.1⟩
      · exact h.2
    · simp only [fireInSet64,Fire.wp]
      rw [if_pos (setHull_sentinel.mpr (.inl hnone))]
      rfl
  · have hcross : ¬Crossed (s.ctx.vars x) := fun hc => by
      have := hc.2.1
      omega
    rw [fireInSet64_narrows (c:=2^64) hok]
    · refine iff_of_true (fun h => ?_) fun h => ?_
      · have := h.1.2.2
        omega
      · rcases h with h | h
        · have := h.1.2.1
          omega
        · exact hcross h.1
    · intro e
      have we := word_cases e
      rw [hl,hh,varOrd_beyond hb]
      omega
    · intro e h1 h2
      have we := word_cases e
      rw [varOrd_beyond hb]
      omega

end Sets

section Sets32

variable {elems : List (BitVec 32)}

def values32 (elems : List (BitVec 32)) : Set ℤ := {n | ∃ e ∈ elems, e.toInt = n}

theorem fireInSet32_iff (hok : (s.ctx.vars x).Ok) (h0 : (s.ctx.vars x).tier1 = false) :
    Narrows x (values32 elems) (fireInSet32 x elems) s ↔
      ¬IsLeast (members x (values32 elems) s.ctx.vars) (2^31-1) := by
  have hD : ∀ n, n ∈ members x (values32 elems) s.ctx.vars ↔
      n-0 ∈ between (s.ctx.vars x).lo (s.ctx.vars x).hi elems := fun n => by
    rw [sub_zero,members,hok.least_eq h0,hok.most_eq h0]
    constructor
    · rintro ⟨⟨e,he,rfl⟩,h1,h2⟩
      exact ⟨e,he,rfl,h1,h2⟩
    · rintro ⟨e,he,rfl,h1,h2⟩
      exact ⟨⟨e,he,rfl⟩,h1,h2⟩
  have hsent := sentinel_iff hD
  by_cases hmax : IsLeast (members x (values32 elems) s.ctx.vars) (2^31-1)
  · rw [Narrows.none_of_conflict]
    · exact iff_of_false (fun he => Set.notMem_empty _ (he ▸ hmax.1)) (not_not.mpr hmax)
    · simp only [fireInSet32,Fire.wp]
      rw [if_pos (hsent.mpr (.inr hmax))]
      rfl
  refine iff_of_true (.of_wp (fun he => ?_) fun lo hi hlo hhi => ?_) hmax
  · simp only [fireInSet32,Fire.wp]
    rw [if_pos (hsent.mpr (.inl he))]
    rfl
  · simp only [fireInSet32,Fire.wp]
    rw [if_neg (fun hc => (hsent.mp hc).elim (fun he => Set.notMem_empty _ (he ▸ hlo.1)) hmax)]
    have h1 := setHull_least ((isLeast_shifted hD).mp hlo)
    have h2 := setHull_greatest ((isGreatest_shifted hD).mp hhi)
    exact wp_between32_left hok h0 hlo hhi (by omega) (by omega)

end Sets32

section Ranges

variable {ranges : List (BitVec 64 × BitVec 64)}

def rangesOf (v : Variable) (ranges : List (BitVec 64 × BitVec 64)) : Set ℤ :=
  {n | ∃ r ∈ ranges, varOrd v r.1 ≤ n ∧ n ≤ varOrd v r.2}

def Overlaps (v : Variable) (lo hi : BitVec 64) (r : BitVec 64 × BitVec 64) : Prop :=
  varOrd v (Dist.varBMax v r.1 lo) ≤ varOrd v (Dist.varBMin v r.2 hi)

variable {lo hi : BitVec 64}

theorem rangeStep_eq (v : Variable) (lo hi : BitVec 64) (h : Option (BitVec 64 × BitVec 64))
    (r : BitVec 64 × BitVec 64) :
    (¬Overlaps v lo hi r → rangeStep v lo hi h r = h) ∧
    (Overlaps v lo hi r → ∃ p, rangeStep v lo hi h r = some p ∧
      (∀ z, z ≤ varOrd v p.1 ↔ (∀ p, h = some p → z ≤ varOrd v p.1) ∧
        z ≤ varOrd v (Dist.varBMax v r.1 lo)) ∧
      ∀ z, varOrd v p.2 ≤ z ↔ (∀ p, h = some p → varOrd v p.2 ≤ z) ∧
        varOrd v (Dist.varBMin v r.2 hi) ≤ z) := by
  unfold rangeStep Overlaps
  generalize Dist.varBMax v r.1 lo = l
  generalize Dist.varBMin v r.2 hi = u
  refine ⟨fun ho => ?_,fun ho => ?_⟩
  · rw [if_pos ((varBGt_iff _ _ _).mpr (not_le.mp ho))]
  · rw [if_neg (by rw [varBGt_iff]; omega)]
    cases h with
    | none => exact ⟨_,rfl,by simp,by simp⟩
    | some p =>
      obtain ⟨a,b⟩ := p
      refine ⟨_,rfl,fun z => ?_,fun z => ?_⟩
      · simp only [Option.some.injEq,forall_eq',Solver.varBLt_iff]
        split_ifs <;> omega
      · simp only [Option.some.injEq,forall_eq',varBGt_iff]
        split_ifs <;> omega

theorem rangeStep_none (h : Option (BitVec 64 × BitVec 64)) (r : BitVec 64 × BitVec 64) :
    rangeStep v lo hi h r = none ↔ h = none ∧ ¬Overlaps v lo hi r := by
  obtain ⟨h1,h2⟩ := rangeStep_eq v lo hi h r
  by_cases ho : Overlaps v lo hi r
  · obtain ⟨p,hp,-⟩ := h2 ho
    simp [hp,ho]
  · simp [h1 ho,ho]

theorem le_rangeStep (h : Option (BitVec 64 × BitVec 64)) (r : BitVec 64 × BitVec 64) (z : ℤ) :
    (∀ p, rangeStep v lo hi h r = some p → z ≤ varOrd v p.1) ↔ (∀ p, h = some p → z ≤ varOrd v p.1) ∧
        (Overlaps v lo hi r → z ≤ varOrd v (Dist.varBMax v r.1 lo)) := by
  obtain ⟨h1,h2⟩ := rangeStep_eq v lo hi h r
  by_cases ho : Overlaps v lo hi r
  · obtain ⟨p,hp,hl,-⟩ := h2 ho
    simp only [hp,ho,Option.some.injEq,forall_eq',forall_const,hl]
  · simp [h1 ho,ho]

theorem rangeStep_le (h : Option (BitVec 64 × BitVec 64)) (r : BitVec 64 × BitVec 64) (z : ℤ) :
    (∀ p, rangeStep v lo hi h r = some p → varOrd v p.2 ≤ z) ↔ (∀ p, h = some p → varOrd v p.2 ≤ z) ∧
        (Overlaps v lo hi r → varOrd v (Dist.varBMin v r.2 hi) ≤ z) := by
  obtain ⟨h1,h2⟩ := rangeStep_eq v lo hi h r
  by_cases ho : Overlaps v lo hi r
  · obtain ⟨p,hp,-,hl⟩ := h2 ho
    simp only [hp,ho,Option.some.injEq,forall_eq',forall_const,hl]
  · simp [h1 ho,ho]

theorem foldl_rangeStep (v : Variable) (lo hi : BitVec 64) (ranges : List (BitVec 64 × BitVec 64))
    (h : Option (BitVec 64 × BitVec 64)) :
    (ranges.foldl (rangeStep v lo hi) h = none ↔ h = none ∧ ∀ r ∈ ranges, ¬Overlaps v lo hi r) ∧
    (∀ z, (∀ p, ranges.foldl (rangeStep v lo hi) h = some p → z ≤ varOrd v p.1) ↔
      (∀ p, h = some p → z ≤ varOrd v p.1) ∧
        ∀ r ∈ ranges, Overlaps v lo hi r → z ≤ varOrd v (Dist.varBMax v r.1 lo)) ∧
    ∀ z, (∀ p, ranges.foldl (rangeStep v lo hi) h = some p → varOrd v p.2 ≤ z) ↔
      (∀ p, h = some p → varOrd v p.2 ≤ z) ∧
        ∀ r ∈ ranges, Overlaps v lo hi r → varOrd v (Dist.varBMin v r.2 hi) ≤ z := by
  induction ranges generalizing h with
  | nil => simp
  | cons r ranges ih =>
    obtain ⟨ih0,ih1,ih2⟩ := ih (rangeStep v lo hi h r)
    simp only [List.foldl_cons,List.forall_mem_cons]
    refine ⟨?_,fun z => ?_,fun z => ?_⟩
    · rw [ih0,rangeStep_none,and_assoc]
    · rw [ih1,le_rangeStep,and_assoc]
    · rw [ih2,rangeStep_le,and_assoc]

theorem mem_ranges (vars : ℕ → Variable) (x : ℕ) (ranges : List (BitVec 64 × BitVec 64)) (n : ℤ) :
    n ∈ members x (rangesOf (vars x) ranges) vars ↔ ∃ r ∈ ranges,
      varOrd (vars x) (Dist.varBMax (vars x) r.1 (varLo64 (vars x))) ≤ n ∧
        n ≤ varOrd (vars x) (Dist.varBMin (vars x) r.2 (varHi64 (vars x))) := by
  simp only [varOrd_bMax,varOrd_bMin,max_le_iff,le_min_iff]
  constructor
  · rintro ⟨⟨r,hr,h1,h2⟩,h3,h4⟩
    exact ⟨r,hr,⟨h1,h3⟩,h2,h4⟩
  · rintro ⟨r,hr,⟨h1,h3⟩,h2,h4⟩
    exact ⟨⟨r,hr,h1,h2⟩,h3,h4⟩

theorem fireInRanges64_narrows (hok : (s.ctx.vars x).Ok) :
    Narrows x (rangesOf (s.ctx.vars x) ranges) (fireInRanges64 x ranges) s := by
  have hmem := mem_ranges (s.ctx.vars) x ranges
  obtain ⟨hnone,hle,hge⟩ := foldl_rangeStep (s.ctx.vars x) (varLo64 (s.ctx.vars x))
    (varHi64 (s.ctx.vars x)) ranges none
  refine .of_wp (fun he => ?_) fun l u hl hu => ?_
  · simp only [fireInRanges64,Fire.wp]
    rw [hnone.mpr ⟨rfl,fun r hr ho => ?_⟩]
    · rfl
    · exact Set.notMem_empty _ (he ▸ (hmem _).mpr ⟨r,hr,le_rfl,ho⟩)
  · simp only [fireInRanges64,Fire.wp]
    cases hf : ranges.foldl (rangeStep (s.ctx.vars x) (varLo64 (s.ctx.vars x))
      (varHi64 (s.ctx.vars x))) none with
    | none =>
      obtain ⟨r,hr,h1,h2⟩ := (hmem l).mp hl.1
      exact absurd (h1.trans h2) ((hnone.mp hf).2 r hr)
    | some p =>
      obtain ⟨a,b⟩ := p
      simp only [hf,Option.some.injEq,forall_eq',reduceCtorEq,false_implies,implies_true,
        true_and] at hle hge
      refine wp_between_left hok hl hu (le_antisymm ?_ ?_) (le_antisymm ?_ ?_)
      · obtain ⟨r,hr,h1,h2⟩ := (hmem l).mp hl.1
        exact ((hle _).mp le_rfl r hr (h1.trans h2)).trans h1
      · exact (hle l).mpr fun r hr ho => hl.2 ((hmem _).mpr ⟨r,hr,le_rfl,ho⟩)
      · exact (hge u).mpr fun r hr ho => hu.2 ((hmem _).mpr ⟨r,hr,ho,le_rfl⟩)
      · obtain ⟨r,hr,h1,h2⟩ := (hmem u).mp hu.1
        exact h2.trans ((hge _).mp le_rfl r hr (h1.trans h2))

end Ranges

/-- The union of ranges is narrowed always; a set, unless the least member in the domain is the
sentinel or the domain of an unsigned 64 bit variable is crossed and holds a member. -/
theorem membership_exact (s : Engine) (x : ℕ) (hok : (s.ctx.vars x).Ok)
    (hdom : (s.ctx.vars x).least ≤ (s.ctx.vars x).most) :
    (∀ elems, (s.ctx.vars x).tier1 = false → (Narrows x (values32 elems) (fireInSet32 x elems) s ↔
      ¬IsLeast (members x (values32 elems) s.ctx.vars) (2^31-1))) ∧
    (∀ elems, Narrows x (valuesOf (s.ctx.vars x) elems) (fireInSet64 x elems) s ↔
      ¬(IsLeast (members x (valuesOf (s.ctx.vars x) elems) s.ctx.vars) (2^63-1) ∨
        Crossed (s.ctx.vars x) ∧ (members x (valuesOf (s.ctx.vars x) elems) s.ctx.vars).Nonempty)) ∧
    ∀ ranges, Narrows x (rangesOf (s.ctx.vars x) ranges) (fireInRanges64 x ranges) s := by
  refine ⟨fun elems h0 => ?_,fun elems => ?_,fun ranges => ?_⟩
  · exact fireInSet32_iff hok h0
  · exact fireInSet64_iff hok hdom
  · exact fireInRanges64_narrows hok

theorem membership_exact_byte :
    Narrows 0 (valuesOf (wideVar 0#64 200#64 8 false) [3#64,250#64,90#64]) (fireInSet64 0
      [3#64,250#64,90#64]) (holding fun _ => wideVar 0#64 200#64 8 false) := by
  refine ((membership_exact (holding fun _ => wideVar 0#64 200#64 8 false) 0 (wideVar_ok (by decide)
    (by decide) (by decide) (by decide)) (by decide)).2.1 _).mpr ?_
  rintro (h | h)
  · have hm : (2^63-1 : ℤ) ≤ (wideVar 0#64 200#64 8 false).most := h.1.2.2
    revert hm
    decide
  · exact absurd h.1.1 (by decide)

/-- The greatest signed number alone is refused as if the set were empty, and so is every set
over the full domain of unsigned words. -/
theorem membership_wrong :
    ¬Narrows 0 (valuesOf (wideVar (intMin 64) (intMax 64) 64 true) [intMax 64])
      (fireInSet64 0 [intMax 64])
      (holding fun _ => wideVar (intMin 64) (intMax 64) 64 true) ∧
    ¬Narrows 0 (valuesOf (wideVar 0#64 (allOnes 64) 64 false) [5#64]) (fireInSet64 0 [5#64])
      (holding fun _ => wideVar 0#64 (allOnes 64) 64 false) := by
  refine ⟨fun h => ?_,fun h => ?_⟩
  · have hc : (fireInSet64 0 [intMax 64]).wp (fun r _ => r = .conflict)
        (holding fun _ => wideVar (intMin 64) (intMax 64) 64 true).ctx.vars := by rfl
    have hnone := (Narrows.none_of_conflict hc).mp h
    refine Set.notMem_empty (2^63-1 : ℤ) (hnone ▸ ⟨⟨_,List.mem_singleton_self _,rfl⟩,?_,?_⟩)
    · change (wideVar (intMin 64) (intMax 64) 64 true).least ≤ 2^63-1
      decide
    · change 2^63-1 ≤ (wideVar (intMin 64) (intMax 64) 64 true).most
      decide
  · have hc : (fireInSet64 0 [5#64]).wp (fun r _ => r = .conflict)
        (holding fun _ => wideVar 0#64 (allOnes 64) 64 false).ctx.vars := by rfl
    have hnone := (Narrows.none_of_conflict hc).mp h
    refine Set.notMem_empty (5 : ℤ) (hnone ▸ ⟨⟨_,List.mem_singleton_self _,rfl⟩,?_,?_⟩)
    · change (wideVar 0#64 (allOnes 64) 64 false).least ≤ 5
      decide
    · change 5 ≤ (wideVar 0#64 (allOnes 64) 64 false).most
      decide

end Solver
end DvSolve
