import DvSolve.PropReifSmall

/-! What the conditional value keeps and loses, and the reifications together. -/
namespace DvSolve
namespace Solver

variable {v : Variable} {vars vars' vars₀ : ℕ → Variable} {s : Engine} {W : List ℕ} {σ : ℕ → ℤ}

theorem Fire.wp_need_step {t : Tighten} {id : ℕ} {b : BitVec 64} {f : Fire}
    {Q : PropResult → (ℕ → Variable) → Prop} (hid : id ∈ W) (ht : Typed W vars₀ vars)
    (hfit : t.Fits (vars₀ id)) (hQ : ∀ vars', Q .conflict vars')
    (hk : ∀ vars', Typed W vars vars' → (vars' id).least = t.least (vars id) (t.num (vars₀ id) b) →
      (vars' id).most = t.most (vars id) (t.num (vars₀ id) b) → (∀ v ≠ id, vars' v = vars v) →
      f.wp Q vars') : (Fire.need t id b f).wp Q vars := by
  have hnum := ht.num (t:=t) (b:=b) (v:=id)
  refine ⟨ht.ok id hid,ht.fits hfit,fun r vars' h => ?_⟩
  cases h with
  | ok x same ok hl hm live =>
    dsimp only
    rw [if_pos rfl]
    refine hk _ ((Typed.refl ht.ok).update same ok (hl ▸ t.least_le _ _) (hm ▸ t.le_most _ _)) ?_ ?_
      fun v hv => Function.update_of_ne hv _ _
    · rw [Function.update_self,hl,hnum]
    · rw [Function.update_self,hm,hnum]
  | conflict _ out => simpa [Fire.wp] using hQ vars'

theorem Fire.wp_between_out {id : ℕ} {lo hi : BitVec 64} {k : Fire} {E : PropResult → Prop}
    (ht : Typed W vars₀ vars) (hσ : Inside W vars σ) (hid : id ∈ W)
    (hb : σ id < varOrd (vars₀ id) lo ∨ varOrd (vars₀ id) hi < σ id) (hk : k.Stays W vars₀ E) :
    (Fire.between id lo hi k).wp (Lost W σ) vars := by
  by_cases hlo : σ id < varOrd (vars₀ id) lo
  · exact Fire.wp_need_out ht hid trivial hlo (.need hid trivial hk)
  · exact Fire.wp_lb64 ht hσ hid (not_lt.mp hlo) fun _ ht _ =>
      Fire.wp_need_out ht hid trivial (hb.resolve_left hlo) hk

/-- The bounds of `y`, in the order of `x`, and those of `x` have just `n` in common. -/
def MeetAt (x y : ℕ) (vars : ℕ → Variable) (n : ℤ) : Prop :=
  max (vars x).least ((vars x).readBy (vars y).least) = n ∧
    min (vars x).most ((vars x).readBy (vars y).most) = n

section Branch

variable {r a : ℕ} (hr : r ∈ W) (ha : a ∈ W) (hok : ∀ v ∈ W, (vars v).Ok)

def selectOf (r a : ℕ) (vars : ℕ → Variable) : Fire :=
  select64 (vars r) r a (varLo64 (vars a)) (varHi64 (vars a))

include hr ha

theorem selectOf_stays : (selectOf r a vars).Stays W vars fun _ => True :=
  (meetOf_stays hr ha trivial trivial).andThen fun _ _ => .ite trivial trivial

include hok

theorem selectOf_keeps (hσ : Inside W vars σ) (he : σ r = σ a) (hm : Met r a vars (σ r)) :
    (selectOf r a vars).wp (fun res vars' => res ≠ .conflict ∧ Inside W vars' σ) vars := by
  refine Fire.wp_andThen_kept (meetOf_keeps hr ha (.refl hok) hσ he hm) fun vars₁ _ hσ₁ => ?_
  simp only [Fire.wp]
  split_ifs
  · exact ⟨by simp,hσ₁⟩
  · exact ⟨by simp,hσ₁⟩

theorem selectOf_loses (hσ : Inside W vars σ) (hm : ¬Met r a vars (σ r)) :
    (selectOf r a vars).wp (Lost W σ) vars :=
  Fire.Stays.andThen_lost (E:=fun _ => True) (meetOf_stays hr ha trivial trivial)
    (fun _ _ => .ite trivial trivial) (.refl hok) (meetOf_loses hr ha (.refl hok) hσ hm)

theorem selectOf_refutes (hp : Pinned W vars σ)
    (hm : ¬(SamePattern (σ r) (σ a) ∧ MeetAt r a vars (σ r))) :
    (selectOf r a vars).wp (fun res _ => res = .conflict) vars := by
  refine Fire.wp_andThen_conflict ?_
  change (meetOf r a vars).wp _ vars
  rw [meetOf_refutes hr ha hok hp fun htw => hm ⟨htw,?_⟩]
  · rfl
  · rw [MeetAt,hp.least r hr,hp.most r hr,hp.least a ha,hp.most a ha,← htw.readBy,
      hp.inside.readBy (.refl hok) hr]
    simp

theorem selectOf_passes (hσ : Inside W vars σ) (htw : SamePattern (σ r) (σ a))
    (hm : MeetAt r a vars (σ r)) :
    (selectOf r a vars).wp (fun res vars' => res = .entailed ∧ Inside W vars' σ) vars := by
  refine Fire.wp_andThen_and (meetOf_meets hr ha (.refl hok) hσ hm.1 hm.2 htw) fun vars₁ ht₁ hσ₁ hp => ?_
  have r1 := hσ₁.least r hr
  have r2 := hσ₁.most r hr
  have a1 := hσ₁.least a ha
  have a2 := hσ₁.most a ha
  have hpat : varLo64 (vars₁ a) = varLo64 (vars₁ r) := by
    rw [lo_eq_ofInt,lo_eq_ofInt,show (vars₁ a).least = σ a by omega,show (vars₁ r).least = σ r by omega]
    exact htw.symm
  simp only [Fire.wp]
  rw [if_pos ⟨(single_iff _).mpr (by omega),(single_iff _).mpr (by omega),hpat⟩]
  exact ⟨rfl,hσ₁⟩

theorem meetOf_exact (hne : r ≠ a) :
    (meetOf r a vars).wp (fun res vars' => res = .conflict ∨ res = .ok ∧ Typed W vars vars' ∧
      (vars' r).least = max (vars r).least ((vars r).readBy (vars a).least) ∧
      (vars' r).most = min (vars r).most ((vars r).readBy (vars a).most)) vars := by
  have hlo := varOrd_bMax (vars r) (varLo64 (vars r)) (varLo64 (vars a))
  have hhi := varOrd_bMin (vars r) (varHi64 (vars r)) (varHi64 (vars a))
  rw [varOrd_lo _ (vars a)] at hlo
  rw [varOrd_hi _ (vars a)] at hhi
  unfold meetOf meet64
  dsimp only
  split_ifs
  · exact .inl rfl
  refine Fire.wp_need_step hr (.refl hok) trivial (fun _ => .inl rfl) fun vars₁ ht₁ hl₁ hm₁ _ => ?_
  refine Fire.wp_need_step hr ht₁ trivial (fun _ => .inl rfl) fun vars₂ ht₂ hl₂ hm₂ _ => ?_
  have ht₂' := ht₁.trans ht₂
  refine Fire.wp_need_step ha ht₂' trivial (fun _ => .inl rfl) fun vars₃ ht₃ _ _ hf₃ => ?_
  have ht₃' := ht₂'.trans ht₃
  refine Fire.wp_need_step ha ht₃' trivial (fun _ => .inl rfl) fun vars₄ ht₄ _ _ hf₄ => ?_
  simp only [Tighten.least,Tighten.most,Tighten.isUb,Tighten.num,if_true,Bool.false_eq_true,
    if_false] at hl₁ hm₁ hl₂ hm₂
  refine .inr ⟨rfl,ht₃'.trans ht₄,?_,?_⟩
  · rw [hf₄ r hne,hf₃ r hne,hl₂,hl₁,hlo]
    exact max_eq_right (le_max_left _ _)
  · rw [hf₄ r hne,hf₃ r hne,hm₂,hm₁,hhi]
    exact min_eq_right (min_le_left _ _)

theorem selectOf_entails :
    (selectOf r a vars).wp (fun res vars' => res = .entailed → ∀ σ, Inside W vars' σ →
      Inside W vars σ ∧ (σ r = σ a ∨ SamePattern (σ r) (σ a) ∧ MeetAt r a vars (σ r))) vars := by
  by_cases hne : r = a
  · subst hne
    refine Fire.wp_mono (fun res vars' h he σ hσ => ?_) ((selectOf_stays hr hr).wp (.refl hok))
    rcases h with h | h
    · simp [h] at he
    · exact ⟨h.2.inside hσ,.inl rfl⟩
  change ((meetOf r a vars).andThen _).wp _ vars
  rw [Fire.wp_andThen]
  refine Fire.wp_mono (fun res vars₁ h => ?_) (meetOf_exact hr ha hok hne)
  rcases h with rfl | ⟨rfl,ht,hl,hm⟩
  · simp
  rw [if_pos rfl]
  simp only [Fire.wp]
  split_ifs with hc
  swap
  · exact fun he => by cases he
  intro _ σ hσ
  have r1 := hσ.least r hr
  have r2 := hσ.most r hr
  have a1 := hσ.least a ha
  have a2 := hσ.most a ha
  have f1 := (single_iff _).mp hc.1
  have f2 := (single_iff _).mp hc.2.1
  have h3 := hc.2.2
  rw [lo_eq_ofInt,lo_eq_ofInt,show (vars₁ a).least = σ a by omega,
    show (vars₁ r).least = σ r by omega] at h3
  exact ⟨ht.inside hσ,.inr ⟨h3.symm,by omega,by omega⟩⟩

end Branch

structure Selected (r c a b : ℕ) (vars : ℕ → Variable) : Prop where
  ok : ∀ v ∈ [r,c,a,b], (vars v).Ok
  low : 0 ≤ (vars c).least
  high : (vars c).most ≤ 1

def IteRel (r c a b : ℕ) (σ : ℕ → ℤ) : Prop := σ r = if σ c = 1 then σ a else σ b

/-- `r` takes no value of `a`, as the bounds are read in the order of `r`. -/
def Off (r a : ℕ) (vars : ℕ → Variable) : Prop :=
  (vars r).most < (vars r).readBy (vars a).least ∨ (vars r).readBy (vars a).most < (vars r).least

def BranchAdmits (r p q : ℕ) (vars : ℕ → Variable) (n : ℤ) : Prop :=
  ¬Off r p vars ∧ (Off r q vars → Met r p vars n) ∧ (¬Off r q vars →
      min ((vars r).readBy (vars p).least) ((vars r).readBy (vars q).least) ≤ n ∧
      n ≤ max ((vars r).readBy (vars p).most) ((vars r).readBy (vars q).most))

def IteAdmits (r c a b : ℕ) (vars : ℕ → Variable) (σ : ℕ → ℤ) : Prop :=
  if (vars c).least = 1 then Met r a vars (σ r)
  else if (vars c).most = 0 then Met r b vars (σ r)
  else if σ c = 1 then BranchAdmits r a b vars (σ r) else BranchAdmits r b a vars (σ r)

/-- The result and the selected branch are left with one pattern, of two numbers. -/
def IteLeft (r c a b : ℕ) (vars : ℕ → Variable) (σ : ℕ → ℤ) : Prop :=
  if (vars c).least = 1 then SamePattern (σ r) (σ a) ∧ MeetAt r a vars (σ r)
  else (vars c).most = 0 ∧ SamePattern (σ r) (σ b) ∧ MeetAt r b vars (σ r)

section Ite

variable {r c a b : ℕ}

theorem off_iff (r a : ℕ) (vars : ℕ → Variable) :
    (varBLt (vars r) (varHi64 (vars r)) (varLo64 (vars a)) ||
      varBGt (vars r) (varLo64 (vars r)) (varHi64 (vars a))) = true ↔ Off r a vars := by
  rw [Bool.or_eq_true,above_iff,Solver.varBLt_iff,varOrd_lo]
  rfl

theorem lo_one_iff (v : Variable) : varLo64 v = 1#64 ↔ v.least = 1 := by
  rw [← varOrd_one v]
  exact ⟨fun h => congrArg (varOrd v) h,varOrd_inj⟩

theorem hi_zero_iff (v : Variable) : varHi64 v = 0#64 ↔ v.most = 0 := by
  rw [← varOrd_zero v]
  exact ⟨fun h => congrArg (varOrd v) h,varOrd_inj⟩

theorem hi_one_iff (v : Variable) : varHi64 v = 1#64 ↔ v.most = 1 := by
  rw [← varOrd_one v]
  exact ⟨fun h => congrArg (varOrd v) h,varOrd_inj⟩

theorem lo_zero_iff (v : Variable) : varLo64 v = 0#64 ↔ v.least = 0 := by
  rw [← varOrd_zero v]
  exact ⟨fun h => congrArg (varOrd v) h,varOrd_inj⟩

instance : Decidable (Off r a vars) := inferInstanceAs (Decidable (_ ∨ _))

def openOf (r c a b : ℕ) (vars : ℕ → Variable) : Fire :=
  if Off r a vars ∧ Off r b vars then .done .conflict
  else if Off r a vars then .need .ub64 c 0#64 <| meetOf r b vars
  else if Off r b vars then .need .lb64 c 1#64 <| meetOf r a vars
  else .between r (Dist.varBMin (vars r) (varLo64 (vars a)) (varLo64 (vars b)))
    (Dist.varBMax (vars r) (varHi64 (vars a)) (varHi64 (vars b))) <| .done .ok

theorem fireIteValue64_wp {Q : PropResult → (ℕ → Variable) → Prop} :
    (fireIteValue64 r c a b).wp Q vars ↔ (if (vars c).least = 1 ∧ (vars c).most = 1 then selectOf r a vars
      else if (vars c).least = 0 ∧ (vars c).most = 0 then selectOf r b vars
      else openOf r c a b vars).wp Q vars := by
  simp only [fireIteValue64,Fire.wp,lo_one_iff,hi_one_iff,lo_zero_iff,hi_zero_iff,openOf,
    Bool.and_eq_true,off_iff]
  rfl

section Open

variable (h : Selected r c a b vars) (hσ : Inside [r,c,a,b] vars σ)

theorem Selected.typed (h : Selected r c a b vars) : Typed [r,c,a,b] vars vars := .refl h.ok

theorem openOf_stays :
    (openOf r c a b vars).Stays [r,c,a,b] vars (· ≠ .entailed) := by
  have hok : (Fire.done .ok).Stays [r,c,a,b] vars (· ≠ .entailed) := by simp [Fire.Stays]
  have hc : (Fire.done .conflict).Stays [r,c,a,b] vars (· ≠ .entailed) := by simp [Fire.Stays]
  exact .ite hc (.ite (.need (by simp) trivial (meetOf_stays (by simp) (by simp) hok hc))
    (.ite (.need (by simp) trivial (meetOf_stays (by simp) (by simp) hok hc)) (.between (by simp) hok)))

include h hσ

theorem openOf_keeps (hR : IteRel r c a b σ)
    (hA : if σ c = 1 then BranchAdmits r a b vars (σ r) else BranchAdmits r b a vars (σ r)) :
    (openOf r c a b vars).wp (Retained [r,c,a,b] vars σ) vars := by
  have hr : r ∈ [r,c,a,b] := by simp
  have hc : c ∈ [r,c,a,b] := by simp
  have ha : a ∈ [r,c,a,b] := by simp
  have hb : b ∈ [r,c,a,b] := by simp
  have hhigh := h.high
  have c2 := hσ.most c hc
  have hlo := varOrd_bMin (vars r) (varLo64 (vars a)) (varLo64 (vars b))
  have hhi := varOrd_bMax (vars r) (varHi64 (vars a)) (varHi64 (vars b))
  rw [varOrd_lo,varOrd_lo] at hlo
  rw [varOrd_hi,varOrd_hi] at hhi
  have hbetween : min ((vars r).readBy (vars a).least) ((vars r).readBy (vars b).least) ≤ σ r →
      σ r ≤ max ((vars r).readBy (vars a).most) ((vars r).readBy (vars b).most) →
      (Fire.between r (Dist.varBMin (vars r) (varLo64 (vars a)) (varLo64 (vars b)))
        (Dist.varBMax (vars r) (varHi64 (vars a)) (varHi64 (vars b))) <| .done .ok).wp
          (Retained [r,c,a,b] vars σ) vars := fun h1 h2 =>
    Fire.wp_between h.typed hσ hr (by omega) (by omega) fun _ ht hσ => ⟨rfl,ht,hσ⟩
  unfold openOf
  unfold IteRel at hR
  split_ifs at hA hR with hone
  · obtain ⟨hp,hq,hh⟩ := hA
    rw [if_neg (by tauto),if_neg hp]
    split_ifs with hoff
    · exact Fire.wp_lb64 h.typed hσ hc (by rw [varOrd_one]; omega) fun _ ht hσ =>
        meetOf_keeps hr ha ht hσ hR (hq hoff)
    · exact hbetween (hh hoff).1 (hh hoff).2
  · obtain ⟨hp,hq,hh⟩ := hA
    rw [if_neg (by tauto)]
    split_ifs with hoff
    · exact Fire.wp_ub64 h.typed hσ hc (by rw [varOrd_zero]; omega) fun _ ht hσ =>
        meetOf_keeps hr hb ht hσ hR (hq hoff)
    · have := hh hoff
      exact hbetween (by rw [min_comm]; exact this.1) (by rw [max_comm]; exact this.2)

theorem openOf_loses
    (hA : ¬if σ c = 1 then BranchAdmits r a b vars (σ r) else BranchAdmits r b a vars (σ r)) :
    (openOf r c a b vars).wp (Lost [r,c,a,b] σ) vars := by
  have hr : r ∈ [r,c,a,b] := by simp
  have hc : c ∈ [r,c,a,b] := by simp
  have ha : a ∈ [r,c,a,b] := by simp
  have hb : b ∈ [r,c,a,b] := by simp
  have hhigh := h.high
  have c2 := hσ.most c hc
  have hlo := varOrd_bMin (vars r) (varLo64 (vars a)) (varLo64 (vars b))
  have hhi := varOrd_bMax (vars r) (varHi64 (vars a)) (varHi64 (vars b))
  rw [varOrd_lo,varOrd_lo] at hlo
  rw [varOrd_hi,varOrd_hi] at hhi
  have hdone : (Fire.done .ok).Stays [r,c,a,b] vars fun _ => True := trivial
  have hmeet : ∀ z ∈ [r,c,a,b], (meetOf r z vars).Stays [r,c,a,b] vars fun _ => True :=
    fun z hz => meetOf_stays hr hz trivial trivial
  unfold openOf
  by_cases hoa : Off r a vars <;> by_cases hob : Off r b vars
  · rw [if_pos ⟨hoa,hob⟩]
    exact .inl rfl
  · rw [if_neg (fun hc => hob hc.2),if_pos hoa]
    by_cases hone : σ c = 1
    · refine Fire.wp_need_out h.typed hc trivial ?_ (hmeet b hb)
      change varOrd _ 0#64 < σ c
      rw [varOrd_zero]
      omega
    · rw [if_neg hone] at hA
      have hm : ¬Met r b vars (σ r) := fun hm => hA ⟨hob,fun _ => hm,fun hc => absurd hoa hc⟩
      exact Fire.wp_ub64 h.typed hσ hc (by rw [varOrd_zero]; omega) fun _ ht hσ =>
        meetOf_loses hr hb ht hσ hm
  · rw [if_neg (fun hc => hoa hc.1),if_neg hoa,if_pos hob]
    by_cases hone : σ c = 1
    · rw [if_pos hone] at hA
      have hm : ¬Met r a vars (σ r) := fun hm => hA ⟨hoa,fun _ => hm,fun hc => absurd hob hc⟩
      exact Fire.wp_lb64 h.typed hσ hc (by rw [varOrd_one]; omega) fun _ ht hσ =>
        meetOf_loses hr ha ht hσ hm
    · refine Fire.wp_need_out h.typed hc trivial ?_ (hmeet a ha)
      change σ c < varOrd _ 1#64
      rw [varOrd_one]
      omega
  · rw [if_neg (fun hc => hoa hc.1),if_neg hoa,if_neg hob]
    refine Fire.wp_between_out h.typed hσ hr ?_ hdone
    rw [hlo,hhi]
    by_contra hc
    rw [not_or,not_lt,not_lt] at hc
    obtain ⟨h1,h2⟩ := hc
    refine hA ?_
    split_ifs
    · exact ⟨hoa,fun hc => absurd hc hob,fun _ => ⟨h1,h2⟩⟩
    · exact ⟨hob,fun hc => absurd hc hoa,fun _ => ⟨by rw [min_comm]; exact h1,by rw [max_comm]; exact h2⟩⟩

end Open

/-- The fire complies exactly when the bounds read in the order of `r` admit the solutions, and
no pattern is left that is two numbers. -/
theorem fireIteValue64_complies (h : Selected r c a b s.ctx.vars) :
    Complies [r,c,a,b] (IteRel r c a b) (fireIteValue64 r c a b) s ↔
      (∀ σ, Inside [r,c,a,b] s.ctx.vars σ → IteRel r c a b σ → IteAdmits r c a b s.ctx.vars σ) ∧
      ∀ σ, Inside [r,c,a,b] s.ctx.vars σ → ¬IteRel r c a b σ → ¬IteLeft r c a b s.ctx.vars σ := by
  have hr : r ∈ [r,c,a,b] := by simp
  have hc : c ∈ [r,c,a,b] := by simp
  have ha : a ∈ [r,c,a,b] := by simp
  have hb : b ∈ [r,c,a,b] := by simp
  have hlow := h.low
  have hhigh := h.high
  refine Complies.iff (fun σ hσ hR hA => ?_) (fun σ hσ hR hA => ?_) (fun σ hp hR hM => ?_)
    (fun σ hσ hR hM => ?_) fun hM => ?_
  · have c1 := hσ.least c hc
    have c2 := hσ.most c hc
    rw [fireIteValue64_wp]
    unfold IteAdmits at hA
    split_ifs with hone hzero
    · rw [if_pos hone.1] at hA
      exact selectOf_keeps hr ha h.ok hσ (by rw [hR,if_pos (by omega)]) hA
    · rw [if_neg (by omega),if_pos hzero.2] at hA
      exact selectOf_keeps hr hb h.ok hσ (by rw [hR,if_neg (by omega)]) hA
    · rw [if_neg (by omega),if_neg (by omega)] at hA
      exact Fire.wp_mono (fun _ _ => Retained.keeps) (openOf_keeps h hσ hR hA)
  · have c1 := hσ.least c hc
    have c2 := hσ.most c hc
    rw [fireIteValue64_wp]
    unfold IteAdmits at hA
    split_ifs with hone hzero
    · rw [if_pos hone.1] at hA
      exact selectOf_loses hr ha h.ok hσ hA
    · rw [if_neg (by omega),if_pos hzero.2] at hA
      exact selectOf_loses hr hb h.ok hσ hA
    · rw [if_neg (by omega),if_neg (by omega)] at hA
      exact openOf_loses h hσ hA
  · have c1 := hp.least c hc
    have c2 := hp.most c hc
    rw [fireIteValue64_wp]
    unfold IteLeft at hM
    split_ifs with hone hzero
    · rw [if_pos hone.1] at hM
      exact selectOf_refutes hr ha h.ok hp hM
    · rw [if_neg (by omega)] at hM
      exact selectOf_refutes hr hb h.ok hp fun hc => hM ⟨hzero.2,hc⟩
    · omega
  · have c1 := hσ.least c hc
    have c2 := hσ.most c hc
    rw [fireIteValue64_wp]
    unfold IteLeft at hM
    split_ifs at hM with hone
    · rw [if_pos (by omega)]
      exact Fire.wp_mono (fun _ _ h => ⟨by simp [h.1],.inr h⟩) (selectOf_passes hr ha h.ok hσ hM.1 hM.2)
    · rw [if_neg (by omega),if_pos (by omega)]
      exact Fire.wp_mono (fun _ _ h => ⟨by simp [h.1],.inr h⟩)
        (selectOf_passes hr hb h.ok hσ hM.2.1 hM.2.2)
  · rw [fireIteValue64_wp]
    split_ifs with hone hzero
    · refine Fire.wp_mono (fun res vars' hq he σ hσ => ?_) (selectOf_entails hr ha h.ok)
      obtain ⟨hσ₀,hq⟩ := hq he σ hσ
      have c1 := hσ₀.least c hc
      have c2 := hσ₀.most c hc
      by_contra hR
      refine hM σ hσ₀ hR ?_
      rw [IteLeft,if_pos hone.1]
      refine hq.resolve_left fun heq => hR ?_
      rw [IteRel,if_pos (by omega)]
      exact heq
    · refine Fire.wp_mono (fun res vars' hq he σ hσ => ?_) (selectOf_entails hr hb h.ok)
      obtain ⟨hσ₀,hq⟩ := hq he σ hσ
      have c2 := hσ₀.most c hc
      by_contra hR
      refine hM σ hσ₀ hR ?_
      rw [IteLeft,if_neg (by omega)]
      refine ⟨hzero.2,hq.resolve_left fun heq => hR ?_⟩
      rw [IteRel,if_neg (by omega)]
      exact heq
    · refine Fire.wp_mono (fun r vars' hq he => ?_) (openOf_stays.wp h.typed)
      rcases hq with hq | hq
      · simp [hq] at he
      · exact absurd he hq.1

end Ite

/-- `x` reads the bounds of `y` as they are. -/
def Heard (x y : ℕ) (vars : ℕ → Variable) : Prop :=
  (vars x).readBy (vars y).least = (vars y).least ∧ (vars x).readBy (vars y).most = (vars y).most

section Heard

variable {x y : ℕ}

theorem heard_of_beyond (h : (vars x).beyond = (vars y).beyond) : Heard x y vars := by
  have hord : ∀ w, varOrd (vars x) w = varOrd (vars y) w := fun w => by
    cases hb : (vars y).beyond
    · rw [varOrd_plain hb,varOrd_plain (h.trans hb)]
    · rw [varOrd_beyond hb,varOrd_beyond (h.trans hb)]
  exact ⟨by rw [← varOrd_lo,hord]; rfl,by rw [← varOrd_hi,hord]; rfl⟩

variable {g : ℕ} (h : Reified g x y vars) (hσ : Inside [g,x,y] vars σ) (hxy : Heard x y vars)

include h hσ hxy

theorem LeAdmits.of_heard (hyx : Heard y x vars) :
    (LeRel g x y σ → LeAdmits g x y vars σ) ∧
      (¬LeRel g x y σ → ¬(Pinned [g,x,y] vars σ ∧ LeAdmits g x y vars σ)) := by
  have hguard := h.guard hσ
  have g1 := hσ.least g (by simp)
  have g2 := hσ.most g (by simp)
  have x1 := hσ.least x (by simp)
  have x2 := hσ.most x (by simp)
  have y1 := hσ.least y (by simp)
  have y2 := hσ.most y (by simp)
  rw [LeAdmits,LeRel,hxy.1,hxy.2,hyx.1,hyx.2]
  refine ⟨fun hR => by split_ifs <;> omega,fun hR hp => ?_⟩
  obtain ⟨hp,hA⟩ := hp
  have g3 := hp.least g (by simp)
  have g4 := hp.most g (by simp)
  have x3 := hp.least x (by simp)
  have x4 := hp.most x (by simp)
  split_ifs at hA <;> omega

end Heard

/-- The 32 bit reifications comply; those of 64 bits, and the conditional value, exactly when the
bounds of one operand, read in the order of the other, admit the solutions and nothing else that
is fixed. -/
theorem reification_exact (s : Engine) :
    (∀ g x y, Reified g x y s.ctx.vars → (Complies [g,x,y] (LeRel g x y) (fireReification64 g x y) s ↔
        (∀ σ, Inside [g,x,y] s.ctx.vars σ → LeRel g x y σ → LeAdmits g x y s.ctx.vars σ) ∧
        ∀ σ, Inside [g,x,y] s.ctx.vars σ → ¬LeRel g x y σ →
          ¬(Pinned [g,x,y] s.ctx.vars σ ∧ LeAdmits g x y s.ctx.vars σ)) ∧
      (Complies [g,x,y] (EqRel g x y) (fireReificationEq64 g x y) s ↔
        (∀ σ, Inside [g,x,y] s.ctx.vars σ → EqRel g x y σ → EqAdmits g x y s.ctx.vars σ) ∧
        ∀ σ, Inside [g,x,y] s.ctx.vars σ → ¬EqRel g x y σ →
          ¬(Pinned [g,x,y] s.ctx.vars σ ∧ EqAdmits g x y s.ctx.vars σ)) ∧
      (Fields [g,x,y] s.ctx.vars → Complies [g,x,y] (LeRel g x y) (fireReification32 g x y) s ∧
        Complies [g,x,y] (EqRel g x y) (fireReificationEq32 g x y) s)) ∧
    ∀ r c a b, Selected r c a b s.ctx.vars →
      (Complies [r,c,a,b] (IteRel r c a b) (fireIteValue64 r c a b) s ↔
        (∀ σ, Inside [r,c,a,b] s.ctx.vars σ → IteRel r c a b σ → IteAdmits r c a b s.ctx.vars σ) ∧
        ∀ σ, Inside [r,c,a,b] s.ctx.vars σ → ¬IteRel r c a b σ → ¬IteLeft r c a b s.ctx.vars σ) := by
  refine ⟨fun g x y h => ⟨?_,?_,fun hf => ⟨?_,?_⟩⟩,fun r c a b h => ?_⟩
  · exact fireReification64_complies h
  · exact fireReificationEq64_complies h
  · exact fireReification32_complies h hf
  · exact fireReificationEq32_complies h hf
  · exact fireIteValue64_complies h

def openGuard : Variable := ⟨0#32,1#32,(0#64,0#64),1,false,false,false,false⟩

theorem openGuard_ok : openGuard.Ok :=
  ⟨by decide,by decide,rfl,fun _ => by decide,fun _ _ => by decide,by decide,by decide⟩

def guarded (vx vy : Variable) : Engine :=
  holding fun v => if v = 0 then openGuard else if v = 1 then vx else vy

theorem guarded_reified {v w : Variable} (hx : v.Ok) (hy : w.Ok) :
    Reified 0 1 2 (guarded v w).ctx.vars := by
  have hlow : 0 ≤ openGuard.least := by decide
  have hhigh : openGuard.most ≤ 1 := by decide
  refine ⟨fun z hz => ?_,rfl,hlow,hhigh⟩
  simp only [List.mem_cons,List.not_mem_nil,or_false] at hz
  rcases hz with rfl | rfl | rfl
  · exact openGuard_ok
  · exact hx
  · exact hy

theorem reification_exact_bytes :
    Complies [0,1,2] (LeRel 0 1 2) (fireReification64 0 1 2)
      (guarded (wideVar 0#64 255#64 8 false) (wideVar 3#64 200#64 8 false)) := by
  have h := guarded_reified (v:=wideVar 0#64 255#64 8 false) (w:=wideVar 3#64 200#64 8 false)
    (wideVar_ok (by decide) (by decide) (by decide) (by decide))
    (wideVar_ok (by decide) (by decide) (by decide) (by decide))
  refine ((reification_exact _).1 0 1 2 h).1.mpr ⟨fun σ hσ => ?_,fun σ hσ => ?_⟩
  · exact (LeAdmits.of_heard h hσ (heard_of_beyond rfl) (heard_of_beyond rfl)).1
  · exact (LeAdmits.of_heard h hσ (heard_of_beyond rfl) (heard_of_beyond rfl)).2

/-- A small number beside any word of 64 bits: the guard is pinned to 0, as the greatest word is
read as -1. -/
theorem reification_wrong :
    Reified 0 1 2 (guarded (wideVar 0#64 10#64 32 false)
      (wideVar 0#64 (BitVec.allOnes 64) 64 false)).ctx.vars ∧
    ¬Complies [0,1,2] (LeRel 0 1 2) (fireReification64 0 1 2)
      (guarded (wideVar 0#64 10#64 32 false) (wideVar 0#64 (BitVec.allOnes 64) 64 false)) := by
  have h := guarded_reified (v:=wideVar 0#64 10#64 32 false)
    (w:=wideVar 0#64 (BitVec.allOnes 64) 64 false)
    (wideVar_ok (by decide) (by decide) (by decide) (by decide))
    (wideVar_ok (by decide) (by decide) (by decide) (by decide))
  refine ⟨h,fun hc => ?_⟩
  have hA := ((fireReification64_complies h).mp hc).1 (fun v => if v = 0 then 1 else 0) ⟨?_,?_⟩
    ⟨fun _ => by decide,fun _ => rfl⟩
  · rw [LeAdmits,if_neg (by decide),if_neg (by decide)] at hA
    exact absurd (hA.2 (by decide) (by decide)) (by decide)
  · simp only [List.mem_cons,List.not_mem_nil,or_false]
    rintro v (rfl | rfl | rfl) <;> decide
  · simp only [List.mem_cons,List.not_mem_nil,or_false]
    rintro v (rfl | rfl | rfl) <;> decide

end Solver
end DvSolve
