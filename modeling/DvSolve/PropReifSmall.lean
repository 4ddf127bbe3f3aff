import DvSolve.PropReifSem

/-! The reification propagators of the small tier. -/
namespace DvSolve
namespace Solver

open Fire (Stays wp_mono wp_need wp_when_kept)

variable {v : Variable} {vars vars' vars₀ : ℕ → Variable} {s : Engine} {W : List ℕ} {σ : ℕ → ℤ}
  {g x y : ℕ}

theorem Complies.of_wp {R : (ℕ → ℤ) → Prop} {f : Fire} (hok : ∀ v ∈ W, (s.ctx.vars v).Ok)
    (hkeep : ∀ σ, Inside W s.ctx.vars σ → R σ → f.wp (Retained W s.ctx.vars σ) s.ctx.vars)
    (href : ∀ σ, Pinned W s.ctx.vars σ → ¬R σ → f.wp (fun r _ => r = .conflict) s.ctx.vars)
    (hquiet : f.Stays W s.ctx.vars (· ≠ .entailed)) : Complies W R f s where
  toPropagates := .of_wp (fun σ hσ hR => wp_mono (fun _ _ => Retained.keeps) (hkeep σ hσ hR)) href
  entailed he := by
    rcases Fire.run_of_wp (hquiet.wp (.refl hok)) with hq | hq
    · simp [hq] at he
    · exact absurd he hq.1

/-- Variables of the small tier, whose bounds are their fields. -/
structure Fields (W : List ℕ) (vars : ℕ → Variable) : Prop where
  ok : ∀ v ∈ W, (vars v).Ok
  small : ∀ v ∈ W, (vars v).tier1 = false

section Fields

variable (hf : Fields W vars) {z : ℕ} (hz : z ∈ W)

include hf hz

theorem Fields.lo (ht : Typed W vars vars') : (vars' z).lo.toInt = (vars' z).least :=
  ((ht.ok z hz).least_eq (((ht.same z).tier1).trans (hf.small z hz))).symm

theorem Fields.hi (ht : Typed W vars vars') : (vars' z).hi.toInt = (vars' z).most :=
  ((ht.ok z hz).most_eq (((ht.same z).tier1).trans (hf.small z hz))).symm

theorem Fields.plain (ht : Typed W vars vars') : (vars' z).beyond = false := by
  rw [(ht.same z).beyond]
  exact (hf.ok z hz).not_beyond (hf.small z hz)

theorem Fields.top (ht : Typed W vars vars') : (varReprMax (vars' z)).toInt = (vars' z).top := by
  have hv := ht.ok z hz
  rw [← varOrd_plain (hf.plain hz ht),varOrd_reprMax hv.pos hv.le]

theorem Fields.bot (ht : Typed W vars vars') : (varReprMin (vars' z)).toInt = (vars' z).bot := by
  have hv := ht.ok z hz
  rw [← varOrd_plain (hf.plain hz ht),varOrd_reprMin hv.pos hv.le]

end Fields

theorem Variable.Ok.bot_ge (hv : v.Ok) (h : v.tier1 = false) : -2^31 ≤ v.bot := by
  have hw := hv.narrow h
  unfold Variable.bot
  split_ifs
  · have : (2 : ℤ)^(v.width-1) ≤ 2^31 := pow_le_pow_right₀ (by norm_num) (by omega)
    omega
  · norm_num

section Rules

variable {Q : PropResult → (ℕ → Variable) → Prop} {f : Fire} {b : BitVec 32}

theorem Fire.wp_lb32 (hf : Fields W vars₀) (ht : Typed W vars₀ vars) (hσ : Inside W vars σ)
    (hx : x ∈ W) (hb : b.toInt ≤ σ x)
    (hk : ∀ vars', Typed W vars₀ vars' → Inside W vars' σ → f.wp Q vars') :
    (Fire.need .lb32 x (b.signExtend 64) f).wp Q vars :=
  wp_need ht hσ hx (hf.small x hx) (by
    change ((b.signExtend 64).setWidth 32).toInt ≤ σ x
    rwa [setWidth_signExtend]) hk

theorem Fire.wp_ub32 (hf : Fields W vars₀) (ht : Typed W vars₀ vars) (hσ : Inside W vars σ)
    (hx : x ∈ W) (hb : σ x ≤ b.toInt)
    (hk : ∀ vars', Typed W vars₀ vars' → Inside W vars' σ → f.wp Q vars') :
    (Fire.need .ub32 x (b.signExtend 64) f).wp Q vars :=
  wp_need ht hσ hx (hf.small x hx) (by
    change σ x ≤ ((b.signExtend 64).setWidth 32).toInt
    rwa [setWidth_signExtend]) hk

end Rules

section Order

variable (hf : Fields W vars₀) (hx : x ∈ W) (hy : y ∈ W) (ht : Typed W vars₀ vars)

include hf hx hy ht

theorem enforceLe32_keeps (hσ : Inside W vars σ) (h : σ x ≤ σ y) :
    (enforceLe32 x y).wp (Retained W vars₀ σ) vars := by
  simp only [enforceLe32,Fire.wp]
  have hyhi := hf.hi hy ht
  have y2 := hσ.most y hy
  refine Fire.wp_ub32 hf ht hσ hx (by omega) fun vars₁ ht₁ hσ₁ => ?_
  have hxlo := hf.lo hx ht₁
  have x1 := hσ₁.least x hx
  exact Fire.wp_lb32 hf ht₁ hσ₁ hy (by omega) fun _ ht hσ => ⟨rfl,ht,hσ⟩

theorem enforceLe32_refutes (hp : Pinned W vars σ) (h : σ y < σ x) :
    (enforceLe32 x y).wp (fun r _ => r = .conflict) vars := by
  simp only [enforceLe32,Fire.wp]
  refine Fire.wp_need_pinned ht hp hx (hf.small x hx) (fun _ => rfl) fun hin _ _ _ => absurd h ?_
  change σ x ≤ (((vars y).hi.signExtend 64).setWidth 32).toInt at hin
  rw [setWidth_signExtend,hf.hi hy ht,hp.most y hy] at hin
  omega

theorem enforceGt32_keeps (hσ : Inside W vars σ) (h : σ y < σ x) :
    (enforceGt32 x y).wp (Retained W vars₀ σ) vars := by
  simp only [enforceGt32,Fire.wp]
  have hylo := hf.lo hy ht
  have hxhi := hf.hi hx ht
  have x1 := hσ.least x hx
  have x2 := hσ.most x hx
  have y1 := hσ.least y hy
  have y2 := hσ.most y hy
  have := ((ht.ok x hx).inType x1 x2).2
  have := ((ht.ok y hy).inType y1 y2).1
  have hmax := BitVec.toInt_lt (x := (vars x).hi)
  rw [if_neg (by rw [hf.top hx ht,hf.bot hy ht]; omega)]
  refine Fire.wp_lb32 hf ht hσ hx (by rw [succ32_toInt (by omega)]; omega) fun vars₁ ht₁ hσ₁ => ?_
  have hxhi₁ := hf.hi hx ht₁
  have x3 := hσ₁.most x hx
  have hmin := BitVec.le_toInt (vars y).lo
  exact Fire.wp_ub32 hf ht₁ hσ₁ hy (by rw [pred32_toInt' (by omega)]; omega)
    fun _ ht hσ => ⟨rfl,ht,hσ⟩

theorem enforceGt32_refutes (hp : Pinned W vars σ) (h : σ x ≤ σ y) :
    (enforceGt32 x y).wp (fun r _ => r = .conflict) vars := by
  simp only [enforceGt32,Fire.wp]
  split_ifs with hedge
  · rfl
  refine Fire.wp_need_pinned ht hp hx (hf.small x hx) (fun _ => rfl) fun _ vars₁ ht₁ hp₁ => ?_
  refine Fire.wp_need_pinned ht₁ hp₁ hy (hf.small y hy) (fun _ => rfl) fun hin _ _ _ => absurd h ?_
  change σ y ≤ ((((vars₁ x).hi-1#32).signExtend 64).setWidth 32).toInt at hin
  have hxhi := hf.hi hx ht
  have hxhi₁ := hf.hi hx ht₁
  have x1 := hp.most x hx
  have x2 := hp₁.most x hx
  rw [hf.bot hy ht] at hedge
  have hbot := (ht.ok y hy).bot_ge (((ht.same y).tier1).trans (hf.small y hy))
  rw [setWidth_signExtend,pred32_toInt' (by omega)] at hin
  omega

omit ht in
theorem enforce32_stays {E : PropResult → Prop} (h : E .ok) (h' : E .conflict) :
    (enforceLe32 x y).Stays W vars₀ E ∧ (enforceGt32 x y).Stays W vars₀ E :=
  ⟨fun _ => .need hx (hf.small x hx) fun _ => .need hy (hf.small y hy) h,
    fun _ _ => .ite h' (.need hx (hf.small x hx) fun _ => .need hy (hf.small y hy) h)⟩

end Order

section Fire

variable (h : Reified g x y vars) (hf : Fields [g,x,y] vars)

include h hf

theorem fireReification32_keeps (hσ : Inside [g,x,y] vars σ) (hR : LeRel g x y σ) :
    (fireReification32 g x y).wp (Retained [g,x,y] vars σ) vars := by
  have hg : g ∈ [g,x,y] := by simp
  have hx : x ∈ [g,x,y] := by simp
  have hy : y ∈ [g,x,y] := by simp
  have hguard := h.guard hσ
  have h2 := hσ.most g hg
  have hhi := h.hi_iff h.typed
  simp only [fireReification32,Fire.wp]
  by_cases he : x = y
  · have hone : σ g = 1 := hR.mpr (he ▸ le_rfl)
    rw [if_pos he,if_neg (mt hhi.mp (by omega))]
    split_ifs
    · refine Fire.wp_tighten h.typed hσ hg h.small ?_ fun _ ht hσ => ⟨rfl,ht,hσ⟩
      exact hone.ge
    · exact ⟨rfl,h.typed,hσ⟩
  rw [if_neg he]
  refine wp_when_kept h.typed hσ (fun hc => ?_) fun vars₁ ht₁ hσ₁ => ?_
  · have h1 := hσ.least g hg
    rw [h.lo_iff h.typed] at hc
    exact enforceLe32_keeps hf hx hy h.typed hσ (hR.mp (by omega))
  simp only [Fire.wp]
  refine wp_when_kept ht₁ hσ₁ (fun hc => ?_) fun vars₂ ht₂ hσ₂ => ?_
  · have h3 := hσ₁.most g hg
    rw [h.hi_iff ht₁] at hc
    exact enforceGt32_keeps hf hx hy ht₁ hσ₁ (lt_of_not_ge (mt hR.mpr (by omega)))
  have x1 := hσ₂.least x hx
  have x2 := hσ₂.most x hx
  have y1 := hσ₂.least y hy
  have y2 := hσ₂.most y hy
  simp only [pinGuard32,Fire.wp]
  split_ifs with hopen
  swap
  · exact ⟨rfl,ht₂,hσ₂⟩
  simp only [Fire.wp,hf.lo hx ht₂,hf.lo hy ht₂,hf.hi hx ht₂,hf.hi hy ht₂]
  split_ifs with hle hgt
  · have hone := hR.mpr (by omega)
    exact wp_need ht₂ hσ₂ hg h.small hone.ge fun _ ht hσ => ⟨rfl,ht,hσ⟩
  · have hzero := hguard.resolve_right (mt hR.mp (by omega))
    exact wp_need ht₂ hσ₂ hg h.small hzero.le fun _ ht hσ => ⟨rfl,ht,hσ⟩
  · exact ⟨rfl,ht₂,hσ₂⟩

theorem fireReification32_refutes (hp : Pinned [g,x,y] vars σ) (hR : ¬LeRel g x y σ) :
    (fireReification32 g x y).wp (fun r _ => r = .conflict) vars := by
  have hg : g ∈ [g,x,y] := by simp
  have hx : x ∈ [g,x,y] := by simp
  have hy : y ∈ [g,x,y] := by simp
  have hguard := h.guard hp.inside
  have g1 := hp.least g hg
  have g2 := hp.most g hg
  have hlo := h.lo_iff h.typed
  have hhi := h.hi_iff h.typed
  unfold LeRel at hR
  simp only [fireReification32,Fire.wp]
  by_cases he : x = y
  · subst he
    rw [if_pos rfl,if_pos (hhi.mpr (by omega))]
    rfl
  rw [if_neg he]
  rcases hguard with hz | hone
  · rw [Fire.when,if_neg (mt hlo.mp (by omega)),Fire.wp,Fire.when,if_pos (hhi.mpr (by omega))]
    exact Fire.wp_andThen_conflict (enforceGt32_refutes hf hx hy h.typed hp (by omega))
  · rw [Fire.when,if_pos (hlo.mpr (by omega))]
    exact Fire.wp_andThen_conflict (enforceLe32_refutes hf hx hy h.typed hp (by omega))

end Fire

theorem fireReification32_complies (h : Reified g x y s.ctx.vars) (hf : Fields [g,x,y] s.ctx.vars) :
    Complies [g,x,y] (LeRel g x y) (fireReification32 g x y) s := by
  refine .of_wp h.ok (fun σ => fireReification32_keeps h hf) (fun σ => fireReification32_refutes h hf) ?_
  have hok : (Fire.done .ok).Stays [g,x,y] s.ctx.vars (· ≠ .entailed) := by simp [Stays]
  have hc : (Fire.done .conflict).Stays [g,x,y] s.ctx.vars (· ≠ .entailed) := by simp [Stays]
  obtain ⟨hle,hgt⟩ := enforce32_stays (x:=x) (y:=y) (E:=(· ≠ .entailed)) hf
    (by simp) (by simp) hok hc
  have hlb : Tighten.lb32.Fits (s.ctx.vars g) := h.small
  have hub : Tighten.ub32.Fits (s.ctx.vars g) := h.small
  refine fun vg => .ite (.ite hc (.ite ⟨by simp,hlb,rfl,hok⟩ hok)) (.when hle fun vg =>
    .when hgt fun vg => .ite (fun vx vy => ?_) hok)
  exact .ite (.need (by simp) hlb hok) (.ite (.need (by simp) hub hok) hok)

section Equality

variable (hf : Fields W vars₀) (hx : x ∈ W) (hy : y ∈ W) (ht : Typed W vars₀ vars)

include hf hx hy ht

theorem meet32_keeps (hσ : Inside W vars σ) (h : σ x = σ y) :
    (meet32 x y).wp (Retained W vars₀ σ) vars := by
  have x1 := hσ.least x hx
  have x2 := hσ.most x hx
  have y1 := hσ.least y hy
  have y2 := hσ.most y hy
  have a1 := hf.lo hx ht
  have a2 := hf.hi hx ht
  have b1 := hf.lo hy ht
  have b2 := hf.hi hy ht
  have hlo : (if (vars y).lo.toInt < (vars x).lo.toInt then (vars x).lo else (vars y).lo).toInt ≤ σ x := by
    split_ifs <;> omega
  have hhi : σ x ≤ (if (vars x).hi.toInt < (vars y).hi.toInt then (vars x).hi else (vars y).hi).toInt := by
    split_ifs <;> omega
  simp only [meet32,Fire.wp]
  rw [if_neg (by omega)]
  refine Fire.wp_lb32 hf ht hσ hx hlo fun _ ht hσ => Fire.wp_ub32 hf ht hσ hx hhi fun _ ht hσ => ?_
  rw [h] at hlo hhi
  exact Fire.wp_lb32 hf ht hσ hy hlo fun _ ht hσ => Fire.wp_ub32 hf ht hσ hy hhi
    fun _ ht hσ => ⟨rfl,ht,hσ⟩

theorem meet32_refutes (hp : Pinned W vars σ) (h : σ x ≠ σ y) :
    (meet32 x y).wp (fun r _ => r = .conflict) vars := by
  have a1 := (hf.lo hx ht).trans (hp.least x hx)
  have a2 := (hf.hi hx ht).trans (hp.most x hx)
  have b1 := (hf.lo hy ht).trans (hp.least y hy)
  have b2 := (hf.hi hy ht).trans (hp.most y hy)
  simp only [meet32,Fire.wp]
  rw [if_pos (by split_ifs <;> omega)]
  rfl

end Equality

theorem Fields.step (hf : Fields W vars₀) (ht : Typed W vars₀ vars) : Fields W vars :=
  ⟨ht.ok,fun v hv => ((ht.same v).tier1).trans (hf.small v hv)⟩

theorem Retained.step {r : PropResult} (ht : Typed W vars₀ vars) (h : Retained W vars σ r vars') :
    Retained W vars₀ σ r vars' := ⟨h.1,ht.trans h.2.1,h.2.2⟩

section NotEqual

variable (hf : Fields W vars) (hx : x ∈ W) (hy : y ∈ W) (hσ : Inside W vars σ)

include hf hx hy hσ

theorem exclude32_keeps (hfix : (vars x).lo = (vars x).hi) (h : σ x ≠ σ y) :
    (exclude32 x y).wp (Retained W vars σ) vars := by
  have ht : Typed W vars vars := .refl hf.ok
  have x1 := hσ.least x hx
  have x2 := hσ.most x hx
  have y1 := hσ.least y hy
  have y2 := hσ.most y hy
  have a1 := hf.lo hx ht
  have a2 := hf.hi hx ht
  have b1 := hf.lo hy ht
  have b2 := hf.hi hy ht
  rw [← hfix] at a2
  simp only [exclude32,Fire.wp]
  refine wp_when_kept ht hσ (fun hc => ?_) fun vars₁ ht₁ hσ₁ => ?_
  · have hmax := BitVec.toInt_lt (x := (vars y).hi)
    rw [hc] at b1
    exact Fire.wp_lb32 hf ht hσ hy (by rw [succ32_toInt (by omega)]; omega) fun _ ht hσ => ⟨rfl,ht,hσ⟩
  have x3 := hσ₁.least x hx
  have x4 := ht₁.least x
  have a3 := hf.lo hx ht₁
  have y3 := hσ₁.most y hy
  have b3 := hf.hi hy ht₁
  simp only [Fire.wp]
  refine wp_when_kept ht₁ hσ₁ (fun hc => ?_) fun _ ht hσ => ⟨rfl,ht,hσ⟩
  have hmin := BitVec.le_toInt (vars y).lo
  rw [hc] at b3
  exact Fire.wp_ub32 hf ht₁ hσ₁ hy (by rw [pred32_toInt' (by omega)]; omega) fun _ ht hσ => ⟨rfl,ht,hσ⟩

theorem enforceNe32_keeps (h : σ x ≠ σ y) : (enforceNe32 x y).wp (Retained W vars σ) vars := by
  have ht : Typed W vars vars := .refl hf.ok
  have x1 := hσ.least x hx
  have x2 := hσ.most x hx
  have y1 := hσ.least y hy
  have y2 := hσ.most y hy
  have a1 := hf.lo hx ht
  have a2 := hf.hi hx ht
  have b1 := hf.lo hy ht
  have b2 := hf.hi hy ht
  simp only [enforceNe32,Fire.wp]
  rw [if_neg fun hc => ?_]
  swap
  · obtain ⟨c1,c2,c3⟩ := hc
    rw [c2] at b1
    rw [c3] at b2
    rw [← c1] at a2 b2
    omega
  refine wp_when_kept ht hσ (fun hc => exclude32_keeps hf hx hy hσ hc h) fun vars₁ ht₁ hσ₁ => ?_
  simp only [Fire.wp]
  refine wp_when_kept ht₁ hσ₁ (fun hc => ?_) fun _ ht hσ => ⟨rfl,ht,hσ⟩
  exact wp_mono (fun _ _ => Retained.step ht₁)
    (exclude32_keeps (hf.step ht₁) hy hx hσ₁ hc h.symm)

omit hx hσ in
theorem exclude32_stays {E : PropResult → Prop} (h : E .ok) : (exclude32 x y).Stays W vars E :=
  fun _ _ => .when (.need hy (hf.small y hy) h) fun _ _ => .when (.need hy (hf.small y hy) h) h

omit hσ in
theorem enforceNe32_stays {E : PropResult → Prop} (h : E .ok) (h' : E .conflict) :
    (enforceNe32 x y).Stays W vars E :=
  fun _ _ => .ite h' (.when (exclude32_stays hf hy h) fun _ => .when (exclude32_stays hf hx h) h)

end NotEqual

section Fire

variable (h : Reified g x y vars) (hf : Fields [g,x,y] vars)

include h hf

theorem fireReificationEq32_keeps (hσ : Inside [g,x,y] vars σ) (hR : EqRel g x y σ) :
    (fireReificationEq32 g x y).wp (Retained [g,x,y] vars σ) vars := by
  have hg : g ∈ [g,x,y] := by simp
  have hx : x ∈ [g,x,y] := by simp
  have hy : y ∈ [g,x,y] := by simp
  have hguard := h.guard hσ
  unfold fireReificationEq32
  by_cases he : x = y
  · rw [if_pos he]
    exact equalsItself_keeps hg h.typed hσ (hR.mpr (he ▸ rfl))
  rw [if_neg he]
  simp only [Fire.wp]
  refine wp_when_kept h.typed hσ (fun hc => ?_) fun vars₁ ht₁ hσ₁ => ?_
  · have h1 := hσ.least g hg
    rw [h.lo_iff h.typed] at hc
    exact meet32_keeps hf hx hy h.typed hσ (hR.mp (by omega))
  simp only [Fire.wp]
  refine wp_when_kept ht₁ hσ₁ (fun hc => ?_) fun vars₂ ht₂ hσ₂ => ?_
  · have h3 := hσ₁.most g hg
    rw [h.hi_iff ht₁] at hc
    exact wp_mono (fun _ _ => Retained.step ht₁)
      (enforceNe32_keeps (hf.step ht₁) hx hy hσ₁ (mt hR.mpr (by omega)))
  simp only [Fire.wp]
  refine wp_when_kept ht₂ hσ₂ (fun hc => ?_) fun vars₃ ht₃ hσ₃ => ?_
  · have x1 := hσ₂.least x hx
    have x2 := hσ₂.most x hx
    have y1 := hσ₂.least y hy
    have y2 := hσ₂.most y hy
    rw [← hf.lo hx ht₂] at x1
    rw [← hf.hi hx ht₂,← hc.1] at x2
    rw [← hf.lo hy ht₂,← hc.2.2] at y1
    rw [← hf.hi hy ht₂,← hc.2.1,← hc.2.2] at y2
    have hone := hR.mpr (by omega)
    exact wp_need ht₂ hσ₂ hg h.small hone.ge fun _ ht hσ => ⟨rfl,ht,hσ⟩
  simp only [Fire.wp]
  refine Fire.wp_when_need ht₃ hσ₃ hg h.small (fun hc => ?_) fun _ ht hσ => ⟨rfl,ht,hσ⟩
  have x1 := hσ₃.least x hx
  have x2 := hσ₃.most x hx
  have y1 := hσ₃.least y hy
  have y2 := hσ₃.most y hy
  rw [hf.lo hx ht₃,hf.hi hx ht₃,hf.lo hy ht₃,hf.hi hy ht₃] at hc
  exact (hguard.resolve_right (mt hR.mp (by omega))).le

theorem fireReificationEq32_refutes (hp : Pinned [g,x,y] vars σ) (hR : ¬EqRel g x y σ) :
    (fireReificationEq32 g x y).wp (fun r _ => r = .conflict) vars := by
  have hg : g ∈ [g,x,y] := by simp
  have hx : x ∈ [g,x,y] := by simp
  have hy : y ∈ [g,x,y] := by simp
  have hguard := h.guard hp.inside
  have g1 := hp.least g hg
  have g2 := hp.most g hg
  have hlo := h.lo_iff h.typed
  have hhi := h.hi_iff h.typed
  unfold EqRel at hR
  unfold fireReificationEq32
  by_cases he : x = y
  · subst he
    have hz : σ g = 0 := hguard.resolve_right fun hc => hR (by simp [hc])
    rw [if_pos rfl,equalsItself,Fire.wp,if_pos (by rw [hi_eq_ofInt,g2,hz]; rfl)]
    rfl
  rw [if_neg he]
  simp only [Fire.wp]
  rcases hguard with hz | hone
  · rw [Fire.when,if_neg (mt hlo.mp (by omega)),Fire.wp,Fire.when,if_pos (hhi.mpr (by omega))]
    refine Fire.wp_andThen_conflict ?_
    have a1 := (hf.lo hx h.typed).trans (hp.least x hx)
    have a2 := (hf.hi hx h.typed).trans (hp.most x hx)
    have b1 := (hf.lo hy h.typed).trans (hp.least y hy)
    have b2 := (hf.hi hy h.typed).trans (hp.most y hy)
    simp only [enforceNe32,Fire.wp]
    rw [if_pos ⟨BitVec.eq_of_toInt_eq (by omega),BitVec.eq_of_toInt_eq (by omega),
      BitVec.eq_of_toInt_eq (by omega)⟩]
    rfl
  · rw [Fire.when,if_pos (hlo.mpr (by omega))]
    exact Fire.wp_andThen_conflict (meet32_refutes hf hx hy h.typed hp fun hc => hR (by omega))

end Fire

theorem fireReificationEq32_complies (h : Reified g x y s.ctx.vars)
    (hf : Fields [g,x,y] s.ctx.vars) :
    Complies [g,x,y] (EqRel g x y) (fireReificationEq32 g x y) s := by
  refine .of_wp h.ok (fun σ => fireReificationEq32_keeps h hf)
    (fun σ => fireReificationEq32_refutes h hf) ?_
  have hg : g ∈ [g,x,y] := by simp
  have hx : x ∈ [g,x,y] := by simp
  have hy : y ∈ [g,x,y] := by simp
  have hok : (Fire.done .ok).Stays [g,x,y] s.ctx.vars (· ≠ .entailed) := by simp [Stays]
  have hc : (Fire.done .conflict).Stays [g,x,y] s.ctx.vars (· ≠ .entailed) := by simp [Stays]
  have hlb : Tighten.lb32.Fits (s.ctx.vars g) := h.small
  have hub : Tighten.ub32.Fits (s.ctx.vars g) := h.small
  refine .ite (equalsItself_stays hg hok hc) fun vg => .when (fun vx vy => ?_) fun vg =>
    .when (enforceNe32_stays hf hx hy hok hc) fun vx vy => .when (.need hg hlb hok) fun vx vy =>
    .when (.need hg hub hok) hok
  exact .ite hc (.need hx (hf.small x hx) (.need hx (hf.small x hx)
    (.need hy (hf.small y hy) (.need hy (hf.small y hy) hok))))

end Solver
end DvSolve
