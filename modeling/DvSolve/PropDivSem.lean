import DvSolve.PropDiv

/-! What the quotient and remainder propagators keep and lose. -/
namespace DvSolve
namespace Solver

variable {v : Variable} {vars : ℕ → Variable} {s : Engine}

/-- `Propagates`, of the assignments with `D` only. -/
structure PropagatesOn (W : List ℕ) (D R : (ℕ → ℤ) → Prop) (f : Fire) (s : Engine) : Prop where
  keeps : ∀ σ, Inside W s.ctx.vars σ → D σ → R σ → Inside W (f.run s).2.ctx.vars σ
  conflict : (f.run s).1 = .conflict → ∀ σ, Inside W s.ctx.vars σ → D σ → ¬R σ
  refutes : ∀ σ, Pinned W s.ctx.vars σ → D σ → ¬R σ → (f.run s).1 = .conflict

def Lost (W : List ℕ) (σ : ℕ → ℤ) (r : PropResult) (vars : ℕ → Variable) : Prop :=
  r = .conflict ∨ ¬Inside W vars σ

theorem Lost.of_least {W : List ℕ} {σ : ℕ → ℤ} {r : PropResult} {id : ℕ} (hid : id ∈ W)
    (h : σ id < (vars id).least ∨ (vars id).most < σ id) : Lost W σ r vars :=
  .inr fun hin => by
    have := hin.least id hid
    have := hin.most id hid
    omega

/-- The fire propagates exactly when it keeps each solution, if it does away with those that
it does not keep. -/
theorem PropagatesOn.iff {W : List ℕ} {D R L : (ℕ → ℤ) → Prop} {f : Fire}
    (hkeep : ∀ σ, Inside W s.ctx.vars σ → D σ → R σ → ¬L σ →
      f.wp (fun r vars => r ≠ .conflict ∧ Inside W vars σ) s.ctx.vars)
    (hlose : ∀ σ, Inside W s.ctx.vars σ → D σ → R σ → L σ → f.wp (Lost W σ) s.ctx.vars)
    (href : ∀ σ, Pinned W s.ctx.vars σ → D σ → ¬R σ → f.wp (fun r _ => r = .conflict) s.ctx.vars) :
    PropagatesOn W D R f s ↔ ∀ σ, Inside W s.ctx.vars σ → D σ → R σ → ¬L σ := by
  constructor
  · intro h σ hσ hD hR hL
    rcases Fire.run_of_wp (hlose σ hσ hD hR hL) with hc | hc
    · exact h.conflict hc σ hσ hD hR
    · exact hc (h.keeps σ hσ hD hR)
  · intro h
    refine ⟨fun σ hσ hD hR => ?_,fun hc σ hσ hD hR => ?_,fun σ hp hD hR => ?_⟩
    · exact (Fire.run_of_wp (hkeep σ hσ hD hR (h σ hσ hD hR))).2
    · exact (Fire.run_of_wp (hkeep σ hσ hD hR (h σ hσ hD hR))).1 hc
    · exact Fire.run_of_wp (href σ hp hD hR)

section Bounds

variable {W : List ℕ} {vars₀ : ℕ → Variable} {σ : ℕ → ℤ} {Q : PropResult → (ℕ → Variable) → Prop}
  {t : Tighten} {id r : ℕ} {b lo hi : BitVec 64} {k : Fire}

theorem Fire.wp_need_lost (ht : Typed W vars₀ vars) (hid : id ∈ W) (hfit : t.Fits (vars₀ id))
    (hb : if t.isUb then t.num (vars₀ id) b < σ id else σ id < t.num (vars₀ id) b)
    (hQ : ∀ vars', Q .conflict vars')
    (hk : ∀ vars', Typed W vars₀ vars' → (σ id < (vars' id).least ∨ (vars' id).most < σ id) →
      k.wp Q vars') : (Fire.need t id b k).wp Q vars := by
  refine ⟨ht.ok id hid,ht.fits hfit,fun r vars' h => ?_⟩
  have hnum := ht.num (t:=t) (b:=b) (v:=id)
  cases h with
  | ok x same ok hl hm live =>
    dsimp only
    rw [if_pos rfl]
    refine hk _ (ht.update same ok (hl ▸ Tighten.least_le _ _ _) (hm ▸ Tighten.le_most _ _ _)) ?_
    rw [Function.update_self,hl,hm,hnum]
    simp only [Tighten.least,Tighten.most]
    split_ifs at hb ⊢ <;> omega
  | conflict _ out => simpa [Fire.wp] using hQ vars'

/-- What two tightenings do to the numbers of a variable, `num` of the bounds they ask for. -/
structure Bounds (W : List ℕ) (r : ℕ) (vars₀ : ℕ → Variable) (num : BitVec 64 → ℤ)
    (within : BitVec 64 → BitVec 64 → Fire → Fire) : Prop where
  keep : ∀ {Q σ vars lo hi k}, Typed W vars₀ vars → Inside W vars σ → num lo ≤ σ r →
    σ r ≤ num hi → (∀ vars', Typed W vars₀ vars' → Inside W vars' σ → Fire.wp Q k vars') →
    Fire.wp Q (within lo hi k) vars
  pin : ∀ {Q σ vars lo hi k}, Typed W vars₀ vars → Pinned W vars σ →
    (∀ vars', Q .conflict vars') → (num lo ≤ σ r → σ r ≤ num hi →
      ∀ vars', Typed W vars₀ vars' → Pinned W vars' σ → Fire.wp Q k vars') →
    Fire.wp Q (within lo hi k) vars
  lose : ∀ {Q} {σ : ℕ → ℤ} {vars lo hi k}, Typed W vars₀ vars →
    (σ r < num lo ∨ num hi < σ r) → (∀ vars', Q .conflict vars') →
    (∀ vars', Typed W vars₀ vars' → (σ r < (vars' r).least ∨ (vars' r).most < σ r) →
      Fire.wp Q k vars') → Fire.wp Q (within lo hi k) vars
  any : ∀ {Q vars lo hi k}, Typed W vars₀ vars → (∀ vars', Q .conflict vars') →
    (∀ vars', Typed W vars vars' → Fire.wp Q k vars') → Fire.wp Q (within lo hi k) vars

theorem Bounds.of_needs {t t' : Tighten} {num : BitVec 64 → ℤ} (hr : r ∈ W) (ht : t.isUb = false)
    (ht' : t'.isUb = true) (hfit : t.Fits (vars₀ r)) (hfit' : t'.Fits (vars₀ r))
    (hnum : ∀ b, t.num (vars₀ r) b = num b) (hnum' : ∀ b, t'.num (vars₀ r) b = num b) :
    Bounds W r vars₀ num fun lo hi k => .need t r lo <| .need t' r hi k where
  keep hT hσ h1 h2 hk :=
    Fire.wp_need hT hσ hr hfit (by simpa [ht,hnum] using h1) fun _ hT hσ =>
      Fire.wp_need hT hσ hr hfit' (by simpa [ht',hnum'] using h2) hk
  pin hT hp hQ hk :=
    Fire.wp_need_pinned hT hp hr hfit hQ fun h1 _ hT hp =>
      Fire.wp_need_pinned hT hp hr hfit' hQ fun h2 =>
        hk (by simpa [ht,hnum] using h1) (by simpa [ht',hnum'] using h2)
  lose {Q σ vars lo hi k} hT h hQ hk := by
    by_cases h1 : σ r < num lo
    · refine Fire.wp_need_lost (σ:=σ) hT hr hfit (by simpa [ht,hnum] using h1) hQ
        fun vars₁ hT₁ hout => ?_
      refine Fire.wp_need_any (.refl hT₁.ok) hr (hT₁.fits hfit') hQ
        fun vars₂ hT₂ => hk vars₂ (hT₁.trans hT₂) ?_
      have := hT₂.least r
      have := hT₂.most r
      omega
    · refine Fire.wp_need_any hT hr hfit hQ fun vars₁ hT₁ => ?_
      exact Fire.wp_need_lost (σ:=σ) hT₁ hr hfit'
        (by simpa [ht',hnum'] using h.resolve_left h1) hQ hk
  any hT hQ hk :=
    Fire.wp_need_any (.refl hT.ok) hr (hT.fits hfit) hQ fun _ hT₁ =>
      Fire.wp_need_any hT₁ hr (hT.fits hfit') hQ hk

theorem bounds64 (vars₀ : ℕ → Variable) (hr : r ∈ W) :
    Bounds W r vars₀ (varOrd (vars₀ r)) (Fire.between r) :=
  .of_needs hr rfl rfl trivial trivial (fun _ => rfl) fun _ => rfl

theorem bounds32 (hr : r ∈ W) (h : (vars₀ r).tier1 = false) :
    Bounds W r vars₀ (fun b => (b.setWidth 32).toInt) (within32 r) :=
  .of_needs hr rfl rfl h h (fun _ => rfl) fun _ => rfl

end Bounds

/-- The variables of a quotient or remainder, whose bounds read the same as signed numbers. -/
structure Honest (r a b : ℕ) (vars : ℕ → Variable) : Prop where
  ok : ∀ v ∈ [r,a,b], (vars v).Ok
  rng : ∀ v ∈ [r,a,b], rng64 (vars v) = true

section Honest

variable {r a b : ℕ} {σ : ℕ → ℤ} {num : BitVec 64 → ℤ}

theorem Honest.lo (h : Honest r a b vars) {x : ℕ} (hx : x ∈ [r,a,b]) :
    (varLo64 (vars x)).toInt = (vars x).least := (least_of_rng64 (h.rng x hx)).symm

theorem Honest.hi (h : Honest r a b vars) {x : ℕ} (hx : x ∈ [r,a,b]) :
    (varHi64 (vars x)).toInt = (vars x).most := (most_of_rng64 (h.rng x hx)).symm

theorem Variable.Ok.nonneg {n : ℤ} (hv : v.Ok) (hs : v.signed = false) (h : v.least ≤ n) : 0 ≤ n := by
  have := hv.bot
  unfold Variable.bot at this
  rw [hs] at this
  simp at this
  omega

theorem Variable.beyond_iff (hle : v.width ≤ 64) :
    v.beyond = true ↔ v.signed = false ∧ v.width = 64 := by
  simp [Variable.beyond]
  omega

/-- How a bound reads for a result with the number `n`. -/
structure Asked (v : Variable) (num : BitVec 64 → ℤ) (n : ℤ) (x : BitVec 64) : Prop where
  eq : (v.beyond = true → 0 ≤ x.toInt) → num x = x.toInt
  far : v.beyond = true → x.toInt < 0 → n < num x
  nonneg : v.beyond = true → 0 ≤ n

variable {n : ℤ} {x : BitVec 64}

theorem Asked.le (h : Asked v num n x) (hx : x.toInt ≤ n) (h0 : v.beyond = true → 0 ≤ x.toInt) :
    num x ≤ n := by
  rwa [h.eq h0]

theorem Asked.ge (h : Asked v num n x) (hx : n ≤ x.toInt) : n ≤ num x := by
  rwa [h.eq fun hb => (h.nonneg hb).trans hx]

theorem Asked.gt (h : Asked v num n x) (hx : n < x.toInt) : n < num x := by
  rwa [h.eq fun hb => (h.nonneg hb).trans hx.le]

theorem Asked.of_eq (h : Asked v num n x) (h1 : num x ≤ n) : num x = x.toInt :=
  h.eq fun hb => not_lt.mp fun hx => absurd (h.far hb hx) (not_lt.mpr h1)

theorem asked64 (hh : Honest r a b vars) (hσ : Inside [r,a,b] vars σ) (x : BitVec 64) :
    Asked (vars r) (varOrd (vars r)) (σ r) x where
  eq := varOrd_of_nonneg
  far hb hx := by
    have h1 := hσ.most r (by simp)
    have h2 := BitVec.toInt_lt (x := varHi64 (vars r))
    rw [hh.hi (by simp)] at h2
    have h3 := (toInt_of_neg hx).2
    rw [varOrd_beyond hb]
    omega
  nonneg hb := (hh.ok r (by simp)).nonneg
    ((Variable.beyond_iff (hh.ok r (by simp)).le).mp hb).1 (hσ.least r (by simp))

theorem asked32 (hh : Honest r a b vars) (h0 : (vars r).tier1 = false) (n : ℤ)
    (h1 : -2^31 ≤ x.toInt) (h2 : x.toInt < 2^31) :
    Asked (vars r) (fun b => (b.setWidth 32).toInt) n x := by
  have hb := (hh.ok r (by simp)).not_beyond h0
  exact ⟨fun _ => setWidth32_toInt h1 h2,fun h => by simp [hb] at h,fun h => by simp [hb] at h⟩

end Honest

section Div

variable {r a b n : ℕ} {σ : ℕ → ℤ} {num : BitVec 64 → ℤ}
  {within : BitVec 64 → BitVec 64 → Fire → Fire}

/-- The quotient truncated toward zero, wrapped to the width of `r` if something is signed. -/
def DivRel (r a b : ℕ) (vars : ℕ → Variable) (σ : ℕ → ℤ) : Prop :=
  σ r = if signedOp (vars r) (vars a) (vars b) then ((σ a).tdiv (σ b)).bmod (2^(vars r).width)
    else (σ a).tdiv (σ b)

def IsQuotient (a b : ℕ) (vars : ℕ → Variable) (q : ℤ) : Prop :=
  ∃ x y, (vars a).least ≤ x ∧ x ≤ (vars a).most ∧ (vars b).least ≤ y ∧ y ≤ (vars b).most ∧ q = x.tdiv y

/-- The solutions that the signed part loses: with the least number of 64 bits by -1; with an
unsigned result of 64 bits beside a negative quotient; and wrapped past all quotients. -/
def DivLost (r a b : ℕ) (vars : ℕ → Variable) (σ : ℕ → ℤ) : Prop :=
  ¬((vars a).least = (vars a).most ∧ (vars b).least = (vars b).most) ∧
  ((vars b).least = -1 ∧ (vars b).most = -1 ∧ (vars r).width = 64 ∧ (vars a).least = -2^63 ∧
      ((vars r).signed = false ∨ -(vars a).most < σ r) ∨
    (0 < (vars b).least ∨ (vars b).least = (vars b).most ∧ (vars b).least ≠ 0) ∧
      (vars r).beyond = true ∧ (∃ q < 0, IsQuotient a b vars q) ∨
    0 < (vars b).least ∧ (vars b).least < (vars b).most ∧
      ((∀ q, IsQuotient a b vars q → σ r < q) ∨ ∀ q, IsQuotient a b vars q → q < σ r))

structure DivSetting (r a b n : ℕ) (vars : ℕ → Variable) (num : BitVec 64 → ℤ)
    (within : BitVec 64 → BitVec 64 → Fire → Fire) (σ : ℕ → ℤ) : Prop where
  honest : Honest r a b vars
  bounds : Bounds [r,a,b] r vars num within
  inside : Inside [r,a,b] vars σ
  width : (vars r).width ≤ n+1
  small : n ≤ 63
  least : -2^n ≤ (vars a).least
  most : (vars a).most < 2^n
  asked : ∀ x : BitVec 64, -2^n ≤ x.toInt → x.toInt < 2^n → Asked (vars r) num (σ r) x
  ne : σ b ≠ 0

namespace DivSetting

theorem widthPos (h : DivSetting r a b n vars num within σ) : 0 < (vars r).width :=
  (h.honest.ok r (by simp)).pos

theorem widthLe (h : DivSetting r a b n vars num within σ) : (vars r).width ≤ 64 :=
  (h.honest.ok r (by simp)).le

theorem ofFits (h : DivSetting r a b n vars num within σ) {x : BitVec 64}
    (hx : svFitsSigned x (vars r).width = true) : Asked (vars r) num (σ r) x := by
  have hw := h.width
  have hpos := h.widthPos
  have hp : (2 : ℤ)^((vars r).width-1) ≤ 2^n := pow_le_pow_right₀ (by norm_num) (by omega)
  obtain ⟨h1,h2⟩ := (svFitsSigned_iff hpos h.widthLe).mp hx
  exact h.asked x (by omega) (by omega)

theorem fixed (h : DivSetting r a b n vars num within σ)
    (hb : varLo64 (vars b) = varHi64 (vars b))
    (hover : ¬((vars a).least = -2^63 ∧ (vars b).least = -1))
    (h0 : svFitsSigned (svSdiv64 (varLo64 (vars a)) (varLo64 (vars b))) (vars r).width = true)
    (h1 : svFitsSigned (svSdiv64 (varHi64 (vars a)) (varLo64 (vars b))) (vars r).width = true) :
    σ b = (vars b).least ∧
    (svSdiv64 (varLo64 (vars a)) (varLo64 (vars b))).toInt = (vars a).least.tdiv (σ b) ∧
    (svSdiv64 (varHi64 (vars a)) (varLo64 (vars b))).toInt = (vars a).most.tdiv (σ b) ∧
    ((σ a).tdiv (σ b)).bmod (2^(vars r).width) = (σ a).tdiv (σ b) := by
  have hmost : (vars b).most = (vars b).least := by
    rw [← h.honest.hi (by simp),← h.honest.lo (by simp),hb]
  have hσb : σ b = (vars b).least := by
    have := h.inside.least b (by simp)
    have := h.inside.most b (by simp)
    omega
  have ha1 := h.inside.least a (by simp)
  have ha2 := h.inside.most a (by simp)
  have hword := h.honest.lo (x:=b) (by simp)
  have e0 : (svSdiv64 (varLo64 (vars a)) (varLo64 (vars b))).toInt = (vars a).least.tdiv (σ b) := by
    rw [svSdiv64_exact,h.honest.lo (by simp),hword,hσb]
    rw [h.honest.lo (by simp),hword]
    exact hover
  have e1 : (svSdiv64 (varHi64 (vars a)) (varLo64 (vars b))).toInt = (vars a).most.tdiv (σ b) := by
    rw [svSdiv64_exact,h.honest.hi (by simp),hword,hσb]
    rw [h.honest.hi (by simp),hword]
    rintro ⟨h2,h3⟩
    have hl : -2^63 ≤ (vars a).least := by
      rw [← h.honest.lo (by simp)]
      exact BitVec.le_toInt _
    exact hover ⟨by omega,h3⟩
  refine ⟨hσb,e0,e1,?_⟩
  have hpos := h.widthPos
  obtain ⟨f1,f2⟩ := (svFitsSigned_iff hpos h.widthLe).mp h0
  obtain ⟨f3,f4⟩ := (svFitsSigned_iff hpos h.widthLe).mp h1
  have hhull := TruncDiv.hull_fixed h.ne ha1 ha2
  have hp : (2 : ℤ)^(vars r).width = 2^((vars r).width-1)*2 := by
    rw [← pow_succ]
    congr 1
    omega
  rw [e0] at f1 f2
  rw [e1] at f3 f4
  exact Int.bmod_eq_of_le (by push_cast; omega) (by push_cast; omega)

theorem exact (h : DivSetting r a b n vars num within σ)
    (ha : varLo64 (vars a) = varHi64 (vars a)) (hb : varLo64 (vars b) = varHi64 (vars b)) :
    (svWrapSigned (svSdiv64 (varLo64 (vars a)) (varLo64 (vars b))) (vars r).width).toInt =
      ((σ a).tdiv (σ b)).bmod (2^(vars r).width) := by
  have hla := h.honest.lo (x:=a) (by simp)
  have hlb := h.honest.lo (x:=b) (by simp)
  have hua := h.honest.hi (x:=a) (by simp)
  have hub := h.honest.hi (x:=b) (by simp)
  rw [← ha] at hua
  rw [← hb] at hub
  have ea : (varLo64 (vars a)).toInt = σ a := by
    have := h.inside.least a (by simp)
    have := h.inside.most a (by simp)
    omega
  have eb : (varLo64 (vars b)).toInt = σ b := by
    have := h.inside.least b (by simp)
    have := h.inside.most b (by simp)
    omega
  rw [svWrapSigned_toInt h.widthPos h.widthLe,svSdiv64_toInt,ea,eb]
  exact Int.bmod_bmod_of_dvd (pow_dvd_pow 2 h.widthLe)

theorem positive (h : DivSetting r a b n vars num within σ) (hb : 0 < (vars b).least) :
    ∃ q q', (svSdiv64 (varLo64 (vars a)) (if (varLo64 (vars a)).toInt < 0 then varLo64 (vars b)
        else varHi64 (vars b))).toInt = q ∧
      (svSdiv64 (varHi64 (vars a)) (if 0 ≤ (varHi64 (vars a)).toInt then varLo64 (vars b)
        else varHi64 (vars b))).toInt = q' ∧
      IsQuotient a b vars q ∧ IsQuotient a b vars q' ∧ -2^n ≤ q ∧ q < 2^n ∧ -2^n ≤ q' ∧ q' < 2^n ∧
      ∀ z, IsQuotient a b vars z → q ≤ z ∧ z ≤ q' := by
  have hla := h.honest.lo (x:=a) (by simp)
  have hua := h.honest.hi (x:=a) (by simp)
  have hlb := h.honest.lo (x:=b) (by simp)
  have hub := h.honest.hi (x:=b) (by simp)
  have a1 := h.inside.least a (by simp)
  have a2 := h.inside.most a (by simp)
  have b1 := h.inside.least b (by simp)
  have b2 := h.inside.most b (by simp)
  have hmin := h.least
  have hmax := h.most
  have hdiv : ∀ (x y : BitVec 64), 0 < y.toInt → (svSdiv64 x y).toInt = x.toInt.tdiv y.toInt :=
    fun x y hy => svSdiv64_exact fun hc => by omega
  have hend : ∀ p : Prop, [Decidable p] → ((if p then varLo64 (vars b) else varHi64 (vars b)).toInt =
      if p then (vars b).least else (vars b).most) := fun p _ => by
    split_ifs
    · exact hlb
    · exact hub
  refine ⟨(vars a).least.tdiv (if (vars a).least < 0 then (vars b).least else (vars b).most),
    (vars a).most.tdiv (if 0 ≤ (vars a).most then (vars b).least else (vars b).most),
    ?_,?_,?_,?_,?_⟩
  · rw [hdiv _ _ (by rw [hend]; split_ifs <;> omega),hend,hla]
  · rw [hdiv _ _ (by rw [hend]; split_ifs <;> omega),hend,hua]
  · exact ⟨_,_,le_rfl,by omega,by split_ifs <;> omega,by split_ifs <;> omega,rfl⟩
  · exact ⟨_,_,by omega,le_rfl,by split_ifs <;> omega,by split_ifs <;> omega,rfl⟩
  · obtain ⟨h1,h2⟩ := TruncDiv.tdiv_range (n:=n) (x:=(vars a).least)
      (y:=if (vars a).least < 0 then (vars b).least else (vars b).most) hmin (by omega)
      fun hc => by have := hc.2; split_ifs at this <;> omega
    obtain ⟨h3,h4⟩ := TruncDiv.tdiv_range (n:=n) (x:=(vars a).most)
      (y:=if 0 ≤ (vars a).most then (vars b).least else (vars b).most) (by omega) hmax
      fun hc => by have := hc.2; split_ifs at this <;> omega
    refine ⟨h1,h2,h3,h4,?_⟩
    rintro z ⟨x,y,x1,x2,y1,y2,rfl⟩
    exact ⟨TruncDiv.hull_le x1 hb y1 y2,TruncDiv.le_hull x2 hb y1 y2⟩

theorem bmod_range (x : ℤ) {w : ℕ} (hpos : 0 < w) :
    -2^(w-1) ≤ x.bmod (2^w) ∧ x.bmod (2^w) < 2^(w-1) := by
  have h1 := Int.le_bmod (x := x) (m := 2^w) (by positivity)
  have h2 := Int.bmod_lt (x := x) (m := 2^w) (by positivity)
  have hp : (2 : ℤ)^w = 2^(w-1)*2 := by
    rw [← pow_succ]
    congr 1
    omega
  push_cast at h1 h2
  omega

theorem ofExact (h : DivSetting r a b n vars num within σ) {x : BitVec 64} {z : ℤ}
    (hx : x.toInt = z.bmod (2^(vars r).width)) : Asked (vars r) num (σ r) x := by
  have hw := h.width
  obtain ⟨h1,h2⟩ := bmod_range z h.widthPos
  have hp : (2 : ℤ)^((vars r).width-1) ≤ 2^n := pow_le_pow_right₀ (by norm_num) (by omega)
  exact h.asked x (by omega) (by omega)

/-- The ends when the least number of 64 bits is divided by -1. -/
theorem overflow (h : DivSetting r a b n vars num within σ)
    (ha : (vars a).least ≠ (vars a).most) (h1 : (vars a).least = -2^63) (h2 : (vars b).least = -1)
    (h0 : svFitsSigned (svSdiv64 (varLo64 (vars a)) (varLo64 (vars b))) (vars r).width = true) :
    (vars r).width = 64 ∧ (svSdiv64 (varLo64 (vars a)) (varLo64 (vars b))).toInt = -2^63 ∧
      (svSdiv64 (varHi64 (vars a)) (varLo64 (vars b))).toInt = -(vars a).most := by
  have hla := h.honest.lo (x:=a) (by simp)
  have hua := h.honest.hi (x:=a) (by simp)
  have hlb := h.honest.lo (x:=b) (by simp)
  have e0 : (svSdiv64 (varLo64 (vars a)) (varLo64 (vars b))).toInt = -2^63 := by
    rw [svSdiv64_toInt,hla,hlb,h1,h2]
    decide
  refine ⟨?_,e0,?_⟩
  · have hle := h.widthLe
    obtain ⟨f1,f2⟩ := (svFitsSigned_iff h.widthPos hle).mp h0
    rw [e0] at f1
    by_contra hne
    have hp : (2 : ℤ)^((vars r).width-1) ≤ 2^62 := pow_le_pow_right₀ (by norm_num) (by omega)
    omega
  · have a1 := h.inside.least a (by simp)
    rw [svSdiv64_exact (by omega),hua,hlb,h2,Int.tdiv_neg,Int.tdiv_one]

end DivSetting

theorem Honest.fixed_iff (h : Honest r a b vars) {x : ℕ} (hx : x ∈ [r,a,b]) :
    varLo64 (vars x) = varHi64 (vars x) ↔ (vars x).least = (vars x).most := by
  rw [← h.lo hx,← h.hi hx]
  exact ⟨fun e => by rw [e],fun e => BitVec.eq_of_toInt_eq e⟩

variable {p : BitVec 64 → Prop}

theorem i64Min_cases {x y : BitVec 64} (hx : p x) (hy : p y) :
    p (i64Min x y) := by
  unfold i64Min
  split_ifs
  · exact hx
  · exact hy

theorem i64Max_cases {x y : BitVec 64} (hx : p x) (hy : p y) :
    p (i64Max x y) := by
  unfold i64Max
  split_ifs
  · exact hx
  · exact hy

theorem divSigned_keeps (h : DivSetting r a b n vars num within σ)
    (hR : σ r = ((σ a).tdiv (σ b)).bmod (2^(vars r).width)) (hL : ¬DivLost r a b vars σ) :
    (divSigned within (vars r).width (varLo64 (vars a)) (varHi64 (vars a)) (varLo64 (vars b))
      (varHi64 (vars b))).wp (fun res vars => res ≠ .conflict ∧ Inside [r,a,b] vars σ) vars := by
  have hT : Typed [r,a,b] vars vars := .refl h.honest.ok
  have hword := h.honest.lo (x:=b) (by simp)
  have hfa := h.honest.fixed_iff (x:=a) (by simp)
  have hfb := h.honest.fixed_iff (x:=b) (by simp)
  have b1 := h.inside.least b (by simp)
  have b2 := h.inside.most b (by simp)
  have hdone : ∀ vars', Typed [r,a,b] vars vars' → Inside [r,a,b] vars' σ →
      (Fire.done .ok).wp (fun res vars => res ≠ .conflict ∧ Inside [r,a,b] vars σ) vars' :=
    fun vars' _ hσ => ⟨by simp,hσ⟩
  have hkeep : ∀ {lo hi : BitVec 64}, num lo ≤ σ r → σ r ≤ num hi → (within lo hi (.done .ok)).wp
      (fun res vars => res ≠ .conflict ∧ Inside [r,a,b] vars σ) vars :=
    fun h1 h2 => h.bounds.keep hT h.inside h1 h2 hdone
  unfold divSigned
  by_cases hfix : varLo64 (vars b) = varHi64 (vars b) ∧ varLo64 (vars b) ≠ 0#64
  · rw [if_pos hfix]
    have hmb := hfb.mp hfix.1
    by_cases ha : varLo64 (vars a) = varHi64 (vars a)
    · rw [if_pos ha]
      have hq := h.exact ha hfix.1
      have hask := h.ofExact hq
      rw [← hR] at hq
      exact hkeep (hask.le hq.le fun hb => hq ▸ hask.nonneg hb) (hask.ge hq.ge)
    · rw [if_neg ha]
      dsimp only
      split_ifs with hfit
      · rw [Bool.and_eq_true] at hfit
        have hmin := h.ofFits (i64Min_cases (p:=fun x => svFitsSigned x _ = true) hfit.1 hfit.2)
        have hmax := h.ofFits (i64Max_cases (p:=fun x => svFitsSigned x _ = true) hfit.1 hfit.2)
        have hnfix : ¬((vars a).least = (vars a).most ∧ (vars b).least = (vars b).most) :=
          fun hc => ha (hfa.mpr hc.1)
        by_cases hover : (vars a).least = -2^63 ∧ (vars b).least = -1
        · obtain ⟨hw,e0,e1⟩ := h.overflow (mt hfa.mpr ha) hover.1 hover.2 hfit.1
          have hkept : ¬((vars r).signed = false ∨ -(vars a).most < σ r) := fun hc =>
            hL ⟨hnfix,.inl ⟨hover.2,by omega,hw,hover.1,hc⟩⟩
          rw [not_or,not_lt] at hkept
          have hr : -2^63 ≤ σ r := by
            have h1 := h.inside.least r (by simp)
            rw [← h.honest.lo (by simp)] at h1
            exact (BitVec.le_toInt (varLo64 (vars r))).trans h1
          refine hkeep (hmin.le ?_ fun hb => ?_) (hmax.ge ?_)
          · rw [i64Min_toInt,e0]
            omega
          · exact absurd ((Variable.beyond_iff h.widthLe).mp hb).1 hkept.1
          · rw [i64Max_toInt,e1]
            omega
        · obtain ⟨hσb,e0,e1,hwrap⟩ := h.fixed hfix.1 hover hfit.1 hfit.2
          have hhull := TruncDiv.hull_fixed h.ne (h.inside.least a (by simp)) (h.inside.most a (by simp))
          rw [hwrap] at hR
          refine hkeep (hmin.le ?_ fun hb => ?_) (hmax.ge ?_)
          · rw [i64Min_toInt,e0,e1,hR]
            exact hhull.1
          · rw [i64Min_toInt,e0,e1]
            by_contra hneg
            refine hL ⟨hnfix,.inr (.inl ⟨.inr ⟨hmb,by rw [← hσb]; exact h.ne⟩,hb,?_⟩)⟩
            have hal := (h.inside.least a (by simp)).trans (h.inside.most a (by simp))
            rw [hσb] at hneg
            rcases min_choice ((vars a).least.tdiv (vars b).least)
              ((vars a).most.tdiv (vars b).least) with hc | hc <;> rw [hc] at hneg
            · exact ⟨_,not_le.mp hneg,_,_,le_rfl,hal,le_rfl,hmb.le,rfl⟩
            · exact ⟨_,not_le.mp hneg,_,_,hal,le_rfl,le_rfl,hmb.le,rfl⟩
          · rw [i64Max_toInt,e0,e1,hR]
            exact hhull.2
      · exact hdone vars hT h.inside
  · rw [if_neg hfix]
    by_cases hpos : 0 < (varLo64 (vars b)).toInt
    · rw [if_pos hpos]
      rw [hword] at hpos
      obtain ⟨q,q',hq,hq',hquo,hquo',r1,r2,r3,r4,hall⟩ := h.positive hpos
      have hne : (vars b).least < (vars b).most := by
        refine lt_of_le_of_ne (by omega) fun heq => hfix ⟨hfb.mpr heq,fun h0 => ?_⟩
        rw [h0] at hword
        simp at hword
        omega
      have hlo : q ≤ σ r := by
        by_contra hlt
        exact hL ⟨fun hc => hne.ne hc.2,.inr (.inr ⟨hpos,hne,.inl fun z hz =>
          lt_of_lt_of_le (not_le.mp hlt) (hall z hz).1⟩)⟩
      have hhi : σ r ≤ q' := by
        by_contra hlt
        exact hL ⟨fun hc => hne.ne hc.2,.inr (.inr ⟨hpos,hne,.inr fun z hz =>
          lt_of_le_of_lt (hall z hz).2 (not_le.mp hlt)⟩)⟩
      refine hkeep ((h.asked _ (by rw [hq]; exact r1) (by rw [hq]; exact r2)).le (hq.trans_le hlo)
        fun hb => ?_) ((h.asked _ (by rw [hq']; exact r3) (by rw [hq']; exact r4)).ge
          (hhi.trans hq'.ge))
      rw [hq]
      by_contra hneg
      exact hL ⟨fun hc => hne.ne hc.2,.inr (.inl ⟨.inl hpos,hb,q,not_le.mp hneg,hquo⟩)⟩
    · rw [if_neg hpos]
      exact hdone vars hT h.inside

theorem svFitsSigned_64 (x : BitVec 64) : svFitsSigned x 64 = true := rfl

theorem divSigned_loses (h : DivSetting r a b n vars num within σ) (hL : DivLost r a b vars σ) :
    (divSigned within (vars r).width (varLo64 (vars a)) (varHi64 (vars a)) (varLo64 (vars b))
      (varHi64 (vars b))).wp (Lost [r,a,b] σ) vars := by
  obtain ⟨hnfix,hL⟩ := hL
  have hword := h.honest.lo (x:=b) (by simp)
  have hfa := h.honest.fixed_iff (x:=a) (by simp)
  have hfb := h.honest.fixed_iff (x:=b) (by simp)
  have hlose : ∀ {lo hi : BitVec 64}, σ r < num lo ∨ num hi < σ r →
      (within lo hi (.done .ok)).wp (Lost [r,a,b] σ) vars := fun hout =>
    h.bounds.lose (.refl h.honest.ok) hout (fun _ => .inl rfl)
      fun _ _ hout => Lost.of_least (by simp) hout
  have h64 := Variable.beyond_iff (v:=vars r) h.widthLe
  unfold divSigned
  by_cases hfix : varLo64 (vars b) = varHi64 (vars b) ∧ varLo64 (vars b) ≠ 0#64
  · rw [if_pos hfix]
    have hmb := hfb.mp hfix.1
    by_cases ha : varLo64 (vars a) = varHi64 (vars a)
    · exact absurd ⟨hfa.mp ha,hmb⟩ hnfix
    rw [if_neg ha]
    -- only a result of 64 bits is lost here, and everything fits in 64 bits
    have hw : (vars r).width = 64 := by
      rcases hL with hL | hL | hL
      · exact hL.2.2.1
      · exact (h64.mp hL.2.1).2
      · exact absurd hmb hL.2.1.ne
    have hfit : ∀ x, svFitsSigned x (vars r).width = true := fun x => by
      rw [hw]
      exact svFitsSigned_64 x
    rw [if_pos (by rw [hfit,hfit]; rfl)]
    have hmin := h.ofFits (hfit (i64Min (svSdiv64 (varLo64 (vars a)) (varLo64 (vars b)))
      (svSdiv64 (varHi64 (vars a)) (varLo64 (vars b)))))
    have hmax := h.ofFits (hfit (i64Max (svSdiv64 (varLo64 (vars a)) (varLo64 (vars b)))
      (svSdiv64 (varHi64 (vars a)) (varLo64 (vars b)))))
    by_cases hover : (vars a).least = -2^63 ∧ (vars b).least = -1
    · obtain ⟨-,e0,e1⟩ := h.overflow (mt hfa.mpr ha) hover.1 hover.2 (hfit _)
      by_cases hb : (vars r).beyond = true
      · refine hlose (.inl (hmin.far hb ?_))
        rw [i64Min_toInt,e0]
        omega
      · have hlt : -(vars a).most < σ r := by
          rcases hL with hL | hL | hL
          · exact hL.2.2.2.2.resolve_left fun hs => hb (h64.mpr ⟨hs,hw⟩)
          · exact absurd hL.2.1 hb
          · exact absurd hmb hL.2.1.ne
        have hau := BitVec.toInt_lt (x := varHi64 (vars a))
        rw [h.honest.hi (by simp)] at hau
        refine hlose (.inr ?_)
        rw [hmax.eq fun hc => absurd hc hb,i64Max_toInt,e0,e1]
        omega
    · obtain ⟨hσb,e0,e1,-⟩ := h.fixed hfix.1 hover (hfit _) (hfit _)
      obtain ⟨hb,q,hq,x,y,x1,x2,y1,y2,rfl⟩ :
          (vars r).beyond = true ∧ ∃ q < 0, IsQuotient a b vars q := by
        rcases hL with hL | hL | hL
        · exact absurd ⟨hL.2.2.2.1,hL.1⟩ hover
        · exact hL.2
        · exact absurd hmb hL.2.1.ne
      have hy : y = σ b := by omega
      subst hy
      refine hlose (.inl (hmin.far hb ?_))
      rw [i64Min_toInt,e0,e1]
      exact lt_of_le_of_lt (TruncDiv.hull_fixed h.ne x1 x2).1 hq
  rw [if_neg hfix]
  have hdiv : ¬((vars b).least = (vars b).most ∧ (vars b).least ≠ 0) := fun hc =>
    hfix ⟨hfb.mpr hc.1,fun h0 => hc.2 (by rw [← hword,h0]; rfl)⟩
  have hpos : 0 < (vars b).least := by
    rcases hL with hL | hL | hL
    · exact absurd ⟨by omega,by omega⟩ hdiv
    · exact hL.1.resolve_right hdiv
    · exact hL.1
  rw [if_pos (by rw [hword]; exact hpos)]
  obtain ⟨q,q',hq,hq',hquo,hquo',r1,r2,r3,r4,hall⟩ := h.positive hpos
  have hask := h.asked _ (r1.trans_eq hq.symm) (hq.trans_lt r2)
  have hask' := h.asked _ (r3.trans_eq hq'.symm) (hq'.trans_lt r4)
  rcases hL with hL | ⟨-,hb,z,hz,hzq⟩ | ⟨-,-,hL | hL⟩
  · omega
  · refine hlose (.inl (hask.far hb ?_))
    rw [hq]
    exact lt_of_le_of_lt (hall z hzq).1 hz
  · exact hlose (.inl (hask.gt ((hL q hquo).trans_eq hq.symm)))
  · by_cases hneg : (vars r).beyond = true ∧ q' < 0
    · refine hlose (.inl (hask.far hneg.1 ?_))
      rw [hq]
      exact lt_of_le_of_lt (hall q' hquo').1 hneg.2
    · refine hlose (.inr ?_)
      rw [hask'.eq fun hb => by rw [hq']; exact not_lt.mp fun hc => hneg ⟨hb,hc⟩,hq']
      exact hL q' hquo'

theorem divSigned_refutes (h : DivSetting r a b n vars num within σ)
    (hp : Pinned [r,a,b] vars σ) (hR : σ r ≠ ((σ a).tdiv (σ b)).bmod (2^(vars r).width)) :
    (divSigned within (vars r).width (varLo64 (vars a)) (varHi64 (vars a)) (varLo64 (vars b))
      (varHi64 (vars b))).wp (fun res _ => res = .conflict) vars := by
  have hfa := hp.fixed (show a ∈ [r,a,b] by simp)
  have hfb := hp.fixed (show b ∈ [r,a,b] by simp)
  have hne : varLo64 (vars b) ≠ 0#64 := fun h0 => by
    have hword := h.honest.lo (x:=b) (by simp)
    rw [h0,hp.least b (by simp)] at hword
    exact h.ne hword.symm
  have hq := h.exact hfa hfb
  have hask := h.ofExact hq
  unfold divSigned
  rw [if_pos ⟨hfb,hne⟩,if_pos hfa]
  refine h.bounds.pin (.refl h.honest.ok) hp (fun _ => rfl) fun h1 h2 => absurd ?_ hR
  rw [← hq,← hask.of_eq h1]
  exact le_antisymm h2 h1

/-! The unsigned part. -/

theorem signedOp_false {vr va vb : Variable} (h : signedOp vr va vb = false) :
    vr.signed = false ∧ va.signed = false ∧ vb.signed = false := by
  simp only [signedOp,Bool.or_eq_false_iff] at h
  exact ⟨h.1.1,h.1.2,h.2⟩

section Unsigned

variable {rlo rhi : BitVec 64} (h : DivSetting r a b n vars num within σ)
  (hs : signedOp (vars r) (vars a) (vars b) = false)

include h hs

theorem DivSetting.nonneg : 0 ≤ (vars a).least ∧ 0 ≤ (vars b).least :=
  ⟨(h.honest.ok a (by simp)).nonneg (signedOp_false hs).2.1 le_rfl,
    (h.honest.ok b (by simp)).nonneg (signedOp_false hs).2.2 le_rfl⟩

theorem DivSetting.quotient (hfix : (vars b).least = (vars b).most)
    (e0 : rlo.toInt = (vars a).least.tdiv (vars b).least)
    (e1 : rhi.toInt = (vars a).most.tdiv (vars b).least) :
    0 ≤ rlo.toInt ∧ rlo.toInt ≤ (σ a).tdiv (σ b) ∧ (σ a).tdiv (σ b) ≤ rhi.toInt ∧
      Asked (vars r) num (σ r) rlo ∧ Asked (vars r) num (σ r) rhi := by
  have hσb : σ b = (vars b).least := by
    have := h.inside.least b (by simp)
    have := h.inside.most b (by simp)
    omega
  obtain ⟨ha,hb⟩ := h.nonneg hs
  have hpos : 0 < (vars b).least := by
    have := h.ne
    omega
  have a1 := h.inside.least a (by simp)
  have a2 := h.inside.most a (by simp)
  have hmax := h.most
  have h1 := Int.tdiv_le_tdiv hpos a1
  have h2 := Int.tdiv_le_tdiv hpos a2
  have h3 := Int.tdiv_nonneg ha hpos.le
  obtain ⟨h4,h5⟩ := TruncDiv.tdiv_range (n:=n) (x:=(vars a).most) (y:=(vars b).least) (by omega)
    hmax (by omega)
  rw [hσb,e0,e1]
  exact ⟨h3,h1,h2,h.asked _ (by omega) (by omega),h.asked _ (by omega) (by omega)⟩

theorem divFixed_keeps (hfix : (vars b).least = (vars b).most)
    (e0 : rlo.toInt = (vars a).least.tdiv (vars b).least)
    (e1 : rhi.toInt = (vars a).most.tdiv (vars b).least) (hR : σ r = (σ a).tdiv (σ b)) :
    (divFixed within rlo rhi).wp (fun res vars => res ≠ .conflict ∧ Inside [r,a,b] vars σ) vars := by
  obtain ⟨h0,h1,h2,k1,k2⟩ := h.quotient hs hfix e0 e1
  rw [divFixed,if_neg (by omega)]
  exact h.bounds.keep (.refl h.honest.ok) h.inside (k1.le (hR ▸ h1) fun _ => h0) (k2.ge (hR ▸ h2))
    fun _ _ hσ => ⟨by simp,hσ⟩

theorem divFixed_refutes (hp : Pinned [r,a,b] vars σ) (hfix : (vars b).least = (vars b).most)
    (e0 : rlo.toInt = (vars a).least.tdiv (vars b).least)
    (e1 : rhi.toInt = (vars a).most.tdiv (vars b).least) (hR : σ r ≠ (σ a).tdiv (σ b)) :
    (divFixed within rlo rhi).wp (fun res _ => res = .conflict) vars := by
  obtain ⟨h0,h1,h2,k1,k2⟩ := h.quotient hs hfix e0 e1
  have hsame : rlo.toInt = rhi.toInt := by
    rw [e0,e1,hp.least a (by simp),hp.most a (by simp)]
  rw [divFixed,if_neg (by omega)]
  refine h.bounds.pin (.refl h.honest.ok) hp (fun _ => rfl) fun g1 g2 => absurd ?_ hR
  rw [k1.of_eq g1] at g1
  rw [k2.eq fun _ => by omega] at g2
  omega

end Unsigned

theorem sdiv_toInt {x y : BitVec 64} (hy : 0 < y.toInt) : (x.sdiv y).toInt = x.toInt.tdiv y.toInt := by
  have h := svSdiv64_exact (a:=x) (b:=y) (by omega)
  rwa [svSdiv64,if_neg fun hc => by rw [hc] at hy; exact absurd hy (by decide)] at h

theorem divSetting64 (hh : Honest r a b vars) (hσ : Inside [r,a,b] vars σ) (hb : σ b ≠ 0) :
    DivSetting r a b 63 vars (varOrd (vars r)) (Fire.between r) σ where
  honest := hh
  bounds := bounds64 vars (by simp)
  inside := hσ
  width := (hh.ok r (by simp)).le
  small := le_rfl
  least := by
    rw [← hh.lo (by simp)]
    exact BitVec.le_toInt _
  most := by
    rw [← hh.hi (by simp)]
    exact BitVec.toInt_lt
  asked x _ _ := asked64 hh hσ x
  ne := hb

theorem fireBoundsDiv64_propagates (hh : Honest r a b s.ctx.vars) :
    PropagatesOn [r,a,b] (fun σ => σ b ≠ 0) (DivRel r a b s.ctx.vars) (fireBoundsDiv64 r a b) s ↔
      ∀ σ, Inside [r,a,b] s.ctx.vars σ → σ b ≠ 0 → DivRel r a b s.ctx.vars σ →
        ¬(signedOp (s.ctx.vars r) (s.ctx.vars a) (s.ctx.vars b) = true ∧ DivLost r a b s.ctx.vars σ) := by
  refine PropagatesOn.iff (fun σ hσ hb hR hL => ?_) (fun σ hσ hb hR hL => ?_)
    fun σ hp hb hR => ?_
  · have h := divSetting64 hh hσ hb
    simp only [fireBoundsDiv64,Fire.wp]
    cases hs : signedOp (s.ctx.vars r) (s.ctx.vars a) (s.ctx.vars b)
    · rw [DivRel,hs,if_neg (by simp)] at hR
      rw [if_neg (by simp)]
      obtain ⟨ha0,hb0⟩ := h.nonneg hs
      have hlb := hh.lo (x:=b) (by simp)
      have hub := hh.hi (x:=b) (by simp)
      have hla := hh.lo (x:=a) (by simp)
      have hua := hh.hi (x:=a) (by simp)
      split_ifs with hfix hpos hpos
      · have hk := (hh.fixed_iff (x:=b) (by simp)).mp hfix.1
        refine divFixed_keeps h hs hk ?_ ?_ hR
        · rw [sdiv_toInt hpos,hla,hlb]
        · rw [sdiv_toInt hpos,hua,hlb]
      · refine absurd (BitVec.eq_of_toInt_eq ?_) hfix.2
        simp
        omega
      · have b1 := hσ.least b (by simp)
        have b2 := hσ.most b (by simp)
        have h1 := TruncDiv.hull_le (hσ.least a (by simp)) (by omega) b1 b2
        have h2 := TruncDiv.le_hull (hσ.most a (by simp)) (by omega) b1 b2
        have ha1 := (hσ.least a (by simp)).trans (hσ.most a (by simp))
        rw [if_neg (by omega)] at h1
        rw [if_pos (by omega)] at h2
        refine (bounds64 s.ctx.vars (by simp)).keep (.refl hh.ok) hσ ((asked64 hh hσ _).le ?_ fun _ => ?_)
          ((asked64 hh hσ _).ge ?_) fun _ _ hσ => ⟨by simp,hσ⟩
        · rw [sdiv_toInt (by omega),hla,hub,hR]
          exact h1
        · rw [sdiv_toInt (by omega),hla,hub]
          exact Int.tdiv_nonneg ha0 (by omega)
        · rw [sdiv_toInt (by omega),hua,hlb,hR]
          exact h2
      · exact ⟨by simp,hσ⟩
    · rw [if_pos rfl]
      rw [DivRel,hs,if_pos rfl] at hR
      exact divSigned_keeps h hR fun hc => hL ⟨hs,hc⟩
  · have h := divSetting64 hh hσ hb
    simp only [fireBoundsDiv64,Fire.wp]
    rw [if_pos hL.1]
    exact divSigned_loses h hL.2
  · have h := divSetting64 hh hp.inside hb
    simp only [fireBoundsDiv64,Fire.wp]
    cases hs : signedOp (s.ctx.vars r) (s.ctx.vars a) (s.ctx.vars b)
    · rw [DivRel,hs,if_neg (by simp)] at hR
      obtain ⟨ha0,hb0⟩ := h.nonneg hs
      have hlb := hh.lo (x:=b) (by simp)
      have hword := hp.least b (by simp)
      have hpos : 0 < (varLo64 (s.ctx.vars b)).toInt := by omega
      have hfix := hp.fixed (show b ∈ [r,a,b] by simp)
      rw [if_neg (by simp),if_pos ⟨hfix,fun hc => by rw [hc] at hpos; exact absurd hpos (by decide)⟩,
        if_pos hpos]
      refine divFixed_refutes h hs hp ((hh.fixed_iff (x:=b) (by simp)).mp hfix) ?_ ?_ hR
      · rw [sdiv_toInt hpos,hh.lo (by simp),hlb]
      · rw [sdiv_toInt hpos,hh.hi (by simp),hlb]
    · rw [if_pos rfl]
      rw [DivRel,hs,if_pos rfl] at hR
      exact divSigned_refutes h hp hR

def Small (r a b : ℕ) (vars : ℕ → Variable) : Prop := ∀ v ∈ [r,a,b], (vars v).tier1 = false

theorem divSetting32 (hh : Honest r a b vars) (h0 : Small r a b vars) (hσ : Inside [r,a,b] vars σ)
    (hb : σ b ≠ 0) :
    DivSetting r a b 31 vars (fun x => (x.setWidth 32).toInt) (within32 r) σ where
  honest := hh
  bounds := bounds32 (by simp) (h0 r (by simp))
  inside := hσ
  width := (hh.ok r (by simp)).narrow (h0 r (by simp))
  small := by decide
  least := by
    rw [(hh.ok a (by simp)).least_eq (h0 a (by simp))]
    exact BitVec.le_toInt _
  most := by
    rw [(hh.ok a (by simp)).most_eq (h0 a (by simp))]
    exact BitVec.toInt_lt
  asked _ h1 h2 := asked32 hh (h0 r (by simp)) _ h1 h2
  ne := hb

theorem sdiv32_toInt {x y : BitVec 32} (hy : 0 < y.toInt) :
    ((x.sdiv y).signExtend 64).toInt = x.toInt.tdiv y.toInt := by
  rw [BitVec.toInt_signExtend_of_le (by decide),BitVec.toInt_sdiv_of_ne_or_ne _ _ (.inr ?_)]
  rintro rfl
  exact absurd hy (by decide)

/-- `_fire_bounds_div_32`, where only a wrapped quotient is lost. -/
theorem fireBoundsDiv32_propagates (hh : Honest r a b s.ctx.vars) (h0 : Small r a b s.ctx.vars) :
    PropagatesOn [r,a,b] (fun σ => σ b ≠ 0) (DivRel r a b s.ctx.vars) (fireBoundsDiv32 r a b) s ↔
      ∀ σ, Inside [r,a,b] s.ctx.vars σ → σ b ≠ 0 → DivRel r a b s.ctx.vars σ →
        ¬(signedOp (s.ctx.vars r) (s.ctx.vars a) (s.ctx.vars b) = true ∧ DivLost r a b s.ctx.vars σ) := by
  have hlb := (hh.ok b (by simp)).least_eq (h0 b (by simp))
  have hub := (hh.ok b (by simp)).most_eq (h0 b (by simp))
  have hla := (hh.ok a (by simp)).least_eq (h0 a (by simp))
  have hua := (hh.ok a (by simp)).most_eq (h0 a (by simp))
  refine PropagatesOn.iff (fun σ hσ hb hR hL => ?_) (fun σ hσ hb hR hL => ?_)
    fun σ hp hb hR => ?_
  · have h := divSetting32 hh h0 hσ hb
    simp only [fireBoundsDiv32,Fire.wp]
    cases hs : signedOp (s.ctx.vars r) (s.ctx.vars a) (s.ctx.vars b)
    · rw [DivRel,hs,if_neg (by simp)] at hR
      rw [if_neg (by simp)]
      split_ifs with hfix
      · refine divFixed_keeps h hs (by rw [hlb,hub,hfix.1]) ?_ ?_ hR
        · rw [sdiv32_toInt hfix.2,hla,hlb]
        · rw [sdiv32_toInt hfix.2,hua,hlb]
      · exact ⟨by simp,hσ⟩
    · rw [if_pos rfl]
      rw [DivRel,hs,if_pos rfl] at hR
      exact divSigned_keeps h hR fun hc => hL ⟨hs,hc⟩
  · have h := divSetting32 hh h0 hσ hb
    simp only [fireBoundsDiv32,Fire.wp]
    rw [if_pos hL.1]
    exact divSigned_loses h hL.2
  · have h := divSetting32 hh h0 hp.inside hb
    simp only [fireBoundsDiv32,Fire.wp]
    cases hs : signedOp (s.ctx.vars r) (s.ctx.vars a) (s.ctx.vars b)
    · rw [DivRel,hs,if_neg (by simp)] at hR
      obtain ⟨ha0,hb0⟩ := h.nonneg hs
      have h1 := hp.least b (by simp)
      have h2 := hp.most b (by simp)
      have hfix : (s.ctx.vars b).lo = (s.ctx.vars b).hi := BitVec.eq_of_toInt_eq (by omega)
      have hpos : 0 < (s.ctx.vars b).lo.toInt := by omega
      rw [if_neg (by simp),if_pos ⟨hfix,hpos⟩]
      refine divFixed_refutes h hs hp (by omega) ?_ ?_ hR
      · rw [sdiv32_toInt hpos,hla,hlb]
      · rw [sdiv32_toInt hpos,hua,hlb]
    · rw [if_pos rfl]
      rw [DivRel,hs,if_pos rfl] at hR
      exact divSigned_refutes h hp hR

end Div

end Solver
end DvSolve
