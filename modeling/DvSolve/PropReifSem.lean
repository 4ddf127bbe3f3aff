import DvSolve.PropReif

/-! What the reification propagators keep and lose. -/
namespace DvSolve
namespace Solver

open BitVec (ofInt toInt_inj)
open Fire (run_of_wp wp_andThen wp_lb64 wp_mono wp_need_pinned wp_ub64 wp_when_kept)

variable {v : Variable} {vars vars' vars₀ : ℕ → Variable} {s : Engine} {W : List ℕ} {σ : ℕ → ℤ}

/-- `Propagates`, and a relation that is entailed holds of all that is left. -/
structure Complies (W : List ℕ) (R : (ℕ → ℤ) → Prop) (f : Fire) (s : Engine) : Prop
    extends Propagates W R f s where
  entailed : (f.run s).1 = .entailed → ∀ σ, Inside W (f.run s).2.ctx.vars σ → R σ

/-- An assignment outside the relation that should have been refuted, or is left when the
relation is entailed. -/
def Passed (W : List ℕ) (vars₀ : ℕ → Variable) (σ : ℕ → ℤ) (r : PropResult)
    (vars : ℕ → Variable) : Prop :=
  r ≠ .conflict ∧ (Pinned W vars₀ σ ∨ r = .entailed ∧ Inside W vars σ)

theorem Complies.iff {R A M : (ℕ → ℤ) → Prop} {f : Fire}
    (hkeep : ∀ σ, Inside W s.ctx.vars σ → R σ → A σ →
      f.wp (fun r vars => r ≠ .conflict ∧ Inside W vars σ) s.ctx.vars)
    (hlose : ∀ σ, Inside W s.ctx.vars σ → R σ → ¬A σ → f.wp (Lost W σ) s.ctx.vars)
    (href : ∀ σ, Pinned W s.ctx.vars σ → ¬R σ → ¬M σ → f.wp (fun r _ => r = .conflict) s.ctx.vars)
    (hpass : ∀ σ, Inside W s.ctx.vars σ → ¬R σ → M σ → f.wp (Passed W s.ctx.vars σ) s.ctx.vars)
    (hent : (∀ σ, Inside W s.ctx.vars σ → ¬R σ → ¬M σ) →
      f.wp (fun r vars => r = .entailed → ∀ σ, Inside W vars σ → R σ) s.ctx.vars) :
    Complies W R f s ↔ (∀ σ, Inside W s.ctx.vars σ → R σ → A σ) ∧
      ∀ σ, Inside W s.ctx.vars σ → ¬R σ → ¬M σ := by
  constructor
  · refine fun h => ⟨fun σ hσ hR => by_contra fun hA => ?_,fun σ hσ hR hM => ?_⟩
    · rcases run_of_wp (hlose σ hσ hR hA) with hc | hc
      · exact h.conflict hc σ hσ hR
      · exact hc (h.keeps σ hσ hR)
    · obtain ⟨hc,hp | ⟨he,hin⟩⟩ := run_of_wp (hpass σ hσ hR hM)
      · exact hc (h.refutes σ hp hR)
      · exact hR (h.entailed he σ hin)
  · rintro ⟨hA,hM⟩
    refine ⟨⟨fun σ hσ hR => ?_,fun hc σ hσ hR => ?_,fun σ hp hR => ?_⟩,fun he σ hσ => ?_⟩
    · exact (run_of_wp (hkeep σ hσ hR (hA σ hσ hR))).2
    · exact (run_of_wp (hkeep σ hσ hR (hA σ hσ hR))).1 hc
    · exact run_of_wp (href σ hp hR (hM σ hp.inside hR))
    · exact run_of_wp (hent hM) he σ hσ

/-- `f` tightens variables of `W` only, returns at a conflict, and ends in `E`. -/
def Fire.Stays (W : List ℕ) (vars₀ : ℕ → Variable) (E : PropResult → Prop) : Fire → Prop
  | .done r => E r
  | .read _ k => ∀ x, (k x).Stays W vars₀ E
  | .tighten t v _ k => v ∈ W ∧ t.Fits (vars₀ v) ∧ k .conflict = .done .conflict ∧
      (k .ok).Stays W vars₀ E

section Stays

variable {E : PropResult → Prop} {f k : Fire} {t : Tighten} {id : ℕ} {b lo hi : BitVec 64}

theorem Fire.Stays.wp (hf : f.Stays W vars₀ E) (ht : Typed W vars₀ vars) :
    f.wp (fun r vars' => r = .conflict ∨ E r ∧ Typed W vars vars') vars := by
  suffices h : ∀ vars₁, Typed W vars₀ vars₁ → Typed W vars vars₁ →
      f.wp (fun r vars' => r = .conflict ∨ E r ∧ Typed W vars vars') vars₁ from
    h vars ht (.refl ht.ok)
  induction f with
  | done r => exact fun _ _ h => .inr ⟨hf,h⟩
  | read v k ih => exact fun vars₁ h₀ h₁ => ih _ (hf _) vars₁ h₀ h₁
  | tighten t v b k ih =>
    obtain ⟨hv,hfit,hc,hk⟩ := hf
    intro vars₁ h₀ h₁
    refine ⟨h₁.ok v hv,h₀.fits hfit,fun r vars₂ h => ?_⟩
    cases h with
    | ok x same ok hl hm live =>
      have h2 := (Typed.refl h₁.ok).update same ok (hl ▸ t.least_le _ _) (hm ▸ t.le_most _ _)
      exact ih _ hk _ (h₀.trans h2) (h₁.trans h2)
    | conflict _ out =>
      rw [hc]
      exact .inl rfl

theorem Typed.inside (h : Typed W vars vars') (hσ : Inside W vars' σ) : Inside W vars σ :=
  ⟨fun v hv => (h.least v).trans (hσ.least v hv),fun v hv => (hσ.most v hv).trans (h.most v)⟩

theorem Fire.Stays.lost (hf : f.Stays W vars₀ E) (ht : Typed W vars₀ vars)
    (hout : ¬Inside W vars σ) : f.wp (Lost W σ) vars := by
  refine wp_mono (fun r vars' h => ?_) (hf.wp ht)
  rcases h with h | ⟨-,h⟩
  · exact .inl h
  · exact .inr (mt h.inside hout)

theorem Fire.wp_and {Q Q' : PropResult → (ℕ → Variable) → Prop} (h : f.wp Q vars)
    (h' : f.wp Q' vars) : f.wp (fun r vars => Q r vars ∧ Q' r vars) vars := by
  induction f generalizing vars with
  | done r => exact ⟨h,h'⟩
  | read v k ih => exact ih _ h h'
  | tighten t v b k ih => exact ⟨h.1,h.2.1,fun r vars' ht => ih _ (h.2.2 r vars' ht) (h'.2.2 r vars' ht)⟩

theorem Fire.Stays.andThen_lost (hf : f.Stays W vars₀ E) (hk : k.Stays W vars₀ E)
    (ht : Typed W vars₀ vars) (hl : f.wp (Lost W σ) vars) : (f.andThen k).wp (Lost W σ) vars := by
  rw [wp_andThen]
  refine wp_mono (fun r vars' h => ?_) (Fire.wp_and hl (hf.wp ht))
  obtain ⟨h1,h2⟩ := h
  split_ifs with hr
  · rcases h2 with h2 | ⟨-,h2⟩
    · simp [hr] at h2
    · exact hk.lost (ht.trans h2) (h1.resolve_left (by simp [hr]))
  · exact h1

theorem Fire.wp_andThen_and {Q : PropResult → (ℕ → Variable) → Prop} {P : (ℕ → Variable) → Prop}
    (hf : f.wp (fun r vars' => Retained W vars₀ σ r vars' ∧ P vars') vars)
    (hk : ∀ vars', Typed W vars₀ vars' → Inside W vars' σ → P vars' → k.wp Q vars') :
    (f.andThen k).wp Q vars := by
  rw [wp_andThen]
  refine wp_mono (fun r vars' h => ?_) hf
  rw [if_pos h.1.1]
  exact hk vars' h.1.2.1 h.1.2.2 h.2

theorem Fire.wp_andThen_conflict (hf : f.wp (fun r _ => r = .conflict) vars) :
    (f.andThen k).wp (fun r _ => r = .conflict) vars := by
  rw [wp_andThen]
  refine wp_mono (fun r vars' h => ?_) hf
  rw [if_neg (by simp [h])]
  exact h

theorem Fire.Stays.need (hid : id ∈ W) (hfit : t.Fits (vars₀ id)) (hk : k.Stays W vars₀ E) :
    (Fire.need t id b k).Stays W vars₀ E := ⟨hid,hfit,by simp,by simpa using hk⟩

theorem Fire.Stays.between (hid : id ∈ W) (hk : k.Stays W vars₀ E) :
    (Fire.between id lo hi k).Stays W vars₀ E := .need hid trivial (.need hid trivial hk)

theorem Fire.Stays.andThen (hf : f.Stays W vars₀ E) (hk : k.Stays W vars₀ E) :
    (f.andThen k).Stays W vars₀ E := by
  induction f with
  | done r =>
    unfold Fire.andThen
    split_ifs
    · exact hk
    · exact hf
  | read v g ih => exact fun x => ih x (hf x)
  | tighten t v b g ih =>
    obtain ⟨hv,hfit,hc,hg⟩ := hf
    refine ⟨hv,hfit,?_,ih _ hg⟩
    change (g .conflict).andThen k = _
    rw [hc]
    rfl

theorem Fire.Stays.when {p : Prop} [Decidable p] (hf : f.Stays W vars₀ E) (hk : k.Stays W vars₀ E) :
    (Fire.when p f k).Stays W vars₀ E := by
  unfold Fire.when
  split_ifs
  · exact hf.andThen hk
  · exact hk

theorem Fire.Stays.ite {p : Prop} [Decidable p] (hf : f.Stays W vars₀ E) (hk : k.Stays W vars₀ E) :
    (if p then f else k).Stays W vars₀ E := by
  split_ifs
  · exact hf
  · exact hk

theorem Fire.wp_need_out (ht : Typed W vars₀ vars) (hid : id ∈ W) (hfit : t.Fits (vars₀ id))
    (hb : if t.isUb then t.num (vars₀ id) b < σ id else σ id < t.num (vars₀ id) b)
    (hk : k.Stays W vars₀ E) : (Fire.need t id b k).wp (Lost W σ) vars :=
  Fire.wp_need_lost ht hid hfit hb (fun _ => .inl rfl) fun _ ht hout => hk.lost ht fun hin => by
    have := hin.least id hid
    have := hin.most id hid
    omega

end Stays

/-- The number that `v` has for the pattern of `n`. -/
def Variable.readBy (v : Variable) (n : ℤ) : ℤ := varOrd v (ofInt 64 n)

theorem ofInt_varOrd (v : Variable) (b : BitVec 64) : ofInt 64 (varOrd v b) = b := by
  unfold varOrd
  split_ifs
  · simp
  · exact BitVec.ofInt_toInt

theorem readBy_varOrd (v v' : Variable) (b : BitVec 64) : v.readBy (varOrd v' b) = varOrd v b := by
  rw [Variable.readBy,ofInt_varOrd]

@[simp] theorem varOrd_zero (v : Variable) : varOrd v 0#64 = 0 := varOrd_of_nonneg fun _ => by decide

@[simp] theorem varOrd_one (v : Variable) : varOrd v 1#64 = 1 := varOrd_of_nonneg fun _ => by decide

def SamePattern (m n : ℤ) : Prop := ofInt 64 m = ofInt 64 n

theorem SamePattern.readBy {m n : ℤ} (h : SamePattern m n) : v.readBy m = v.readBy n :=
  congrArg (varOrd v) h

theorem SamePattern.symm {m n : ℤ} (h : SamePattern m n) : SamePattern n m := Eq.symm h

theorem samePattern_of_readBy {m n : ℤ} (h : v.readBy m = v.readBy n) : SamePattern m n := varOrd_inj h

theorem Inside.readBy (hσ : Inside W vars σ) (ht : Typed W vars₀ vars) {x : ℕ} (hx : x ∈ W) :
    (vars₀ x).readBy (σ x) = σ x := by
  obtain ⟨h1,h2⟩ := (ht.ok x hx).inType (hσ.least x hx) (hσ.most x hx)
  rw [Variable.readBy,← (ht.same x).varOrd]
  exact (ht.ok x hx).varOrd_ofInt h1 h2

theorem varOrd_lo (v v' : Variable) : varOrd v (varLo64 v') = v.readBy v'.least :=
  (readBy_varOrd v v' _).symm

theorem varOrd_hi (v v' : Variable) : varOrd v (varHi64 v') = v.readBy v'.most :=
  (readBy_varOrd v v' _).symm

theorem SameType.readBy {v' : Variable} (h : SameType v v') (n : ℤ) : v'.readBy n = v.readBy n :=
  h.varOrd _

/-- The variables of a reification: the guard is a truth value of the small tier. -/
structure Reified (g x y : ℕ) (vars : ℕ → Variable) : Prop where
  ok : ∀ v ∈ [g,x,y], (vars v).Ok
  small : (vars g).tier1 = false
  low : 0 ≤ (vars g).least
  high : (vars g).most ≤ 1

section Guard

variable {g x y : ℕ} (h : Reified g x y vars)

include h

theorem Reified.lo_iff (ht : Typed [g,x,y] vars vars') :
    (vars' g).lo = 1#32 ↔ (vars' g).least = 1 := by
  rw [(ht.ok g (by simp)).least_eq (((ht.same g).tier1).trans h.small),← toInt_inj]
  rfl

theorem Reified.hi_iff (ht : Typed [g,x,y] vars vars') :
    (vars' g).hi = 0#32 ↔ (vars' g).most = 0 := by
  rw [(ht.ok g (by simp)).most_eq (((ht.same g).tier1).trans h.small),← toInt_inj]
  rfl

theorem Reified.single_iff (ht : Typed [g,x,y] vars vars') :
    (vars' g).lo = (vars' g).hi ↔ (vars' g).least = (vars' g).most := by
  have h0 := ((ht.same g).tier1).trans h.small
  rw [(ht.ok g (by simp)).least_eq h0,(ht.ok g (by simp)).most_eq h0,toInt_inj]

theorem Reified.typed : Typed [g,x,y] vars vars := .refl h.ok

theorem Reified.guard (hσ : Inside [g,x,y] vars σ) : σ g = 0 ∨ σ g = 1 := by
  have := h.low
  have := h.high
  have := hσ.least g (by simp)
  have := hσ.most g (by simp)
  omega

end Guard

def LeRel (g x y : ℕ) (σ : ℕ → ℤ) : Prop := σ g = 1 ↔ σ x ≤ σ y

/-- What the bounds of `x` and `y` admit when each is read in the order of the other. -/
def LeAdmits (g x y : ℕ) (vars : ℕ → Variable) (σ : ℕ → ℤ) : Prop :=
  if (vars g).least = 1 then
    σ x ≤ (vars x).readBy (vars y).most ∧ (vars y).readBy (vars x).least ≤ σ y
  else if (vars g).most = 0 then
    (vars x).readBy (vars y).least < σ x ∧ σ y < (vars y).readBy (vars x).most
  else
    ((vars x).most ≤ (vars x).readBy (vars y).least → σ g = 1) ∧
      ((vars x).readBy (vars y).least < (vars x).most →
        (vars x).readBy (vars y).most < (vars x).least → σ g = 0)

section Order

variable {g x y : ℕ} {Q : PropResult → (ℕ → Variable) → Prop}

theorem varOrd_succ {b : BitVec 64} (hv : v.Ok) (hb : varOrd v b < v.top) :
    varOrd v (b+1#64) = varOrd v b+1 := by
  rcases varOrd_add_one v b with h | h
  · exact h
  · have := h (varReprMax v)
    rw [varOrd_reprMax hv.pos hv.le] at this
    omega

theorem varOrd_pred {b : BitVec 64} (hv : v.Ok) (hb : v.bot < varOrd v b) :
    varOrd v (b-1#64) = varOrd v b-1 := by
  rcases varOrd_sub_one v b with h | h
  · exact h
  · have := h (varReprMin v)
    rw [varOrd_reprMin hv.pos hv.le] at this
    omega

theorem edge_iff {b : BitVec 64} (hv : v.Ok) :
    varBLt v b (varReprMax v) = false ↔ v.top ≤ varOrd v b := by
  rw [← Bool.not_eq_true,Solver.varBLt_iff,varOrd_reprMax hv.pos hv.le,not_lt]

theorem edge_iff' {b : BitVec 64} (hv : v.Ok) :
    varBGt v b (varReprMin v) = false ↔ varOrd v b ≤ v.bot := by
  rw [← Bool.not_eq_true,varBGt_iff,varOrd_reprMin hv.pos hv.le,not_lt]

section EnforceGt

variable {ylo : BitVec 64} (hx : x ∈ W) (hy : y ∈ W) (ht : Typed W vars₀ vars)

include hx hy ht

theorem enforceGt64_keeps (hσ : Inside W vars σ) (hlo : varOrd (vars₀ x) ylo < σ x)
    (hhi : σ y < (vars₀ y).readBy (vars x).most) :
    (enforceGt64 x y ylo).wp (Retained W vars₀ σ) vars := by
  have hxok := ht.ok x hx
  have hyok := ht.ok y hy
  obtain ⟨-,htop⟩ := hxok.inType (hσ.least x hx) (hσ.most x hx)
  obtain ⟨hbot,-⟩ := hyok.inType (hσ.least y hy) (hσ.most y hy)
  simp only [enforceGt64,Fire.wp]
  rw [if_neg (by rw [edge_iff hxok,(ht.same x).varOrd]; omega)]
  refine Fire.wp_tighten_exact ht hσ hx trivial ?_ fun vars' ht' hσ' _ hm _ => ?_
  · change varOrd (vars₀ x) (ylo+1#64) ≤ σ x
    rw [← (ht.same x).varOrd] at hlo ⊢
    rw [varOrd_succ hxok (by omega)]
    omega
  have hread : varOrd (vars y) (varHi64 (vars' x)) = (vars₀ y).readBy (vars x).most := by
    rw [varOrd_hi,(ht.same y).readBy,hm]
    rfl
  rw [if_pos rfl,Fire.wp,if_neg (by rw [edge_iff' hyok,hread]; omega)]
  refine wp_ub64 (ht.trans ht') hσ' hy ?_ fun vars₂ ht₂ hσ₂ => ⟨rfl,ht₂,hσ₂⟩
  rw [← (ht.same y).varOrd,varOrd_pred hyok (by omega)]
  omega

omit ht in
theorem enforceGt64_stays {E : PropResult → Prop} (h1 : E .ok) (h2 : E .conflict) :
    (enforceGt64 x y ylo).Stays W vars₀ E := by
  refine fun vx vy => .ite h2 (.need hx trivial fun vx => ?_)
  exact .ite h2 (.need hy trivial h1)

theorem enforceGt64_loses (hσ : Inside W vars σ)
    (h : σ x ≤ varOrd (vars₀ x) ylo ∨ (vars₀ y).readBy (vars x).most ≤ σ y) :
    (enforceGt64 x y ylo).wp (Lost W σ) vars := by
  have hxok := ht.ok x hx
  have hyok := ht.ok y hy
  simp only [enforceGt64,Fire.wp]
  by_cases hedge : varBLt (vars x) ylo (varReprMax (vars x)) = false
  · rw [if_pos hedge]
    exact .inl rfl
  rw [if_neg hedge]
  rw [edge_iff hxok,(ht.same x).varOrd,not_le] at hedge
  have hsucc : varOrd (vars₀ x) (ylo+1#64) = varOrd (vars₀ x) ylo+1 := by
    rw [← (ht.same x).varOrd] at hedge ⊢
    rw [varOrd_succ hxok hedge,(ht.same x).varOrd]
  by_cases hlo : σ x ≤ varOrd (vars₀ x) ylo
  · refine Fire.wp_need_out (E:=fun _ => True) ht hx trivial ?_ fun _ => .ite trivial
      (.need hy trivial trivial)
    change σ x < varOrd (vars₀ x) (ylo+1#64)
    omega
  refine Fire.wp_tighten_exact ht hσ hx trivial ?_ fun vars' ht' hσ' _ hm _ => ?_
  · change varOrd (vars₀ x) (ylo+1#64) ≤ σ x
    omega
  have hread : varOrd (vars₀ y) (varHi64 (vars' x)) = (vars₀ y).readBy (vars x).most := by
    rw [varOrd_hi,hm]
    rfl
  rw [if_pos rfl,Fire.wp]
  by_cases hedge' : varBGt (vars y) (varHi64 (vars' x)) (varReprMin (vars y)) = false
  · rw [if_pos hedge']
    exact .inl rfl
  rw [if_neg hedge']
  rw [edge_iff' hyok,not_le] at hedge'
  refine Fire.wp_need_out (E:=fun _ => True) (ht.trans ht') hy trivial ?_ trivial
  change varOrd (vars₀ y) (varHi64 (vars' x)-1#64) < σ y
  rw [← (ht.same y).varOrd,varOrd_pred hyok hedge',(ht.same y).varOrd]
  omega

theorem enforceGt64_refutes (hp : Pinned W vars σ)
    (h : σ x ≤ varOrd (vars₀ x) ylo ∨ (vars₀ y).readBy (vars x).most ≤ σ y) :
    (enforceGt64 x y ylo).wp (fun r _ => r = .conflict) vars := by
  have hxok := ht.ok x hx
  have hyok := ht.ok y hy
  simp only [enforceGt64,Fire.wp]
  by_cases hedge : varBLt (vars x) ylo (varReprMax (vars x)) = false
  · rw [if_pos hedge]
    rfl
  rw [if_neg hedge]
  rw [edge_iff hxok,not_le] at hedge
  refine wp_need_pinned ht hp hx trivial (fun _ => rfl) fun hin vars' ht' hp' => ?_
  have hlo : varOrd (vars₀ x) ylo+1 ≤ σ x := by
    rw [← (ht.same x).varOrd,← varOrd_succ hxok hedge,(ht.same x).varOrd]
    exact hin
  have hread : varOrd (vars₀ y) (varHi64 (vars' x)) = (vars₀ y).readBy (vars x).most := by
    rw [varOrd_hi,hp'.most x hx,hp.most x hx]
  rw [Fire.wp]
  by_cases hedge' : varBGt (vars y) (varHi64 (vars' x)) (varReprMin (vars y)) = false
  · rw [if_pos hedge']
    rfl
  rw [if_neg hedge']
  rw [edge_iff' hyok,not_le] at hedge'
  refine wp_need_pinned ht' hp' hy trivial (fun _ => rfl) fun hin' _ _ _ => ?_
  have hhi : σ y ≤ varOrd (vars₀ y) (varHi64 (vars' x))-1 := by
    rw [← (ht.same y).varOrd,← varOrd_pred hyok hedge',(ht.same y).varOrd]
    exact hin'
  omega

end EnforceGt

theorem below_iff (v v' : Variable) :
    varBGt v (varHi64 v) (varLo64 v') = false ↔ v.most ≤ v.readBy v'.least := by
  rw [← Bool.not_eq_true,varBGt_iff,not_lt,varOrd_lo]
  rfl

theorem above_iff (v v' : Variable) :
    varBGt v (varLo64 v) (varHi64 v') = true ↔ v.readBy v'.most < v.least := by
  rw [varBGt_iff,varOrd_hi]
  rfl

theorem LeAdmits.self (h : Reified g x x vars) (hσ : Inside [g,x,x] vars σ) :
    if σ g = 1 then LeAdmits g x x vars σ else Pinned [g,x,x] vars σ → ¬LeAdmits g x x vars σ := by
  have h1 := hσ.least g (by simp)
  have h2 := hσ.most g (by simp)
  have h3 := hσ.least x (by simp)
  have h4 := hσ.most x (by simp)
  have hlo : (vars x).readBy (vars x).least = (vars x).least := readBy_varOrd _ _ _
  have hhi : (vars x).readBy (vars x).most = (vars x).most := readBy_varOrd _ _ _
  have := h.low
  have := h.high
  rw [LeAdmits,hlo,hhi]
  by_cases hg : σ g = 1
  · rw [if_pos hg]
    split_ifs <;> omega
  · rw [if_neg hg]
    intro hp
    have p2 := hp.most g (by simp)
    have p3 := hp.least x (by simp)
    rw [if_neg (by omega),if_pos (by omega)]
    omega

theorem pinGuard64_stays {E : PropResult → Prop} {xlo xhi ylo yhi : BitVec 64} (hg : g ∈ W)
    (h1 : E .ok) : (pinGuard64 g v xlo xhi ylo yhi).Stays W vars₀ E :=
  fun _ => .ite (.ite (.need hg trivial h1) (.ite (.need hg trivial h1) h1)) h1

theorem fireReification64_stays :
    (fireReification64 g x y).Stays [g,x,y] vars (· ≠ .entailed) := by
  have hok : (Fire.done .ok).Stays [g,x,y] vars (· ≠ .entailed) := by simp [Fire.Stays]
  have hc : (Fire.done .conflict).Stays [g,x,y] vars (· ≠ .entailed) := by simp [Fire.Stays]
  refine fun vx vy vg => .ite (.ite hc (.ite ⟨by simp,trivial,rfl,hok⟩ hok)) (.when ?_ fun vg => ?_)
  · exact .need (by simp) trivial (.need (by simp) trivial hok)
  · exact .when (enforceGt64_stays (by simp) (by simp) hok hc) (pinGuard64_stays (by simp) hok)

theorem fireReification64_keeps (h : Reified g x y vars) (hσ : Inside [g,x,y] vars σ)
    (hA : LeAdmits g x y vars σ) (hxy : x = y → σ g = 1) :
    (fireReification64 g x y).wp (Retained [g,x,y] vars σ) vars := by
  have hlow := h.low
  have hhigh := h.high
  have h2 := hσ.most g (by simp)
  have hone : varOrd (vars g) 1#64 = 1 := varOrd_one _
  have hzero : varOrd (vars g) 0#64 = 0 := varOrd_zero _
  have hlo := h.lo_iff h.typed
  have hhi := h.hi_iff h.typed
  simp only [fireReification64,pinGuard64,Fire.wp]
  by_cases he : x = y
  · have hg := hxy he
    rw [if_pos he,if_neg (mt hhi.mp (by omega))]
    split_ifs
    · exact Fire.wp_tighten h.typed hσ (by simp) trivial (by change varOrd (vars g) 1#64 ≤ _; omega)
        fun _ ht hσ => ⟨rfl,ht,hσ⟩
    · exact ⟨rfl,h.typed,hσ⟩
  rw [if_neg he]
  unfold LeAdmits at hA
  split_ifs at hA with hg1 hg0
  · refine wp_when_kept h.typed hσ (fun _ => ?_) fun vars₁ ht₁ hσ₁ => ?_
    · refine wp_ub64 h.typed hσ (by simp) (by rw [varOrd_hi]; exact hA.1) fun _ ht hσ => ?_
      exact wp_lb64 ht hσ (by simp) (by rw [varOrd_lo]; exact hA.2) fun _ ht hσ => ⟨rfl,ht,hσ⟩
    have g1 := ht₁.least g
    have g2 := ht₁.most g
    have g3 := hσ₁.least g (by simp)
    have g4 := hσ₁.most g (by simp)
    have hhi₁ := h.hi_iff ht₁
    have hfix₁ := h.single_iff ht₁
    rw [Fire.wp,Fire.when,if_neg (mt hhi₁.mp (by omega)),Fire.wp,if_neg (not_not.mpr (hfix₁.mpr (by omega)))]
    exact ⟨rfl,ht₁,hσ₁⟩
  · rw [Fire.when,if_neg (mt hlo.mp hg1),Fire.wp]
    refine wp_when_kept h.typed hσ (fun _ => ?_) fun vars₁ ht₁ hσ₁ => ?_
    · exact enforceGt64_keeps (by simp) (by simp) h.typed hσ (by rw [varOrd_lo]; exact hA.1) hA.2
    have g1 := ht₁.least g
    have g2 := ht₁.most g
    have g3 := hσ₁.least g (by simp)
    have g4 := hσ₁.most g (by simp)
    have hfix₁ := h.single_iff ht₁
    rw [Fire.wp,if_neg (not_not.mpr (hfix₁.mpr (by omega)))]
    exact ⟨rfl,ht₁,hσ₁⟩
  · have hfix := h.single_iff h.typed
    rw [Fire.when,if_neg (mt hlo.mp hg1),Fire.wp,Fire.when,if_neg (mt hhi.mp hg0),Fire.wp,
      if_pos (mt hfix.mp (by omega))]
    by_cases hb : varBGt (vars x) (varHi64 (vars x)) (varLo64 (vars y)) = false
    · rw [if_pos hb]
      have := hA.1 ((below_iff _ _).mp hb)
      exact wp_lb64 h.typed hσ (by simp) (by omega) fun _ ht hσ => ⟨rfl,ht,hσ⟩
    rw [if_neg hb]
    rw [below_iff,not_le] at hb
    split_ifs with ha
    · have := hA.2 hb ((above_iff _ _).mp ha)
      exact wp_ub64 h.typed hσ (by simp) (by omega) fun _ ht hσ => ⟨rfl,ht,hσ⟩
    · exact ⟨rfl,h.typed,hσ⟩

theorem fireReification64_loses (h : Reified g x y vars) (hσ : Inside [g,x,y] vars σ)
    (hA : ¬LeAdmits g x y vars σ) (hxy : x = y → σ g = 1) :
    (fireReification64 g x y).wp (Lost [g,x,y] σ) vars := by
  have hlow := h.low
  have hhigh := h.high
  have h1 := hσ.least g (by simp)
  have h2 := hσ.most g (by simp)
  have hone : varOrd (vars g) 1#64 = 1 := varOrd_one _
  have hzero : varOrd (vars g) 0#64 = 0 := varOrd_zero _
  have hlo := h.lo_iff h.typed
  have hhi := h.hi_iff h.typed
  have hdone : (Fire.done .ok).Stays [g,x,y] vars fun _ => True := trivial
  have hgt : (enforceGt64 x y (varLo64 (vars y))).Stays [g,x,y] vars fun _ => True :=
    enforceGt64_stays (by simp) (by simp) trivial trivial
  simp only [fireReification64,Fire.wp]
  by_cases he : x = y
  · subst he
    have hself := LeAdmits.self h hσ
    rw [if_pos (hxy rfl)] at hself
    exact absurd hself hA
  rw [if_neg he]
  have hend : (pinGuard64 g (vars x) (varLo64 (vars x)) (varHi64 (vars x)) (varLo64 (vars y))
      (varHi64 (vars y))).Stays [g,x,y] vars fun _ => True :=
    pinGuard64_stays (by simp) trivial
  unfold LeAdmits at hA
  split_ifs at hA with hg1 hg0
  · rw [Fire.when,if_pos (hlo.mpr hg1)]
    refine Fire.Stays.andThen_lost (.need (by simp) trivial (.need (by simp) trivial hdone))
      (fun vg => .when hgt hend) h.typed ?_
    by_cases hle : σ x ≤ (vars x).readBy (vars y).most
    · refine wp_ub64 h.typed hσ (by simp) (by rw [varOrd_hi]; exact hle) fun _ ht hσ => ?_
      refine Fire.wp_need_out ht (by simp) trivial ?_ hdone
      change σ y < varOrd (vars y) (varLo64 (vars x))
      rw [varOrd_lo]
      omega
    · refine Fire.wp_need_out h.typed (by simp) trivial ?_ (.need (by simp) trivial hdone)
      change varOrd (vars x) (varHi64 (vars y)) < σ x
      rw [varOrd_hi]
      omega
  · rw [Fire.when,if_neg (mt hlo.mp hg1),Fire.wp,Fire.when,if_pos (hhi.mpr hg0)]
    refine Fire.Stays.andThen_lost hgt hend h.typed ?_
    exact enforceGt64_loses (by simp) (by simp) h.typed hσ (by rw [varOrd_lo]; omega)
  · have hfix := h.single_iff h.typed
    rw [Fire.when,if_neg (mt hlo.mp hg1),Fire.wp,Fire.when,if_neg (mt hhi.mp hg0),pinGuard64,Fire.wp,
      if_pos (mt hfix.mp (by omega))]
    by_cases hb : varBGt (vars x) (varHi64 (vars x)) (varLo64 (vars y)) = false
    · rw [if_pos hb]
      rw [below_iff] at hb
      exact Fire.wp_need_out h.typed (by simp) trivial (by change σ g < varOrd (vars g) 1#64; omega)
        hdone
    rw [if_neg hb]
    rw [below_iff,not_le] at hb
    by_cases ha : varBGt (vars x) (varLo64 (vars x)) (varHi64 (vars y)) = true
    · rw [if_pos ha]
      exact Fire.wp_need_out h.typed (by simp) trivial (by change varOrd (vars g) 0#64 < σ g; omega)
        hdone
    · rw [above_iff] at ha
      omega

theorem fireReification64_refutes (h : Reified g x y vars) (hp : Pinned [g,x,y] vars σ)
    (hA : ¬LeAdmits g x y vars σ) (hxy : x = y → σ g = 0) :
    (fireReification64 g x y).wp (fun r _ => r = .conflict) vars := by
  have hlow := h.low
  have hhigh := h.high
  have g1 := hp.least g (by simp)
  have g2 := hp.most g (by simp)
  have hlo := h.lo_iff h.typed
  have hhi := h.hi_iff h.typed
  simp only [fireReification64,Fire.wp]
  by_cases he : x = y
  · have := hxy he
    rw [if_pos he,if_pos (hhi.mpr (by omega))]
    rfl
  rw [if_neg he]
  unfold LeAdmits at hA
  split_ifs at hA with hg1 hg0
  · rw [Fire.when,if_pos (hlo.mpr hg1)]
    refine Fire.wp_andThen_conflict ?_
    refine wp_need_pinned h.typed hp (by simp) trivial (fun _ => rfl) fun hin _ ht hp => ?_
    refine wp_need_pinned ht hp (by simp) trivial (fun _ => rfl) fun hin' _ _ _ => ?_
    have hle : σ x ≤ varOrd (vars x) (varHi64 (vars y)) := hin
    have hge : varOrd (vars y) (varLo64 (vars x)) ≤ σ y := hin'
    rw [varOrd_hi] at hle
    rw [varOrd_lo] at hge
    exact absurd ⟨hle,hge⟩ hA
  · rw [Fire.when,if_neg (mt hlo.mp hg1),Fire.wp,Fire.when,if_pos (hhi.mpr hg0)]
    exact Fire.wp_andThen_conflict <|
      enforceGt64_refutes (by simp) (by simp) h.typed hp (by rw [varOrd_lo]; omega)
  · omega

/-- The fire complies exactly when the bounds read in the other order admit the solutions and
no fixed variables outside the relation. -/
theorem fireReification64_complies (h : Reified g x y s.ctx.vars) :
    Complies [g,x,y] (LeRel g x y) (fireReification64 g x y) s ↔
      (∀ σ, Inside [g,x,y] s.ctx.vars σ → LeRel g x y σ → LeAdmits g x y s.ctx.vars σ) ∧
      ∀ σ, Inside [g,x,y] s.ctx.vars σ → ¬LeRel g x y σ →
        ¬(Pinned [g,x,y] s.ctx.vars σ ∧ LeAdmits g x y s.ctx.vars σ) := by
  have hself : ∀ {σ}, LeRel g x y σ → x = y → σ g = 1 := fun hR he => hR.mpr (he ▸ le_rfl)
  have hother : ∀ {σ}, Inside [g,x,y] s.ctx.vars σ → ¬LeRel g x y σ → x = y → σ g = 0 :=
    fun hσ hR he => (h.guard hσ).resolve_right fun h1 => hR ⟨fun _ => he ▸ le_rfl,fun _ => h1⟩
  refine Complies.iff (fun σ hσ hR hA => ?_) (fun σ hσ hR hA => ?_) (fun σ hp hR hM => ?_)
    (fun σ hσ hR hM => ?_) fun _ => ?_
  · exact wp_mono (fun _ _ => Retained.keeps) (fireReification64_keeps h hσ hA (hself hR))
  · exact fireReification64_loses h hσ hA (hself hR)
  · exact fireReification64_refutes h hp (fun hA => hM ⟨hp,hA⟩) (hother hp.inside hR)
  · obtain ⟨hp,hA⟩ := hM
    refine wp_mono (fun _ _ hk => ⟨hk.keeps.1,.inl hp⟩) (fireReification64_keeps h hσ hA fun he => ?_)
    subst he
    have hzero := hother hσ hR rfl
    have hself := LeAdmits.self h hσ
    rw [if_neg (by omega)] at hself
    exact absurd hA (hself hp)
  · refine wp_mono (fun r vars' hq he => ?_) (fireReification64_stays.wp h.typed)
    rcases hq with hq | hq
    · simp [hq] at he
    · exact absurd he hq.1

end Order

theorem word_cases (b : BitVec 64) :
    b.toInt = b.toNat ∧ b.toNat < 2^63 ∨ b.toInt = b.toNat-2^64 ∧ 2^63 ≤ b.toNat ∧ b.toNat < 2^64 := by
  rw [BitVec.toInt_eq_toNat_cond]
  split_ifs <;> omega

section Words

variable {vx vy : Variable} {xlo xhi ylo yhi : BitVec 64} {n : ℤ}

/-- The bounds met in the order of `x` hold of `y` too, for a number they admit. -/
theorem varOrd_meet (h1 : varOrd vx xlo ≤ n) (h2 : n ≤ varOrd vx xhi) (h3 : varOrd vy ylo ≤ n)
    (h4 : n ≤ varOrd vy yhi) (h5 : varOrd vx ylo ≤ n) (h6 : n ≤ varOrd vx yhi) :
    varOrd vy (Dist.varBMax vx xlo ylo) ≤ n ∧ n ≤ varOrd vy (Dist.varBMin vx xhi yhi) := by
  have w1 := word_cases xlo
  have w2 := word_cases xhi
  have w3 := word_cases ylo
  have w4 := word_cases yhi
  unfold Dist.varBMax Dist.varBMin
  simp only [Solver.varBLt_iff]
  cases hx : vx.beyond <;> cases hy : vy.beyond
  all_goals
    simp only [varOrd_plain,varOrd_beyond,hx,hy] at h1 h2 h3 h4 h5 h6
    refine ⟨?_,?_⟩ <;> split_ifs with hc <;> simp only [varOrd_plain,varOrd_beyond,hx,hy] at hc ⊢ <;>
      omega

theorem varOrd_read {b : BitVec 64} (h3 : varOrd vy ylo ≤ n) (h4 : n ≤ varOrd vy b)
    (h5 : varOrd vy b ≤ varOrd vy yhi) (h6 : n ≤ varOrd vx yhi) : n ≤ varOrd vx b := by
  have w4 := word_cases yhi
  have w5 := word_cases b
  cases hx : vx.beyond <;> cases hy : vy.beyond
  all_goals
    simp only [varOrd_plain,varOrd_beyond,hx,hy] at h3 h4 h5 h6 ⊢
    omega

theorem varOrd_read' {b : BitVec 64} (h3 : n ≤ varOrd vy yhi) (h4 : varOrd vy b ≤ n)
    (h5 : varOrd vy ylo ≤ varOrd vy b) (h6 : varOrd vx ylo ≤ n) (h7 : 0 ≤ n ∨ vx.beyond = vy.beyond) :
    varOrd vx b ≤ n := by
  have w3 := word_cases ylo
  have w4 := word_cases yhi
  have w5 := word_cases b
  cases hx : vx.beyond <;> cases hy : vy.beyond
  all_goals
    simp only [varOrd_plain,varOrd_beyond,hx,hy] at h3 h4 h5 h6 h7 ⊢
    omega

end Words

section Meet

variable {x y : ℕ} {E : PropResult → Prop}

def meetOf (x y : ℕ) (vars₀ : ℕ → Variable) : Fire :=
  meet64 (vars₀ x) x y (varLo64 (vars₀ x)) (varHi64 (vars₀ x)) (varLo64 (vars₀ y)) (varHi64 (vars₀ y))

/-- The bounds of `y` in the order of `x` admit `n`. -/
def Met (x y : ℕ) (vars : ℕ → Variable) (n : ℤ) : Prop :=
  (vars x).readBy (vars y).least ≤ n ∧ n ≤ (vars x).readBy (vars y).most

variable (hx : x ∈ W) (hy : y ∈ W)

include hx hy

theorem meetOf_stays (h1 : E .ok) (h2 : E .conflict) : (meetOf x y vars₀).Stays W vars₀ E :=
  .ite h2 (.between hx (.between hy h1))

variable (ht : Typed W vars₀ vars) (hσ : Inside W vars σ)

include ht hσ

theorem meetOf_keeps (he : σ x = σ y) (hm : Met x y vars₀ (σ x)) :
    (meetOf x y vars₀).wp (Retained W vars₀ σ) vars := by
  have hσ₀ := ht.inside hσ
  obtain ⟨m1,m2⟩ := hm
  rw [← varOrd_lo] at m1
  rw [← varOrd_hi] at m2
  have x1 : varOrd (vars₀ x) (varLo64 (vars₀ x)) ≤ σ x := hσ₀.least x hx
  have x2 : σ x ≤ varOrd (vars₀ x) (varHi64 (vars₀ x)) := hσ₀.most x hx
  have y1 : varOrd (vars₀ y) (varLo64 (vars₀ y)) ≤ σ x := he ▸ hσ₀.least y hy
  have y2 : σ x ≤ varOrd (vars₀ y) (varHi64 (vars₀ y)) := he ▸ hσ₀.most y hy
  have hlo := varOrd_bMax (vars₀ x) (varLo64 (vars₀ x)) (varLo64 (vars₀ y))
  have hhi := varOrd_bMin (vars₀ x) (varHi64 (vars₀ x)) (varHi64 (vars₀ y))
  obtain ⟨b1,b2⟩ := varOrd_meet x1 x2 y1 y2 m1 m2
  rw [meetOf,meet64,if_neg (by rw [varBGt_iff]; omega)]
  refine Fire.wp_between ht hσ hx (by omega) (by omega) fun _ ht hσ => ?_
  exact Fire.wp_between ht hσ hy (he ▸ b1) (he ▸ b2) fun _ ht hσ => ⟨rfl,ht,hσ⟩

theorem meetOf_loses (hm : ¬Met x y vars₀ (σ x)) : (meetOf x y vars₀).wp (Lost W σ) vars := by
  rw [Met,← varOrd_lo,← varOrd_hi] at hm
  have hlo := varOrd_bMax (vars₀ x) (varLo64 (vars₀ x)) (varLo64 (vars₀ y))
  have hhi := varOrd_bMin (vars₀ x) (varHi64 (vars₀ x)) (varHi64 (vars₀ y))
  have hdone : (Fire.done .ok).Stays W vars₀ fun _ => True := trivial
  unfold meetOf meet64
  dsimp only
  split_ifs with hc
  · exact .inl rfl
  rw [varBGt_iff,not_lt] at hc
  by_cases hn : varOrd (vars₀ x) (varLo64 (vars₀ y)) ≤ σ x
  · refine wp_lb64 ht hσ hx (by omega) fun _ ht hσ => ?_
    refine Fire.wp_need_out ht hx trivial ?_ (.between hy hdone)
    change varOrd (vars₀ x) _ < σ x
    omega
  · refine Fire.wp_need_out ht hx trivial ?_ (.need hx trivial (.between hy hdone))
    change σ x < varOrd (vars₀ x) _
    omega

/-- Where the bounds meet in one pattern, which is that of both numbers, they are left with it. -/
theorem meetOf_meets
    (hlo : max (vars₀ x).least ((vars₀ x).readBy (vars₀ y).least) = σ x)
    (hhi : min (vars₀ x).most ((vars₀ x).readBy (vars₀ y).most) = σ x)
    (he : SamePattern (σ x) (σ y)) :
    (meetOf x y vars₀).wp (fun r vars' => Retained W vars₀ σ r vars' ∧
      (σ x ≤ (vars' x).least ∧ (vars' x).most ≤ σ x) ∧ σ y ≤ (vars' y).least ∧ (vars' y).most ≤ σ y)
      vars := by
  have hx0 := hσ.readBy ht hx
  have hy0 := hσ.readBy ht hy
  rw [he.readBy] at hx0
  have hl := varOrd_bMax (vars₀ x) (varLo64 (vars₀ x)) (varLo64 (vars₀ y))
  have hh := varOrd_bMin (vars₀ x) (varHi64 (vars₀ x)) (varHi64 (vars₀ y))
  rw [varOrd_lo _ (vars₀ y)] at hl
  rw [varOrd_hi _ (vars₀ y)] at hh
  have hl := hl.trans hlo
  have hh := hh.trans hhi
  have hlw := varOrd_inj (hl.trans hx0.symm)
  have hhw := varOrd_inj (hh.trans hx0.symm)
  have hyl : varOrd (vars₀ y) (Dist.varBMax (vars₀ x) (varLo64 (vars₀ x)) (varLo64 (vars₀ y))) = σ y := by
    rw [hlw]
    exact hy0
  have hyh : varOrd (vars₀ y) (Dist.varBMin (vars₀ x) (varHi64 (vars₀ x)) (varHi64 (vars₀ y))) = σ y := by
    rw [hhw]
    exact hy0
  rw [meetOf,meet64,if_neg (by rw [varBGt_iff]; omega)]
  refine Fire.wp_between_moved ht hσ hx (by omega) (by omega) fun vars₁ ht₁ hσ₁ hl₁ hh₁ => ?_
  have hsame := (ht₁.same y).varOrd
  refine Fire.wp_between_moved (.refl ht₁.ok) hσ₁ hy (by rw [hsame]; omega) (by rw [hsame]; omega)
    fun vars₂ ht₂ hσ₂ hl₂ hh₂ => ⟨⟨rfl,ht₁.trans ht₂,hσ₂⟩,⟨?_,?_⟩,?_,?_⟩
  · exact (hl ▸ hl₁).trans (ht₂.least x)
  · exact (ht₂.most x).trans (hh ▸ hh₁)
  · rw [← hyl,← hsame]
    exact hl₂
  · rw [← hyh,← hsame]
    exact hh₂

omit ht hσ in
theorem meetOf_refutes (hok : ∀ v ∈ W, (vars₀ v).Ok) (hp : Pinned W vars₀ σ)
    (he : ¬SamePattern (σ x) (σ y)) : meetOf x y vars₀ = .done .conflict := by
  have hne : (vars₀ x).readBy (σ y) ≠ σ x := fun hc => he <| samePattern_of_readBy <|
    (hp.inside.readBy (.refl hok) hx).trans hc.symm
  have hl := varOrd_bMax (vars₀ x) (varLo64 (vars₀ x)) (varLo64 (vars₀ y))
  have hh := varOrd_bMin (vars₀ x) (varHi64 (vars₀ x)) (varHi64 (vars₀ y))
  have x1 : varOrd (vars₀ x) (varLo64 (vars₀ x)) = σ x := hp.least x hx
  have x2 : varOrd (vars₀ x) (varHi64 (vars₀ x)) = σ x := hp.most x hx
  rw [varOrd_lo _ (vars₀ y),hp.least y hy] at hl
  rw [varOrd_hi _ (vars₀ y),hp.most y hy] at hh
  rw [meetOf,meet64,if_pos (by rw [varBGt_iff]; omega)]

end Meet

def EqRel (g x y : ℕ) (σ : ℕ → ℤ) : Prop := σ g = 1 ↔ σ x = σ y

/-- Two fixed variables, or one and an end of the other, have one pattern. -/
def AtEnd (x y : ℕ) (vars : ℕ → Variable) (σ : ℕ → ℤ) : Prop :=
  SamePattern (σ x) (σ y) ∧
    ((vars x).least = (vars x).most ∧ (σ y = (vars y).least ∨ σ y = (vars y).most) ∨
      (vars y).least = (vars y).most ∧ (σ x = (vars x).least ∨ σ x = (vars x).most))

/-- What the bounds of `x` and `y` admit when each is read in the order of `x`. -/
def EqAdmits (g x y : ℕ) (vars : ℕ → Variable) (σ : ℕ → ℤ) : Prop :=
  if (vars g).least = 1 then Met x y vars (σ x)
  else if (vars g).most = 0 then ¬AtEnd x y vars σ
  else
    ((vars x).least = (vars x).most → (vars y).least = (vars y).most →
      SamePattern (vars x).least (vars y).least → σ g = 1) ∧
    ((vars x).readBy (vars y).most < (vars x).least ∨ (vars x).most < (vars x).readBy (vars y).least →
      σ g = 0)

section Equality

variable {g x y : ℕ}

theorem lo_eq_ofInt (v : Variable) : varLo64 v = ofInt 64 v.least := (ofInt_varOrd v _).symm

theorem hi_eq_ofInt (v : Variable) : varHi64 v = ofInt 64 v.most := (ofInt_varOrd v _).symm

theorem exclude64_stays {E : PropResult → Prop} {n ylo yhi : BitVec 64} (hy : y ∈ W) (h : E .ok) :
    (exclude64 y n ylo yhi).Stays W vars₀ E :=
  .ite (.need hy trivial h) (.ite (.need hy trivial h) h)

section Exclude

variable {n : ℤ} (hy : y ∈ W) (ht : Typed W vars₀ vars) (hσ : Inside W vars σ)

include hy ht hσ

theorem exclude64_keeps
    (h : SamePattern n (σ y) → σ y ≠ (vars₀ y).least ∧ σ y ≠ (vars₀ y).most) :
    (exclude64 y (ofInt 64 n) (varLo64 (vars₀ y)) (varHi64 (vars₀ y))).wp
      (Retained W vars₀ σ) vars := by
  have hv := ht.ok y hy
  have h1 := ht.least y
  have h2 := ht.most y
  have h3 := hσ.least y hy
  have h4 := hσ.most y hy
  obtain ⟨hbot,htop⟩ := hv.inType h3 h4
  unfold exclude64
  split_ifs with hlo hhi
  · have hn : varOrd (vars y) (ofInt 64 n) = (vars₀ y).least := by
      rw [(ht.same y).varOrd,← hlo]
      rfl
    have hne : σ y ≠ (vars₀ y).least := fun hc => (h (by
      rw [SamePattern,← hlo,lo_eq_ofInt,hc])).1 hc
    refine wp_lb64 ht hσ hy ?_ fun _ ht hσ => ⟨rfl,ht,hσ⟩
    rw [← (ht.same y).varOrd,varOrd_succ hv (by omega)]
    omega
  · have hn : varOrd (vars y) (ofInt 64 n) = (vars₀ y).most := by
      rw [(ht.same y).varOrd,← hhi]
      rfl
    have hne : σ y ≠ (vars₀ y).most := fun hc => (h (by
      rw [SamePattern,← hhi,hi_eq_ofInt,hc])).2 hc
    refine wp_ub64 ht hσ hy ?_ fun _ ht hσ => ⟨rfl,ht,hσ⟩
    rw [← (ht.same y).varOrd,varOrd_pred hv (by omega)]
    omega
  · exact ⟨rfl,ht,hσ⟩

theorem exclude64_word (hn : SamePattern n (σ y)) :
    varOrd (vars₀ y) (ofInt 64 n) = σ y := by
  rw [← hσ.readBy ht hy,← hn.readBy]
  rfl

theorem exclude64_loses (hok : (vars₀ y).Ok) (hn : SamePattern n (σ y))
    (h : σ y = (vars₀ y).least ∨ σ y = (vars₀ y).most) (hne : (vars₀ y).least ≠ (vars₀ y).most) :
    (exclude64 y (ofInt 64 n) (varLo64 (vars₀ y)) (varHi64 (vars₀ y))).wp (Lost W σ) vars := by
  have hw := exclude64_word hy ht hσ hn
  have h1 := ht.least y
  have h2 := ht.most y
  have h3 := hσ.least y hy
  have h4 := hσ.most y hy
  have hbot := hok.bot
  have htop := hok.top
  have hdone : (Fire.done .ok).Stays W vars₀ fun _ => True := trivial
  rw [exclude64,lo_eq_ofInt,hi_eq_ofInt]
  by_cases hl : σ y = (vars₀ y).least
  · rw [if_pos (by rw [hn,hl])]
    refine Fire.wp_need_out ht hy trivial ?_ hdone
    change σ y < varOrd (vars₀ y) _
    rw [varOrd_succ hok (by omega)]
    omega
  · have hh := h.resolve_left hl
    rw [if_neg (fun hc => hl ?_),if_pos (by rw [hn,hh])]
    · refine Fire.wp_need_out ht hy trivial ?_ hdone
      change varOrd (vars₀ y) _ < σ y
      rw [varOrd_pred hok (by omega)]
      omega
    · rw [← hw,← hc,← lo_eq_ofInt]
      rfl

theorem exclude64_idle (hn : SamePattern n (σ y)) (h1 : σ y ≠ (vars₀ y).least)
    (h2 : σ y ≠ (vars₀ y).most) :
    exclude64 y (ofInt 64 n) (varLo64 (vars₀ y)) (varHi64 (vars₀ y)) = .done .ok := by
  have hw := exclude64_word hy ht hσ hn
  rw [exclude64,if_neg fun hc => h1 ?_,if_neg fun hc => h2 ?_]
  · rw [← hw,← hc]
    rfl
  · rw [← hw,← hc]
    rfl

end Exclude

theorem enforceNe64_stays {E : PropResult → Prop} {xlo xhi ylo yhi : BitVec 64} (hx : x ∈ W)
    (hy : y ∈ W) (h : E .ok) (h' : E .conflict) : (enforceNe64 x y xlo xhi ylo yhi).Stays W vars₀ E :=
  .ite h' (.when (exclude64_stays hy h) (.when (exclude64_stays hx h) h))

/-- `enforceNe64` of the bounds in `vars`. -/
def neOf (x y : ℕ) (vars : ℕ → Variable) : Fire :=
  enforceNe64 x y (varLo64 (vars x)) (varHi64 (vars x)) (varLo64 (vars y)) (varHi64 (vars y))

theorem single_iff (v : Variable) : varLo64 v = varHi64 v ↔ v.least = v.most := by
  constructor
  · intro h
    rw [Variable.least,h]
    rfl
  · intro h
    rw [lo_eq_ofInt,hi_eq_ofInt,h]

/-- The numbers of two domains that are one pattern. -/
theorem all_one_iff (v v' : Variable) :
    (varLo64 v = varHi64 v ∧ varLo64 v' = varLo64 v ∧ varHi64 v' = varHi64 v) ↔
      v.least = v.most ∧ v'.least = v'.most ∧ SamePattern v.least v'.least := by
  rw [← single_iff,← single_iff,SamePattern,← lo_eq_ofInt,← lo_eq_ofInt]
  constructor
  · rintro ⟨h1,h2,h3⟩
    exact ⟨h1,by rw [h2,h3,h1],h2.symm⟩
  · rintro ⟨h1,h2,h3⟩
    exact ⟨h1,h3.symm,by rw [← h2,← h3,h1]⟩

section NotEqual

variable (hx : x ∈ W) (hy : y ∈ W) (hok : ∀ v ∈ W, (vars v).Ok) (hσ : Inside W vars σ)

include hx hy hok hσ

/-- An assignment that is at no end is kept, and with one pattern nothing happens at all. -/
theorem neOf_keeps (h : ¬AtEnd x y vars σ) :
    (neOf x y vars).wp (fun r vars' => Retained W vars σ r vars' ∧
      (SamePattern (σ x) (σ y) → vars' = vars)) vars := by
  have ht : Typed W vars vars := .refl hok
  have x1 := hσ.least x hx
  have x2 := hσ.most x hx
  have y1 := hσ.least y hy
  have y2 := hσ.most y hy
  have hxn : varLo64 (vars x) = varHi64 (vars x) → varLo64 (vars x) = ofInt 64 (σ x) := fun hc => by
    have := (single_iff _).mp hc
    rw [lo_eq_ofInt,show (vars x).least = σ x by omega]
  have hyn : varLo64 (vars y) = varHi64 (vars y) → varLo64 (vars y) = ofInt 64 (σ y) := fun hc => by
    have := (single_iff _).mp hc
    rw [lo_eq_ofInt,show (vars y).least = σ y by omega]
  unfold neOf enforceNe64
  rw [if_neg fun hc => h ?_]
  swap
  · obtain ⟨h1,h2,h3⟩ := (all_one_iff _ _).mp hc
    rw [show (vars x).least = σ x by omega,show (vars y).least = σ y by omega] at h3
    exact ⟨h3,.inl ⟨h1,.inl (by omega)⟩⟩
  by_cases htw : SamePattern (σ x) (σ y)
  · have hidle : Fire.when (varLo64 (vars y) = varHi64 (vars y))
        (exclude64 x (varLo64 (vars y)) (varLo64 (vars x)) (varHi64 (vars x))) (.done .ok) =
          .done .ok := by
      unfold Fire.when
      split_ifs with hc
      · have hfix := (single_iff _).mp hc
        rw [hyn hc,exclude64_idle hx ht hσ htw.symm (fun he => h ⟨htw,.inr ⟨hfix,.inl he⟩⟩)
          (fun he => h ⟨htw,.inr ⟨hfix,.inr he⟩⟩)]
        rfl
      · rfl
    rw [hidle,Fire.when]
    split_ifs with hc
    · have hfix := (single_iff _).mp hc
      rw [hxn hc,exclude64_idle hy ht hσ htw (fun he => h ⟨htw,.inl ⟨hfix,.inl he⟩⟩)
        (fun he => h ⟨htw,.inl ⟨hfix,.inr he⟩⟩)]
      exact ⟨⟨rfl,ht,hσ⟩,fun _ => rfl⟩
    · exact ⟨⟨rfl,ht,hσ⟩,fun _ => rfl⟩
  · refine wp_when_kept ht hσ (fun hc => ?_) fun vars₁ ht₁ hσ₁ => ?_
    · rw [hxn hc]
      exact exclude64_keeps hy ht hσ fun hs => absurd hs htw
    refine wp_when_kept ht₁ hσ₁ (fun hc => ?_) fun vars₂ ht₂ hσ₂ =>
      ⟨⟨rfl,ht₂,hσ₂⟩,fun hs => absurd hs htw⟩
    rw [hyn hc]
    exact exclude64_keeps hx ht₁ hσ₁ fun hs => absurd hs.symm htw

theorem neOf_loses (h : AtEnd x y vars σ) : (neOf x y vars).wp (Lost W σ) vars := by
  have ht : Typed W vars vars := .refl hok
  have x1 := hσ.least x hx
  have x2 := hσ.most x hx
  have y1 := hσ.least y hy
  have y2 := hσ.most y hy
  obtain ⟨htw,hend⟩ := h
  have hdone : (Fire.done .ok).Stays W vars fun _ => True := trivial
  unfold neOf enforceNe64
  by_cases hall : varLo64 (vars x) = varHi64 (vars x) ∧ varLo64 (vars y) = varLo64 (vars x) ∧
      varHi64 (vars y) = varHi64 (vars x)
  · rw [if_pos hall]
    exact .inl rfl
  rw [if_neg hall]
  rw [all_one_iff] at hall
  by_cases hfx : (vars x).least = (vars x).most
  · have hx0 : (vars x).least = σ x := by omega
    have hny : (vars y).least ≠ (vars y).most := fun hfy => hall ⟨hfx,hfy,by
      rw [hx0,show (vars y).least = σ y by omega]
      exact htw⟩
    rw [Fire.when,if_pos ((single_iff _).mpr hfx)]
    refine Fire.Stays.andThen_lost (exclude64_stays hy trivial)
      (.when (exclude64_stays hx trivial) hdone) ht ?_
    rw [lo_eq_ofInt (vars x),hx0]
    exact exclude64_loses hy ht hσ (hok y hy) htw (by omega) hny
  · obtain ⟨hfx',-⟩ | ⟨hfy,hend⟩ := hend
    · exact absurd hfx' hfx
    rw [Fire.when,if_neg (mt (single_iff _).mp hfx),Fire.when,if_pos ((single_iff _).mpr hfy)]
    refine Fire.Stays.andThen_lost (exclude64_stays hx trivial) hdone ht ?_
    rw [lo_eq_ofInt (vars y),show (vars y).least = σ y by omega]
    exact exclude64_loses hx ht hσ (hok x hx) htw.symm hend hfx

end NotEqual

theorem pinGuardEq64_keeps (hg : g ∈ W) (ht : Typed W vars₀ vars) (hσ : Inside W vars σ)
    (h1 : (vars x).least = (vars x).most → (vars y).least = (vars y).most →
      SamePattern (vars x).least (vars y).least → σ g = 1)
    (h0 : (vars x).readBy (vars y).most < (vars x).least ∨ (vars x).most < (vars x).readBy (vars y).least →
      σ g = 0) : (pinGuardEq64 g x y).wp (Retained W vars₀ σ) vars := by
  simp only [pinGuardEq64,Fire.wp]
  refine Fire.wp_when_need ht hσ hg trivial (fun hc => ?_) fun _ ht hσ => ?_
  · have := h1 ((single_iff _).mp hc.1) ((single_iff _).mp hc.2.1) (by
      rw [SamePattern,← lo_eq_ofInt,← lo_eq_ofInt]
      exact hc.2.2)
    change varOrd _ 1#64 ≤ σ g
    rw [varOrd_one]
    omega
  refine Fire.wp_when_need ht hσ hg trivial (fun hc => ?_) fun _ ht hσ => ⟨rfl,ht,hσ⟩
  have := h0 (hc.imp (above_iff _ _).mp fun hc => by
    rw [varBGt_iff,varOrd_lo] at hc
    exact hc)
  change σ g ≤ varOrd _ 0#64
  rw [varOrd_zero]
  omega

theorem pinGuardEq64_stays {E : PropResult → Prop} (hg : g ∈ W) (h : E .ok) :
    (pinGuardEq64 g x y).Stays W vars₀ E :=
  fun _ _ => .when (.need hg trivial h) (.when (.need hg trivial h) h)

theorem equalsItself_stays {E : PropResult → Prop} (hg : g ∈ W) (h : E .ok) (h' : E .conflict) :
    (equalsItself g).Stays W vars₀ E := fun _ => .ite h' ⟨hg,trivial,rfl,h⟩

theorem equalsItself_keeps (hg : g ∈ W) (ht : Typed W vars₀ vars) (hσ : Inside W vars σ)
    (h1 : σ g = 1) : (equalsItself g).wp (Retained W vars₀ σ) vars := by
  have hm := hσ.most g hg
  simp only [equalsItself,Fire.wp]
  rw [if_neg fun hc => ?_]
  · refine Fire.wp_tighten ht hσ hg trivial ?_ fun _ ht hσ => ⟨rfl,ht,hσ⟩
    change varOrd _ 1#64 ≤ σ g
    rw [varOrd_one]
    omega
  · rw [Variable.most,hc,varOrd_zero] at hm
    omega

/-- Bounds that admit an equal number overlap, as they are read, also after they moved. -/
theorem Met.overlap (hx : x ∈ W) (hy : y ∈ W) (hm : Met x y vars (σ x)) (he : σ x = σ y)
    (ht : Typed W vars vars') (hσ : Inside W vars' σ) :
    ¬((vars' x).readBy (vars' y).most < (vars' x).least ∨
      (vars' x).most < (vars' x).readBy (vars' y).least) := by
  have hσ₀ := ht.inside hσ
  obtain ⟨m1,m2⟩ := hm
  rw [← varOrd_lo] at m1
  rw [← varOrd_hi] at m2
  have x1 := hσ.least x hx
  have x2 := hσ.most x hx
  have y1 : varOrd (vars y) (varLo64 (vars y)) ≤ σ x := he ▸ hσ₀.least y hy
  have y2 : σ x ≤ varOrd (vars y) (varHi64 (vars y)) := he ▸ hσ₀.most y hy
  have hpos : 0 ≤ σ x ∨ (vars x).beyond = (vars y).beyond := by
    cases hbx : (vars x).beyond <;> cases hby : (vars y).beyond
    · exact .inr rfl
    · rw [varOrd_beyond hby] at y1
      exact .inl (by omega)
    · have := hσ₀.least x hx
      rw [Variable.least,varOrd_beyond hbx] at this
      exact .inl (by omega)
    · exact .inr rfl
  have b1 : varOrd (vars y) (varLo64 (vars' y)) ≤ σ x := by
    rw [← (ht.same y).varOrd,he]
    exact hσ.least y hy
  have b2 : σ x ≤ varOrd (vars y) (varHi64 (vars' y)) := by
    rw [← (ht.same y).varOrd,he]
    exact hσ.most y hy
  have b3 : varOrd (vars y) (varLo64 (vars y)) ≤ varOrd (vars y) (varLo64 (vars' y)) := by
    rw [← (ht.same y).varOrd (varLo64 (vars' y))]
    exact ht.least y
  have b4 : varOrd (vars y) (varHi64 (vars' y)) ≤ varOrd (vars y) (varHi64 (vars y)) := by
    rw [← (ht.same y).varOrd (varHi64 (vars' y))]
    exact ht.most y
  have hhi := varOrd_read y1 b2 b4 m2
  have hlo := varOrd_read' y2 b1 b3 m1 hpos
  rw [← (ht.same x).varOrd,varOrd_hi] at hhi
  rw [← (ht.same x).varOrd,varOrd_lo] at hlo
  omega

theorem fireReificationEq64_keeps (h : Reified g x y vars) (hσ : Inside [g,x,y] vars σ)
    (hA : EqAdmits g x y vars σ) (hxy : x = y → σ g = 1)
    (hone : (vars g).least = 1 → σ x = σ y ∨ Pinned [g,x,y] vars σ ∧ SamePattern (σ x) (σ y)) :
    (fireReificationEq64 g x y).wp (Retained [g,x,y] vars σ) vars := by
  have hg : g ∈ [g,x,y] := by simp
  have hx : x ∈ [g,x,y] := by simp
  have hy : y ∈ [g,x,y] := by simp
  have hlow := h.low
  have hhigh := h.high
  have h1 := hσ.least g hg
  have h2 := hσ.most g hg
  have hlo := h.lo_iff h.typed
  have hhi := h.hi_iff h.typed
  unfold fireReificationEq64
  by_cases he : x = y
  · rw [if_pos he]
    exact equalsItself_keeps hg h.typed hσ (hxy he)
  rw [if_neg he]
  simp only [Fire.wp]
  unfold EqAdmits at hA
  split_ifs at hA with hg1 hg0
  · have hend : ∀ vars₁, Typed [g,x,y] vars vars₁ → Inside [g,x,y] vars₁ σ →
        ¬((vars₁ x).readBy (vars₁ y).most < (vars₁ x).least ∨
          (vars₁ x).most < (vars₁ x).readBy (vars₁ y).least) →
        (Fire.read g fun vg => .when (vg.hi = 0#32) (neOf x y vars) (pinGuardEq64 g x y)).wp
          (Retained [g,x,y] vars σ) vars₁ := fun vars₁ ht₁ hσ₁ hno => by
      have g3 := hσ₁.most g hg
      have hhi₁ := h.hi_iff ht₁
      rw [Fire.wp,Fire.when,if_neg (mt hhi₁.mp (by omega))]
      exact pinGuardEq64_keeps hg ht₁ hσ₁ (fun _ _ _ => by omega) fun hc => absurd hc hno
    rw [Fire.when,if_pos (hlo.mpr hg1)]
    rcases hone hg1 with heq | ⟨hp,htw⟩
    · refine Fire.wp_andThen_kept (meetOf_keeps hx hy h.typed hσ heq hA) fun vars₁ ht₁ hσ₁ => ?_
      exact hend vars₁ ht₁ hσ₁ (hA.overlap hx hy heq ht₁ hσ₁)
    · have hread : (vars x).readBy (σ y) = σ x := by
        rw [← htw.readBy]
        exact hσ.readBy h.typed hx
      refine Fire.wp_andThen_and (meetOf_meets hx hy h.typed hσ ?_ ?_ htw) fun vars₁ ht₁ hσ₁ hp₁ => ?_
      · rw [hp.least x hx,hp.least y hy,hread,max_self]
      · rw [hp.most x hx,hp.most y hy,hread,min_self]
      · have x1 := hσ₁.least x hx
        have x2 := hσ₁.most x hx
        have y1 := hσ₁.least y hy
        have y2 := hσ₁.most y hy
        refine hend vars₁ ht₁ hσ₁ ?_
        rw [show (vars₁ y).most = σ y by omega,show (vars₁ y).least = σ y by omega,
          (ht₁.same x).readBy,hread]
        omega
  · rw [Fire.when,if_neg (mt hlo.mp hg1),Fire.wp,Fire.when,if_pos (hhi.mpr hg0)]
    refine Fire.wp_andThen_and (neOf_keeps hx hy h.ok hσ hA) fun vars₁ ht₁ hσ₁ hsame => ?_
    refine pinGuardEq64_keeps hg ht₁ hσ₁ (fun hfx hfy htw => ?_) fun _ => by omega
    have x1 := hσ₁.least x hx
    have x2 := hσ₁.most x hx
    have y1 := hσ₁.least y hy
    have y2 := hσ₁.most y hy
    rw [show (vars₁ x).least = σ x by omega,show (vars₁ y).least = σ y by omega] at htw
    have hv := hsame htw
    subst hv
    exact absurd ⟨htw,.inl ⟨hfx,.inl (by omega)⟩⟩ hA
  · rw [Fire.when,if_neg (mt hlo.mp hg1),Fire.wp,Fire.when,if_neg (mt hhi.mp hg0)]
    exact pinGuardEq64_keeps hg h.typed hσ hA.1 hA.2

theorem fireReificationEq64_stays {E : PropResult → Prop} (h : E .ok) (h' : E .conflict) :
    (fireReificationEq64 g x y).Stays [g,x,y] vars E :=
  .ite (equalsItself_stays (by simp) h h') fun vx vy vg =>
    .when (.ite h' (.between (by simp) (.between (by simp) h))) fun vg =>
    .when (enforceNe64_stays (by simp) (by simp) h h') (pinGuardEq64_stays (by simp) h)

theorem EqAdmits.self (hσ : Inside [g,x,x] vars σ) (hg : σ g = 1) :
    EqAdmits g x x vars σ := by
  have h1 := hσ.most g (by simp)
  have h3 := hσ.least x (by simp)
  have h4 := hσ.most x (by simp)
  have hlo : (vars x).readBy (vars x).least = (vars x).least := readBy_varOrd _ _ _
  have hhi : (vars x).readBy (vars x).most = (vars x).most := readBy_varOrd _ _ _
  rw [EqAdmits,Met,hlo,hhi]
  split_ifs <;> omega

theorem fireReificationEq64_loses (h : Reified g x y vars) (hσ : Inside [g,x,y] vars σ)
    (hA : ¬EqAdmits g x y vars σ) (hxy : x = y → σ g = 1) :
    (fireReificationEq64 g x y).wp (Lost [g,x,y] σ) vars := by
  have hg : g ∈ [g,x,y] := by simp
  have hx : x ∈ [g,x,y] := by simp
  have hy : y ∈ [g,x,y] := by simp
  have hlow := h.low
  have hhigh := h.high
  have h1 := hσ.least g hg
  have h2 := hσ.most g hg
  have hlo := h.lo_iff h.typed
  have hhi := h.hi_iff h.typed
  have hdone : (Fire.done .ok).Stays [g,x,y] vars fun _ => True := trivial
  have hpin : (pinGuardEq64 g x y).Stays [g,x,y] vars fun _ => True := pinGuardEq64_stays hg trivial
  have hne : (neOf x y vars).Stays [g,x,y] vars fun _ => True :=
    enforceNe64_stays hx hy trivial trivial
  unfold fireReificationEq64
  by_cases he : x = y
  · subst he
    exact absurd (EqAdmits.self hσ (hxy rfl)) hA
  rw [if_neg he]
  simp only [Fire.wp]
  unfold EqAdmits at hA
  split_ifs at hA with hg1 hg0
  · rw [Fire.when,if_pos (hlo.mpr hg1)]
    exact Fire.Stays.andThen_lost (meetOf_stays hx hy trivial trivial) (fun vg => .when hne hpin) h.typed
      (meetOf_loses hx hy h.typed hσ hA)
  · rw [Fire.when,if_neg (mt hlo.mp hg1),Fire.wp,Fire.when,if_pos (hhi.mpr hg0)]
    exact Fire.Stays.andThen_lost hne hpin h.typed (neOf_loses hx hy h.ok hσ (not_not.mp hA))
  · rw [Fire.when,if_neg (mt hlo.mp hg1),Fire.wp,Fire.when,if_neg (mt hhi.mp hg0)]
    simp only [pinGuardEq64,Fire.wp]
    by_cases hone : (vars x).least = (vars x).most → (vars y).least = (vars y).most →
        SamePattern (vars x).least (vars y).least → σ g = 1
    · have hdis : ¬((vars x).readBy (vars y).most < (vars x).least ∨
          (vars x).most < (vars x).readBy (vars y).least → σ g = 0) := fun hc => hA ⟨hone,hc⟩
      obtain ⟨hd,hz⟩ := Classical.not_imp.mp hdis
      refine Fire.wp_when_need h.typed hσ hg trivial (fun _ => ?_) fun _ ht hσ => ?_
      · change varOrd _ 1#64 ≤ σ g
        rw [varOrd_one]
        omega
      rw [Fire.when,if_pos (hd.imp (above_iff _ _).mpr fun hc => by rw [varBGt_iff,varOrd_lo]; exact hc),
        Fire.need_andThen]
      refine Fire.wp_need_out ht hg trivial ?_ hdone
      change varOrd _ 0#64 < σ g
      rw [varOrd_zero]
      omega
    · simp only [Classical.not_imp] at hone
      obtain ⟨hfx,hfy,htw,hg1'⟩ := hone
      rw [Fire.when,if_pos ⟨(single_iff _).mpr hfx,(single_iff _).mpr hfy,by
        rw [lo_eq_ofInt,lo_eq_ofInt]
        exact htw⟩,Fire.need_andThen]
      refine Fire.wp_need_out h.typed hg trivial ?_ (.when (.need hg trivial hdone) hdone)
      change σ g < varOrd _ 1#64
      rw [varOrd_one]
      omega

theorem fireReificationEq64_refutes (h : Reified g x y vars) (hp : Pinned [g,x,y] vars σ)
    (hA : ¬EqAdmits g x y vars σ) (hR : ¬EqRel g x y σ) :
    (fireReificationEq64 g x y).wp (fun r _ => r = .conflict) vars := by
  have hg : g ∈ [g,x,y] := by simp
  have hx : x ∈ [g,x,y] := by simp
  have hy : y ∈ [g,x,y] := by simp
  have hguard := h.guard hp.inside
  have g1 := hp.least g hg
  have g2 := hp.most g hg
  have x1 := hp.least x hx
  have x2 := hp.most x hx
  have y1 := hp.least y hy
  have y2 := hp.most y hy
  have hlo := h.lo_iff h.typed
  have hhi := h.hi_iff h.typed
  unfold EqRel at hR
  unfold fireReificationEq64
  by_cases he : x = y
  · subst he
    have hz : σ g = 0 := hguard.resolve_right fun hc => hR (by simp [hc])
    rw [if_pos rfl,equalsItself,Fire.wp,if_pos (by rw [hi_eq_ofInt,g2,hz]; rfl)]
    rfl
  rw [if_neg he]
  simp only [Fire.wp]
  unfold EqAdmits at hA
  split_ifs at hA with hg1 hg0
  · rw [Fire.when,if_pos (hlo.mpr hg1)]
    refine Fire.wp_andThen_conflict ?_
    change (meetOf x y vars).wp _ vars
    rw [meetOf_refutes hx hy h.ok hp fun htw => hA ?_]
    · rfl
    · rw [Met,y1,y2,← htw.readBy,hp.inside.readBy h.typed hx]
      exact ⟨le_rfl,le_rfl⟩
  · rw [Fire.when,if_neg (mt hlo.mp hg1),Fire.wp,Fire.when,if_pos (hhi.mpr hg0)]
    refine Fire.wp_andThen_conflict ?_
    obtain ⟨htw,-⟩ := not_not.mp hA
    rw [enforceNe64,if_pos ((all_one_iff _ _).mpr ⟨by omega,by omega,by rw [x1,y1]; exact htw⟩)]
    rfl
  · omega

/-- The fire complies exactly when the bounds of `y` read in the order of `x` admit the solutions
and no fixed variables outside the relation. -/
theorem fireReificationEq64_complies (h : Reified g x y s.ctx.vars) :
    Complies [g,x,y] (EqRel g x y) (fireReificationEq64 g x y) s ↔
      (∀ σ, Inside [g,x,y] s.ctx.vars σ → EqRel g x y σ → EqAdmits g x y s.ctx.vars σ) ∧
      ∀ σ, Inside [g,x,y] s.ctx.vars σ → ¬EqRel g x y σ →
        ¬(Pinned [g,x,y] s.ctx.vars σ ∧ EqAdmits g x y s.ctx.vars σ) := by
  have hself : ∀ {σ}, EqRel g x y σ → x = y → σ g = 1 := fun hR he => hR.mpr (he ▸ rfl)
  refine Complies.iff (fun σ hσ hR hA => ?_) (fun σ hσ hR hA => ?_) (fun σ hp hR hM => ?_)
    (fun σ hσ hR hM => ?_) fun _ => ?_
  · refine wp_mono (fun _ _ => Retained.keeps) (fireReificationEq64_keeps h hσ hA (hself hR)
      fun hl => .inl (hR.mp ?_))
    have := hσ.least _ List.mem_cons_self
    exact (h.guard hσ).resolve_left (by omega)
  · exact fireReificationEq64_loses h hσ hA (hself hR)
  · exact fireReificationEq64_refutes h hp (fun hA => hM ⟨hp,hA⟩) hR
  · obtain ⟨hp,hA⟩ := hM
    refine wp_mono (fun _ _ hk => ⟨hk.keeps.1,.inl hp⟩)
      (fireReificationEq64_keeps h hσ hA (fun he => ?_) fun hl => .inr ⟨hp,?_⟩)
    · subst he
      refine (h.guard hσ).resolve_left fun hz => ?_
      have g1 := hp.least g (by simp)
      have g2 := hp.most g (by simp)
      have x1 := hp.least x (by simp)
      have x2 := hp.most x (by simp)
      rw [EqAdmits,if_neg (by omega),if_pos (by omega)] at hA
      exact hA ⟨rfl,.inl ⟨by omega,.inl (by omega)⟩⟩
    · rw [EqAdmits,if_pos hl,Met,hp.least y (by simp),hp.most y (by simp)] at hA
      refine samePattern_of_readBy ((hσ.readBy h.typed (by simp)).trans (le_antisymm hA.2 hA.1))
  · refine wp_mono (fun r vars' hq he => ?_)
      ((fireReificationEq64_stays (E:=(· ≠ .entailed)) (by simp) (by simp)).wp h.typed)
    rcases hq with hq | hq
    · simp [hq] at he
    · exact absurd he hq.1

end Equality

end Solver
end DvSolve
