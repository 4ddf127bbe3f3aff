import DvSolve.CompileGateSem

/-! A comparison under a guard is compiled to the implication, or it is one of the cases that are
named here. -/
namespace DvSolve
namespace Solver
namespace Gated

open Sv (BinOp)
open Function
open BitVec (intMin le_toInt ofInt)
open Bool (false_eq_true)
open List (mem_cons)
open Nat (lt_succ_self)

variable {c c' : Ctx} {S : Supply} {v k : Variable} {τ σ : ℕ → ℤ} {g x n : ℕ} {cv : BitVec 64}
  {P : (ℕ → ℤ) → Prop} {R : ℤ → Prop} {op : BinOp}
variable {kv : Variable} {m : ℤ}
variable {p : Option ℕ × Ctx}

theorem initTier0_spec {w : ℕ} {sg : Bool} {lo hi : BitVec 64} (hpos : 0 < w) (hle : w ≤ 32)
    (hbot : (initTier0 w sg lo hi).bot ≤ lo.toInt) (hlh : lo.toInt ≤ hi.toInt)
    (htop : hi.toInt ≤ (initTier0 w sg lo hi).top) (hlo : -2^31 ≤ lo.toInt)
    (hhi : hi.toInt < 2^31) :
    (initTier0 w sg lo hi).Ok ∧ (initTier0 w sg lo hi).least = lo.toInt ∧
      (initTier0 w sg lo hi).most = hi.toInt := by
  have h1 := setWidth32_toInt hlo (by omega)
  have h2 := setWidth32_toInt (hlo.trans hlh) hhi
  have hmsb : sg = false → (lo.setWidth 32).msb = false ∧ (hi.setWidth 32).msb = false := fun h => by
    subst h
    have h0 : 0 ≤ lo.toInt := hbot
    rw [BitVec.msb_eq_toInt,BitVec.msb_eq_toInt,h1,h2]
    simp only [decide_eq_false_iff_not]
    omega
  have hplain : ∀ b, varOrd (initTier0 w sg lo hi) b = b.toInt := varOrd_plain (by
    simp [initTier0,Variable.beyond]
    omega)
  have hl : (initTier0 w sg lo hi).least = lo.toInt := by
    rw [Variable.least,hplain]
    exact (toInt_ext sg fun h => (hmsb h).1).trans h1
  have hm : (initTier0 w sg lo hi).most = hi.toInt := by
    rw [Variable.most,hplain]
    exact (toInt_ext sg fun h => (hmsb h).2).trans h2
  exact ⟨⟨hpos,hle.trans (by norm_num),rfl,fun _ => hle,fun _ => hmsb,hl ▸ hbot,hm ▸ htop⟩,hl,hm⟩

theorem openBit_spec : openBit.Ok ∧ openBit.least = 0 ∧ openBit.most = 1 :=
  initTier0_spec (by decide) (by decide) (by decide) (by decide) (by decide) (by decide) (by decide)

theorem constOne_spec : constOne.Ok ∧ constOne.least = 1 ∧ constOne.most = 1 :=
  initTier0_spec (by decide) (by decide) (by decide) (by decide) (by decide) (by decide) (by decide)

structure ConstOf (v kv : Variable) (k : BitVec 64) : Prop where
  ok : kv.Ok
  order : kv.beyond = v.beyond
  least : kv.least = varOrd v k
  most : kv.most = varOrd v k

theorem initAuxTiered_spec {wide : Bool} {k : BitVec 64}
    (h : initAuxTiered wide v.width v.signed k k = some kv) :
    ConstOf v kv k ∧ (v.width < 64 → v.bot ≤ k.toInt ∧ k.toInt ≤ v.top) := by
  unfold initAuxTiered at h
  by_cases hw : v.width = 0 ∨ v.width > 64
  · simp [hw] at h
  rw [if_neg hw] at h
  have hpos : 0 < v.width := by omega
  have hle : v.width ≤ 64 := by omega
  by_cases hout : v.width < 64 ∧ (if v.signed then k.toInt < -2^(v.width-1) ∨ 2^(v.width-1)-1 < k.toInt
      else k.toInt < 0 ∨ 2^v.width-1 < k.toInt)
  · rw [if_pos hout] at h
    simp at h
  rw [if_neg hout] at h
  have hin : v.width < 64 → v.bot ≤ k.toInt ∧ k.toInt ≤ v.top := fun h64 => by
    have hno := not_and.mp hout h64
    unfold Variable.bot Variable.top
    cases hs : v.signed
    · simp only [hs,false_eq_true,if_false] at hno ⊢
      omega
    · simp only [hs,if_true] at hno ⊢
      omega
  refine ⟨?_,hin⟩
  by_cases hsmall : v.width < 32 ∨ v.width = 32 ∧ v.signed = true
  · rw [if_pos hsmall] at h
    obtain rfl := Option.some.inj h
    obtain ⟨h1,h2⟩ := hin (by omega)
    have hb : -2^31 ≤ v.bot ∧ v.top < 2^31 := by
      unfold Variable.bot Variable.top
      have hp : (2 : ℤ)^(v.width-1) ≤ 2^31 := pow_le_pow_right₀ (by norm_num) (by omega)
      split_ifs with hs
      · omega
      · have hq : (2 : ℤ)^v.width ≤ 2^31 := pow_le_pow_right₀ (by norm_num) (by simp [hs] at hsmall; omega)
        omega
    obtain ⟨hok,hl,hm⟩ := initTier0_spec hpos (by omega) h1 le_rfl h2
      (by omega) (by omega)
    have hplain : varOrd v k = k.toInt := varOrd_plain (by simp [Variable.beyond]; omega) k
    exact ⟨hok,rfl,hl.trans hplain.symm,hm.trans hplain.symm⟩
  · rw [if_neg hsmall] at h
    cases wide with
    | false => simp at h
    | true =>
      obtain rfl := Option.some.inj h
      have hord : ∀ b, varOrd ⟨0#32,0#32,(k,k),v.width,v.signed,true,false,false⟩ b = varOrd v b :=
        varOrd_of_beyond rfl
      have hl := hord k
      have hall : v.bot ≤ varOrd v k ∧ varOrd v k ≤ v.top := by
        by_cases h64 : v.width < 64
        · rw [varOrd_plain (by simp [Variable.beyond,h64])]
          exact hin h64
        · have h1 := k.isLt
          have h2 := le_toInt k
          have h3 := BitVec.toInt_lt (x := k)
          have hw64 : v.width = 64 := by omega
          unfold varOrd Variable.bot Variable.top
          rw [hw64]
          cases v.signed <;> simp <;> omega
      exact ⟨⟨hpos,hle,rfl,by simp,by simp,hall.1.trans hl.ge,hl.le.trans hall.2⟩,rfl,hl,hl⟩

theorem Adds.congr {τ' : ℕ → ℤ} (h : Adds S c c' n P) (hτ : Within c' τ) (ha : Agree c' τ τ')
    (hP : P τ) : P τ' := by
  have hτ' : Within c' τ' := fun v hv => ha v hv ▸ hτ v hv
  let s := holding fun v => (c'.vars v).fixTo (τ v)
  have hs : FixedAt c' τ s := fun _ _ => rfl
  have hs' : FixedAt c' τ' s := fun v hv => by rw [ha v hv]; rfl
  exact (h.accepted s τ' hτ' hs').mp ((h.accepted s τ hτ hs).mpr hP)

theorem Adds.within (h : Adds S c c' n P) (hτ : Within c' τ) : Within c τ := fun v hv =>
  h.old v hv ▸ hτ v (hv.trans_le h.more)

theorem Kept.of_succ (h : Kept S c (n+1)) : Kept S c n := ⟨h.1,by have := h.2; omega⟩

/-- In `c'` the guard `g` is 1 where `R` holds of `x`, if no propagator is lost. -/
structure Reifies (S : Supply) (c c' : Ctx) (g x n : ℕ) (R : ℤ → Prop) (P : (ℕ → ℤ) → Prop) :
    Prop where
  adds : Adds S c c' n P
  guard : IsGuard c' g
  small : (c'.vars g).tier1 = false
  sound : Kept S c n → ∀ τ, Within c' τ → P τ → (τ g = 1 ↔ R (τ x))
  full : ∀ σ, Within c σ → ∃ τ, Agree c σ τ ∧ Within c' τ ∧ P τ ∧ (τ g = 1 ↔ R (σ x))

theorem Within.push (h : Within c τ) (hm : m ∈ v.dom) :
    Within (Solver.addVar c v) (Function.update τ c.nVars m) := fun w hw => by
  by_cases he : w = c.nVars
  · subst he
    rw [addVar_new,update_self]
    exact hm
  · have hlt : w < c.nVars := lt_of_le_of_ne (Nat.lt_succ_iff.mp hw) he
    rw [addVar_old hlt,update_of_ne he]
    exact h w hlt

theorem Agree.push {d : Ctx} (h : Agree c σ τ) (hle : c.nVars ≤ d.nVars) :
    Agree c σ (Function.update τ d.nVars m) := fun w hw => by
  rw [update_of_ne (by omega)]
  exact h w hw

theorem isGuard_openBit (c : Ctx) : IsGuard (Solver.addVar c openBit) c.nVars := by
  obtain ⟨hok,hl,hm⟩ := openBit_spec
  refine ⟨lt_succ_self _,?_,?_,?_,?_⟩ <;> rw [addVar_new]
  · exact hok
  · exact hl.ge
  · exact hm.le
  · exact fun h => absurd h (by decide)

theorem IsGuard.addVar (h : IsGuard c g) (v : Variable) : IsGuard (Solver.addVar c v) g :=
  ⟨h.lt.trans (lt_succ_self _),by rw [addVar_old h.lt]; exact h.ok,
    by rw [addVar_old h.lt]; exact h.low,by rw [addVar_old h.lt]; exact h.high,
    by rw [addVar_old h.lt]; exact h.idle⟩

theorem Reifies.const (hok : c.Ok) (htab : TablesOk c) (t : Bool)
    (hR : ∀ σ, Within c σ → (R (σ x) ↔ t = true)) :
    Reifies S c (Solver.addVar c (initTier0 1 false (if t then 1#64 else 0#64) (if t then 1#64 else 0#64)))
      c.nVars x 0 R fun _ => True := by
  have hu : (initTier0 1 false (if t then 1#64 else 0#64) (if t then 1#64 else 0#64)).Ok ∧
      (initTier0 1 false (if t then 1#64 else 0#64) (if t then 1#64 else 0#64)).least =
        (if t then 1 else 0) ∧
      (initTier0 1 false (if t then 1#64 else 0#64) (if t then 1#64 else 0#64)).most =
        (if t then 1 else 0) := by
    cases t
    · exact initTier0_spec (by decide) (by decide) (by decide) (by decide) (by decide) (by decide)
        (by decide)
    · exact initTier0_spec (by decide) (by decide) (by decide) (by decide) (by decide) (by decide)
        (by decide)
  have h1 : (initTier0 1 false (if t then 1#64 else 0#64) (if t then 1#64 else 0#64)).tier1 = false :=
    rfl
  generalize initTier0 1 false (if t then 1#64 else 0#64) (if t then 1#64 else 0#64) = u at hu h1
  obtain ⟨huok,hl,hm⟩ := hu
  have hadds := (Adds.refl S hok htab).addVar u
  refine ⟨hadds,⟨lt_succ_self _,?_,?_,?_,?_⟩,?_,fun _ τ hτ _ => ?_,fun σ hσ => ?_⟩
  any_goals rw [addVar_new]
  · exact huok
  · rw [hl]
    split_ifs <;> decide
  · rw [hm]
    split_ifs <;> decide
  · exact fun h => absurd h (by rw [h1]; decide)
  · exact h1
  · have hval := hτ c.nVars (lt_succ_self _)
    rw [addVar_new,Variable.dom,hl,hm,Set.Icc_self,Set.mem_singleton_iff] at hval
    rw [hR τ hτ.addVar,hval]
    split_ifs with ht <;> simp [ht]
  · refine ⟨Function.update σ c.nVars (if t then 1 else 0),Agree.push (fun _ _ => rfl) le_rfl,
      hσ.push ⟨hl.le,hm.ge⟩,trivial,?_⟩
    rw [update_self,hR σ hσ]
    split_ifs with ht <;> simp [ht]

theorem addProp_vars {f : Fire} {W : List ℕ} (hok : c.Ok) (htab : TablesOk c) :
    (Solver.addProp S.block c f 0 W).vars = c.vars ∧
      (Solver.addProp S.block c f 0 W).nVars = c.nVars := by
  unfold Solver.addProp
  split_ifs with hb
  · cases hd : allocProp c f 0 W with
    | none => exact ⟨rfl,rfl⟩
    | some d =>
      rw [Option.getD_some,(allocProp_spec hok htab (by decide) hd).rest]
      exact ⟨rfl,rfl⟩
  · rw [(roomProp_keeps hok htab).2.2]
    exact ⟨rfl,rfl⟩

section SameVars

variable {d : Ctx} (h : d.vars = c.vars ∧ d.nVars = c.nVars)

include h

theorem within_iff : Within d τ ↔ Within c τ := by
  unfold Within
  rw [h.1,h.2]

theorem isGuard_iff : IsGuard d g ↔ IsGuard c g :=
  ⟨fun k => ⟨h.2 ▸ k.lt,h.1 ▸ k.ok,h.1 ▸ k.low,h.1 ▸ k.high,h.1 ▸ k.idle⟩,
    fun k => ⟨h.2 ▸ k.lt,h.1 ▸ k.ok,h.1 ▸ k.low,h.1 ▸ k.high,h.1 ▸ k.idle⟩⟩

end SameVars

/-- The propagator over a guard, `x` and a constant makes the guard that of the relation to it. -/
theorem Reifies.of_ready {f : Fire} {y : ℕ} {Rel : ℤ → ℤ → Prop} (hx : x < c.nVars)
    (hA : Adds S c c' 0 fun _ => True) (hr : Ready c' g x y)
    (hf : Decides c' f fun τ => τ g = 1 ↔ Rel (τ x) (τ y)) (hy : (c'.vars y).dom = {m})
    (hfull : ∀ σ, Within c σ → ∀ b ∈ Set.Icc (0 : ℤ) 1, ∃ τ, Agree c σ τ ∧ Within c' τ ∧ τ g = b) :
    Reifies S c (Solver.addProp S.block c' f 0 [g,x,y]) g x 1 (Rel · m)
      fun τ => True ∧ (Kept S c 1 → (τ g = 1 ↔ Rel (τ x) (τ y))) := by
  have hids : ∀ v ∈ [g,x,y], v < c'.nVars := by
    simp only [mem_cons,List.not_mem_nil,or_false]
    rintro v (rfl | rfl | rfl)
    · exact hr.guard.lt
    · exact hr.left.1
    · exact hr.right.1
  have hsame := addProp_vars (S:=S) (f:=f) (W:=[g,x,y]) hA.ok hA.tables
  have hm : ∀ {τ}, Within c' τ → τ y = m := fun hτ => by
    have := hτ y hr.right.1
    rwa [hy,Set.mem_singleton_iff] at this
  refine ⟨hA.addProp hids hf,(isGuard_iff hsame).mpr hr.guard,hsame.1 ▸ hr.small,
    fun hk τ hτ hP => ?_,fun σ hσ => ?_⟩
  · rw [hP.2 hk,hm ((within_iff hsame).mp hτ)]
  · by_cases hR : Rel (σ x) m
    · obtain ⟨τ,ha,hτ,hg⟩ := hfull σ hσ 1 (by simp)
      have hiff : τ g = 1 ↔ Rel (σ x) m := iff_of_true hg hR
      refine ⟨τ,ha,(within_iff hsame).mpr hτ,⟨trivial,fun _ => ?_⟩,hiff⟩
      rwa [ha x hx,hm hτ]
    · obtain ⟨τ,ha,hτ,hg⟩ := hfull σ hσ 0 (by simp)
      have hiff : τ g = 1 ↔ Rel (σ x) m := iff_of_false (by omega) hR
      refine ⟨τ,ha,(within_iff hsame).mpr hτ,⟨trivial,fun _ => ?_⟩,hiff⟩
      rwa [ha x hx,hm hτ]

theorem ConstOf.dom {k : BitVec 64} (h : ConstOf v kv k) : kv.dom = {varOrd v k} := by
  rw [Variable.dom,h.least,h.most,Set.Icc_self]

theorem openBit_dom : openBit.dom = Set.Icc 0 1 := by
  rw [Variable.dom,openBit_spec.2.1,openBit_spec.2.2]

theorem Reifies.le {k : BitVec 64} (hok : c.Ok) (htab : TablesOk c) (hx : x < c.nVars)
    (hv : (c.vars x).Ok) (hk : ConstOf (c.vars x) kv k) :
    ∃ P, Reifies S c (propAddReification32 S.block (Solver.addVar (Solver.addVar c kv) openBit)
      (c.nVars+1) x c.nVars 0) (c.nVars+1) x 1 (· ≤ varOrd (c.vars x) k) P := by
  have hx1 : x < (Solver.addVar c kv).nVars := hx.trans (lt_succ_self _)
  have hvx : (Solver.addVar (Solver.addVar c kv) openBit).vars x = c.vars x := by
    rw [addVar_old hx1,addVar_old hx]
  have hvk : (Solver.addVar (Solver.addVar c kv) openBit).vars c.nVars = kv := by
    rw [addVar_old (lt_succ_self _),addVar_new]
  have hready : Ready (Solver.addVar (Solver.addVar c kv) openBit) (c.nVars+1) x c.nVars :=
    ⟨isGuard_openBit _,by rw [show c.nVars+1 = (Solver.addVar c kv).nVars from rfl,addVar_new]; rfl,
      ⟨hx1.trans (lt_succ_self _),hvx ▸ hv⟩,⟨Nat.lt_succ_of_lt (lt_succ_self _),by rw [hvk]; exact hk.ok⟩,
      by rw [hvx,hvk]; exact hk.order⟩
  refine ⟨_,Reifies.of_ready hx (((Adds.refl S hok htab).addVar kv).addVar openBit) hready
    (decides_reification hready) (by rw [hvk]; exact hk.dom) fun σ hσ b hb => ?_⟩
  refine ⟨Function.update (Function.update σ c.nVars (varOrd (c.vars x) k)) (c.nVars+1) b,?_,?_,
    update_self _ _ _⟩
  · exact (Agree.push (fun _ _ => rfl) le_rfl).push (d:=Solver.addVar c kv) (Nat.le_succ _)
  · exact (hσ.push (by rw [hk.dom]; rfl)).push (by rw [openBit_dom]; exact hb)

theorem Reifies.eq {k : BitVec 64} (hok : c.Ok) (htab : TablesOk c) (hx : x < c.nVars)
    (hv : (c.vars x).Ok) (hk : ConstOf (c.vars x) kv k) :
    ∃ P, Reifies S c (propAddReificationEq32 S.block (Solver.addVar (Solver.addVar c openBit) kv)
      c.nVars x (c.nVars+1) 0) c.nVars x 1 (· = varOrd (c.vars x) k) P := by
  have hx1 : x < (Solver.addVar c openBit).nVars := hx.trans (lt_succ_self _)
  have hvx : (Solver.addVar (Solver.addVar c openBit) kv).vars x = c.vars x := by
    rw [addVar_old hx1,addVar_old hx]
  have hvk : (Solver.addVar (Solver.addVar c openBit) kv).vars (c.nVars+1) = kv := addVar_new
  have hready : Ready (Solver.addVar (Solver.addVar c openBit) kv) c.nVars x (c.nVars+1) :=
    ⟨(isGuard_openBit c).addVar kv,by rw [addVar_old (lt_succ_self _),addVar_new]; rfl,
      ⟨hx1.trans (lt_succ_self _),hvx ▸ hv⟩,⟨lt_succ_self _,by rw [hvk]; exact hk.ok⟩,
      by rw [hvx,hvk]; exact hk.order⟩
  refine ⟨_,Reifies.of_ready hx (((Adds.refl S hok htab).addVar openBit).addVar kv) hready
    (decides_reificationEq hready) (by rw [hvk]; exact hk.dom) fun σ hσ b hb => ?_⟩
  refine ⟨Function.update (Function.update σ c.nVars b) (c.nVars+1) (varOrd (c.vars x) k),?_,?_,?_⟩
  · exact (Agree.push (fun _ _ => rfl) le_rfl).push (d:=Solver.addVar c openBit) (Nat.le_succ _)
  · exact (hσ.push (by rw [openBit_dom]; exact hb)).push (by rw [hk.dom]; rfl)
  · rw [update_of_ne (lt_succ_self _).ne,update_self]

theorem decides_boundsAdd {r a b : ℕ}
    (h : ∀ v ∈ [r,a,b], v < c.nVars ∧ (c.vars v).Ok ∧ (c.vars v).tier1 = false) :
    Decides c (fireBoundsAdd32 r a b) fun τ => τ r = τ a+τ b := by
  intro s τ hτ hs
  obtain ⟨hok,hp⟩ := hs.pinned (W:=[r,a,b]) (fun v hv => ⟨(h v hv).1,(h v hv).2.1⟩) hτ
  refine fireBoundsAdd32_fixed ⟨hok,fun v hv => ?_⟩ hp
  obtain ⟨h1,h2,h3⟩ := h v hv
  exact (hs.fixedTo hτ h1 h2).same.tier1.trans h3

theorem Reifies.negate (h : Reifies S c c' g x n R P) :
    ∃ Q, Reifies S c (negateGuard S.block c' g).2 (negateGuard S.block c' g).1 x (n+1)
      (fun m => ¬R m) Q := by
  have hA := (h.adds.addVar openBit).addVar constOne
  have hg := h.guard.lt
  have hbit : (Solver.addVar (Solver.addVar c' openBit) constOne).vars c'.nVars = openBit := by
    rw [addVar_old (lt_succ_self _),addVar_new]
  have hone : (Solver.addVar (Solver.addVar c' openBit) constOne).vars (c'.nVars+1) = constOne :=
    addVar_new
  have hold : (Solver.addVar (Solver.addVar c' openBit) constOne).vars g = c'.vars g := by
    rw [addVar_old (hg.trans (lt_succ_self _)),addVar_old hg]
  have hids : ∀ v ∈ [c'.nVars+1,c'.nVars,g],
      v < (Solver.addVar (Solver.addVar c' openBit) constOne).nVars ∧
        ((Solver.addVar (Solver.addVar c' openBit) constOne).vars v).Ok ∧
        ((Solver.addVar (Solver.addVar c' openBit) constOne).vars v).tier1 = false := by
    simp only [mem_cons,List.not_mem_nil,or_false]
    rintro v (rfl | rfl | rfl)
    · rw [hone]
      exact ⟨lt_succ_self _,constOne_spec.1,rfl⟩
    · rw [hbit]
      exact ⟨Nat.lt_succ_of_lt (lt_succ_self _),openBit_spec.1,rfl⟩
    · rw [hold]
      exact ⟨(hg.trans (lt_succ_self _)).trans (lt_succ_self _),h.guard.ok,h.small⟩
  have hsame := addProp_vars (S:=S) (f:=fireBoundsAdd32 (c'.nVars+1) c'.nVars g)
    (W:=[c'.nVars+1,c'.nVars,g]) hA.ok hA.tables
  refine ⟨_,hA.addProp (fun v hv => (hids v hv).1) (decides_boundsAdd hids),
    (isGuard_iff hsame).mpr ((isGuard_openBit c').addVar constOne),?_,fun hk τ hτ hP => ?_,
    fun σ hσ => ?_⟩
  · change (Ctx.vars (Solver.addProp _ _ _ _ _) c'.nVars).tier1 = false
    rw [hsame.1,hbit]
    rfl
  · have hτ₁ := (within_iff hsame).mp hτ
    have h1 := hτ₁ (c'.nVars+1) (lt_succ_self _)
    rw [hone,Variable.dom,constOne_spec.2.1,constOne_spec.2.2,Set.Icc_self,Set.mem_singleton_iff] at h1
    have hτ' := hτ₁.addVar.addVar
    have hsound := h.sound hk.of_succ τ hτ' hP.1
    have hval := h.guard.value hτ'
    have hsum := hP.2 hk
    have hnot : τ c'.nVars = 1 ↔ ¬τ g = 1 := by omega
    exact hnot.trans (not_congr hsound)
  · obtain ⟨τ,ha,hτ,hP,hR⟩ := h.full σ hσ
    have hval := h.guard.value hτ
    let τ' := Function.update (Function.update τ c'.nVars (1-τ g)) (c'.nVars+1) 1
    have hag : Agree c' τ τ' := fun v hv =>
      (update_of_ne (hv.trans (lt_succ_self _)).ne _ _).trans
        (update_of_ne hv.ne _ _)
    have hτ'g : τ' g = τ g := hag g hg
    have hτ'm : τ' c'.nVars = 1-τ g :=
      (update_of_ne (lt_succ_self _).ne _ _).trans (update_self _ _ _)
    have hτ'1 : τ' (c'.nVars+1) = 1 := update_self _ _ _
    refine ⟨τ',(ha.push h.adds.more).push (d:=Solver.addVar c' openBit)
      (h.adds.more.trans (Nat.le_succ _)),(within_iff hsame).mpr ?_,
      ⟨h.adds.congr hτ hag hP,fun _ => ?_⟩,?_⟩
    · refine (hτ.push ?_).push ?_
      · rw [openBit_dom]
        constructor <;> omega
      · rw [Variable.dom,constOne_spec.2.1,constOne_spec.2.2,Set.Icc_self]
        rfl
    · rw [hτ'1,hτ'm,hτ'g]
      omega
    · have hnot : τ' c'.nVars = 1 ↔ ¬τ g = 1 := by omega
      exact hnot.trans (not_congr hR)

theorem Reifies.congr {R' : ℤ → Prop} (h : Reifies S c c' g x n R P) (hx : x < c.nVars)
    (hR : ∀ m ∈ (c.vars x).dom, R m ↔ R' m) : Reifies S c c' g x n R' P where
  adds := h.adds
  guard := h.guard
  small := h.small
  sound hk τ hτ hP := (h.sound hk τ hτ hP).trans (hR _ (h.adds.within hτ x hx))
  full σ hσ := by
    obtain ⟨τ,h1,h2,h3,h4⟩ := h.full σ hσ
    exact ⟨τ,h1,h2,h3,h4.trans (hR _ (hσ x hx))⟩

theorem foldCmp_spec (hv : v.Ok) {t : Bool} (h : foldCmp v op cv = some t) (hm : m ∈ v.dom) :
    Compares op m (varOrd v cv) ↔ t = true := by
  obtain ⟨h1,h2⟩ := hv.inType hm.1 hm.2
  have hle := hv.le
  unfold foldCmp at h
  by_cases hop : op ≠ .eq ∧ op ≠ .neq ∧ v.signed = false
  swap
  · rw [if_neg hop] at h
    simp at h
  obtain ⟨-,-,hs⟩ := id hop
  rw [if_pos hop] at h
  simp only [Variable.bot,Variable.top,hs,false_eq_true,if_false] at h1 h2
  by_cases hw : v.width ≥ 64
  · rw [if_pos hw] at h
    have hw64 : v.width = 64 := by omega
    have hb : v.beyond = true := by simp [Variable.beyond,hs,hw64]
    rw [hw64] at h2
    have hzero : cv = 0#64 ↔ cv.toNat = 0 :=
      ⟨fun h => by simp [h],fun h => BitVec.eq_of_toNat_eq (by simpa using h)⟩
    have hones : cv = BitVec.allOnes 64 ↔ cv.toNat = 2^64-1 :=
      ⟨fun h => by simp [h],fun h => BitVec.eq_of_toNat_eq (by simpa using h)⟩
    rw [varOrd_beyond hb]
    simp only [hzero,hones] at h
    cases op <;> simp only [reduceCtorEq] at h <;> split_ifs at h <;> cases h <;>
      simp only [Compares,false_eq_true,iff_false,iff_true] <;> omega
  · rw [if_neg hw] at h
    have hb : v.beyond = false := by simp [Variable.beyond,hs]; omega
    rw [varOrd_plain hb]
    cases op <;> simp only [reduceCtorEq] at h <;> split_ifs at h <;> cases h <;>
      simp only [Compares,false_eq_true,iff_false,iff_true] <;> omega

/-- The greatest constant below `cv` is the pattern before it, but for the least number of 64
signed bits. -/
def Wraps (v : Variable) (op : BinOp) (cv : BitVec 64) : Prop :=
  (op = .lt ∨ op = .gte) ∧ v.signed = true ∧ v.width = 64 ∧ cv = intMin 64

instance : Decidable (Wraps v op cv) := inferInstanceAs (Decidable (_ ∧ _))

theorem pred_spec {wide : Bool} (hv : v.Ok) (hop : op = .lt ∨ op = .gte)
    (hfold : foldCmp v op cv = none)
    (hk : initAuxTiered wide v.width v.signed (cv-1#64) (cv-1#64) = some kv) (hno : ¬Wraps v op cv) :
    varOrd v (cv-1#64) = varOrd v cv-1 := by
  rcases varOrd_sub_one v cv with h | h
  · exact h
  exfalso
  cases hb : v.beyond with
  | true =>
    have hz := h 0#64
    rw [varOrd_beyond hb,varOrd_beyond hb] at hz
    obtain rfl : cv = 0#64 := BitVec.eq_of_toNat_eq (by simpa using hz)
    simp only [Variable.beyond,Bool.and_eq_true,Bool.not_eq_true',decide_eq_true_eq] at hb
    rcases hop with rfl | rfl <;> simp [foldCmp,hb.1,hb.2] at hfold
  | false =>
    have hz := h (intMin 64)
    rw [varOrd_plain hb,varOrd_plain hb] at hz
    have hmin : cv = intMin 64 := BitVec.eq_of_toInt_eq (le_antisymm hz (by
      have := le_toInt cv
      rwa [BitVec.toInt_intMin_of_pos (by decide)]))
    subst hmin
    cases hs : v.signed with
    | false =>
      have hw : ¬v.width ≥ 64 := by
        simpa [Variable.beyond,hs] using hb
      have hneg : (intMin 64).toInt ≤ 0 := by decide
      rcases hop with rfl | rfl <;> simp [foldCmp,hs,hw,hneg] at hfold
    | true =>
      have hw : v.width < 64 := lt_of_le_of_ne hv.le fun hw => hno ⟨hop,hs,hw,rfl⟩
      have htop := ((initAuxTiered_spec hk).2 hw).2
      have hk : (intMin 64-1#64).toInt = 2^63-1 := by decide
      have hp : (2 : ℤ)^(v.width-1) ≤ 2^62 := pow_le_pow_right₀ (by norm_num) (by omega)
      rw [hk,Variable.top,hs,if_pos rfl] at htop
      omega

theorem wraps_spec (h : Wraps v op cv) (hv : v.Ok) (hm : m ∈ v.dom) :
    m ≤ varOrd v (cv-1#64) ∧ varOrd v cv ≤ m := by
  obtain ⟨-,hs,hw,rfl⟩ := h
  obtain ⟨h1,h2⟩ := hv.inType hm.1 hm.2
  have hb : v.beyond = false := by simp [Variable.beyond,hs]
  have hmax : (intMin 64-1#64).toInt = 2^63-1 := by decide
  have hmin : (intMin 64).toInt = -2^63 := by decide
  rw [varOrd_plain hb,varOrd_plain hb,hmax,hmin]
  simp only [Variable.bot,Variable.top,hs,hw,if_true] at h1 h2
  omega

def reifiers (v : Variable) (op : BinOp) (cv : BitVec 64) : ℕ :=
  if (foldCmp v op cv).isSome then 0
  else match op with
    | .neq | .gt | .gte => 2
    | _ => 1

def Guarded (v : Variable) (op : BinOp) (cv : BitVec 64) (m : ℤ) : Prop :=
  if Wraps v op cv then op = .lt else Compares op m (varOrd v cv)

section Reify

variable (hok : c.Ok) (htab : TablesOk c) (hx : x < c.nVars) (hv : (c.vars x).Ok)

include hok htab hx hv

theorem reifyEq_reifies (h : reifyEq S c x cv = (some g,c')) :
    ∃ P, Reifies S c c' g x 1 (· = varOrd (c.vars x) cv) P := by
  unfold reifyEq at h
  split_ifs at h with hroom
  · dsimp only at h
    cases hk : initAuxTiered S.wide (c.vars x).width (c.vars x).signed cv cv with
    | none => simp [hk] at h
    | some k =>
      rw [hk] at h
      obtain ⟨rfl,rfl⟩ := Prod.mk.inj h |>.imp_left Option.some.inj
      exact Reifies.eq hok htab hx hv (initAuxTiered_spec hk).1
  · simp at h

theorem reifyLe_reifies {k : BitVec 64} (h : reifyLe S c x k = (some g,c')) :
    (∃ kv, initAuxTiered S.wide (c.vars x).width (c.vars x).signed k k = some kv) ∧
      ∃ P, Reifies S c c' g x 1 (· ≤ varOrd (c.vars x) k) P := by
  unfold reifyLe at h
  split_ifs at h with hroom
  · dsimp only at h
    cases hk : initAuxTiered S.wide (c.vars x).width (c.vars x).signed k k with
    | none => simp [hk] at h
    | some kv =>
      rw [hk] at h
      obtain ⟨rfl,rfl⟩ := Prod.mk.inj h |>.imp_left Option.some.inj
      exact ⟨⟨kv,rfl⟩,Reifies.le hok htab hx hv (initAuxTiered_spec hk).1⟩
  · simp at h

omit hok htab hx hv in
theorem negated_reifies
    (hp : ∀ g c', p = (some g,c') → ∃ P, Reifies S c c' g x n R P)
    (h : negated S p = (some g,c')) : ∃ P, Reifies S c c' g x (n+1) (fun m => ¬R m) P := by
  obtain ⟨o,d⟩ := p
  unfold negated at h
  cases o with
  | none => simp at h
  | some g₀ =>
    split_ifs at h
    · obtain ⟨P,hP⟩ := hp g₀ d rfl
      obtain ⟨Q,hQ⟩ := hP.negate
      obtain ⟨h1,h2⟩ := Prod.mk.inj h
      obtain rfl := Option.some.inj h1
      subst h2
      exact ⟨Q,hQ⟩
    · simp at h

theorem boolToVarCmp_reifies (hop : op.isCmp = true) (h : boolToVarCmp S c op x cv = (some g,c')) :
    ∃ P, Reifies S c c' g x (reifiers (c.vars x) op cv) (Guarded (c.vars x) op cv) P := by
  unfold boolToVarCmp at h
  unfold reifiers
  cases hf : foldCmp (c.vars x) op cv with
  | some t =>
    have hno : ¬Wraps (c.vars x) op cv := fun hw => by
      simp [foldCmp,hw.2.1] at hf
    rw [hf] at h
    dsimp only at h
    rw [Option.isSome_some,if_pos rfl]
    by_cases hroom : S.room = true
    · rw [if_pos hroom] at h
      obtain ⟨h1,h2⟩ := Prod.mk.inj h
      obtain rfl := Option.some.inj h1
      subst h2
      refine ⟨_,Reifies.const hok htab t fun σ hσ => ?_⟩
      rw [Guarded,if_neg hno]
      exact foldCmp_spec hv hf (hσ x hx)
    · rw [if_neg hroom] at h
      simp at h
  | none =>
    rw [hf] at h
    rw [Option.isSome_none,if_neg Bool.false_ne_true]
    -- the two comparisons that step back from the constant
    have hback : ∀ {g c'}, op = .lt ∨ op = .gte → reifyLe S c x (cv-1#64) = (some g,c') →
        ∃ P, Reifies S c c' g x 1
          (fun m => Wraps (c.vars x) op cv ∨ m < varOrd (c.vars x) cv) P := fun hlt hle => by
      obtain ⟨⟨kv,hk⟩,P,hP⟩ := reifyLe_reifies hok htab hx hv hle
      refine ⟨P,hP.congr hx fun m hm => ?_⟩
      by_cases hw : Wraps (c.vars x) op cv
      · exact iff_of_true (wraps_spec hw hv hm).1 (.inl hw)
      · rw [pred_spec hv hlt hf hk hw]
        simp only [hw,false_or]
        omega
    have hplain : op ≠ .lt → op ≠ .gte → ∀ m, Guarded (c.vars x) op cv m ↔
        Compares op m (varOrd (c.vars x) cv) := fun h1 h2 m => by
      rw [Guarded,if_neg fun hw => hw.1.elim h1 h2]
    cases op <;> simp only [BinOp.isCmp,false_eq_true] at hop
    case eq =>
      obtain ⟨P,hP⟩ := reifyEq_reifies hok htab hx hv h
      exact ⟨P,hP.congr hx fun m _ => (hplain (by simp) (by simp) m).symm⟩
    case neq =>
      obtain ⟨P,hP⟩ := negated_reifies (fun g c' => reifyEq_reifies hok htab hx hv) h
      exact ⟨P,hP.congr hx fun m _ => (hplain (by simp) (by simp) m).symm⟩
    case lte =>
      obtain ⟨-,P,hP⟩ := reifyLe_reifies hok htab hx hv h
      exact ⟨P,hP.congr hx fun m _ => (hplain (by simp) (by simp) m).symm⟩
    case gt =>
      obtain ⟨P,hP⟩ := negated_reifies (fun g c' h => (reifyLe_reifies hok htab hx hv h).2) h
      refine ⟨P,hP.congr hx fun m _ => ?_⟩
      rw [hplain (by simp) (by simp) m]
      exact not_le
    case lt =>
      obtain ⟨P,hP⟩ := hback (.inl rfl) h
      refine ⟨P,hP.congr hx fun m _ => ?_⟩
      unfold Guarded
      split_ifs with hw <;> simp [hw,Compares]
    case gte =>
      obtain ⟨P,hP⟩ := negated_reifies (fun g c' => hback (.inr rfl)) h
      refine ⟨P,hP.congr hx fun m _ => ?_⟩
      unfold Guarded
      split_ifs with hw <;> simp [hw,Compares]

end Reify

/-- A compilation of `guard → R x`: -1 only when no assignment within the domains satisfies it, and
1 only when those that do are the ones that the additions leave. -/
def Gates (c : Ctx) (guard x : ℕ) (R : ℤ → Prop) (r : ℤ × Ctx) : Prop :=
  (r.1 = -1 → ∀ σ, Within c σ → ¬(σ guard = 0 ∨ R (σ x))) ∧
  (r.1 = 1 → ∀ σ, (∃ τ, Agree c σ τ ∧ Satisfies c r.2 τ) ↔ Within c σ ∧ (σ guard = 0 ∨ R (σ x)))

def Encodes (c c' : Ctx) (E : (ℕ → ℤ) → Prop) : Prop :=
  ∀ σ, (∃ τ, Agree c σ τ ∧ Satisfies c c' τ) ↔ Within c σ ∧ E σ

section Encodes

variable {E : (ℕ → ℤ) → Prop} {guard : ℕ}

theorem Encodes.gates (h : Encodes c c' E) : Gates c guard x R (1,c') ↔
    ∀ σ, Within c σ → (E σ ↔ (σ guard = 0 ∨ R (σ x))) := by
  unfold Gates
  simp only [true_implies]
  constructor
  · exact fun hg σ hσ => and_congr_right_iff.mp ((h σ).symm.trans (hg.2 σ)) hσ
  · exact fun hE => ⟨by simp,fun σ => (h σ).trans (and_congr_right fun hσ => hE σ hσ)⟩

theorem gates_none : Gates c guard x R (0,c') := ⟨by simp,by simp⟩

theorem Adds.encodes (h : Adds S c c' n P) (hn : c'.nVars = c.nVars) : Encodes c c' P := by
  intro σ
  have hw : ∀ {τ}, Within c τ → Within c' τ := fun hτ v hv => by
    have hlt : v < c.nVars := hn ▸ hv
    rw [h.old v hlt]
    exact hτ v hlt
  constructor
  · rintro ⟨τ,ha,hs⟩
    obtain ⟨hτ,hP⟩ := h.satisfies_iff.mp hs
    have ha' : Agree c' τ σ := fun v hv => (ha v (hn ▸ hv)).symm
    exact ⟨fun v hv => ha v hv ▸ h.within hτ v hv,h.congr hτ ha' hP⟩
  · rintro ⟨hσ,hP⟩
    exact ⟨σ,fun _ _ => rfl,h.satisfies_iff.mpr ⟨hw hσ,hP⟩⟩

def Bounds (isUb : Bool) (k m : ℤ) : Prop := if isUb then m ≤ k else k ≤ m

section Implication

variable (h : Adds S c c' n P) (hg : IsGuard c' guard) (hx : x < c'.nVars) (hv : (c'.vars x).Ok)
  (isUb : Bool)

include h hg hx hv

theorem Adds.implication64 (k : BitVec 64) :
    Adds S c (propAddImplication64 S.block c' guard x k isUb 0) (n+1) fun τ =>
      P τ ∧ (Kept S c (n+1) → (c'.vars guard).tier1 = false → τ guard = 1 →
        Bounds isUb (varOrd (c'.vars x) k) (τ x)) := by
  have hids : ∀ v ∈ [guard,x], v < c'.nVars := by
    simp only [mem_cons,List.not_mem_nil,or_false]
    rintro v (rfl | rfl)
    · exact hg.lt
    · exact hx
  cases isUb
  · exact h.addProp hids (decides_implication (t:=.lb64) hg hx hv trivial)
  · exact h.addProp hids (decides_implication (t:=.ub64) hg hx hv trivial)

theorem Adds.implication32 (h0 : (c'.vars x).tier1 = false) (k : BitVec 32) :
    Adds S c (propAddImplication32 S.block c' guard x k isUb 0) (n+1) fun τ =>
      P τ ∧ (Kept S c (n+1) → (c'.vars guard).tier1 = false → τ guard = 1 →
        Bounds isUb k.toInt (τ x)) := by
  have hids : ∀ v ∈ [guard,x], v < c'.nVars := by
    simp only [mem_cons,List.not_mem_nil,or_false]
    rintro v (rfl | rfl)
    · exact hg.lt
    · exact hx
  have hnum : ((k.signExtend 64).setWidth 32).toInt = k.toInt := by rw [setWidth_signExtend]
  have ht : (c'.vars x).tier0 = true := by rw [hv.tier0,h0]; rfl
  unfold propAddImplication32
  rw [ht,if_neg (by simp),← hnum]
  cases isUb
  · exact h.addProp hids (decides_implication (t:=.lb32) hg hx hv h0)
  · exact h.addProp hids (decides_implication (t:=.ub32) hg hx hv h0)

end Implication

theorem Reifies.encodes (h : Reifies S c c' g x n R P) (hx : x < c.nVars) (hg : IsGuard c guard) :
    Encodes c (propAddImplication32 S.block c' guard g 1#32 false 0) fun σ =>
      Kept S c (n+1) → (c.vars guard).tier1 = false → σ guard = 1 → R (σ x) := by
  have hold := h.adds.old guard hg.lt
  have hg' : IsGuard c' guard := ⟨hg.lt.trans_le h.adds.more,hold ▸ hg.ok,hold ▸ hg.low,
    hold ▸ hg.high,hold ▸ hg.idle⟩
  have hA := h.adds.implication32 hg' h.guard.lt h.guard.ok false h.small 1#32
  have ht : (c'.vars g).tier0 = true := by rw [h.guard.ok.tier0,h.small]; rfl
  have hsame : (propAddImplication32 S.block c' guard g 1#32 false 0).vars = c'.vars ∧
      (propAddImplication32 S.block c' guard g 1#32 false 0).nVars = c'.nVars := by
    unfold propAddImplication32
    rw [ht,if_neg (by simp)]
    exact addProp_vars h.adds.ok h.adds.tables
  rw [hold] at hA
  intro σ
  constructor
  · rintro ⟨τ,ha,hs⟩
    obtain ⟨hτ,hP,hone⟩ := hA.satisfies_iff.mp hs
    have hτ' := (within_iff hsame).mp hτ
    refine ⟨fun v hv => ha v hv ▸ hA.within hτ v hv,fun hk h0 h1 => ?_⟩
    have hval := h.guard.value hτ'
    have hge : (1#32).toInt ≤ τ g := hone hk h0 ((ha guard hg.lt).trans h1)
    rw [show (1#32).toInt = 1 from rfl] at hge
    rw [← ha x hx]
    exact (h.sound hk.of_succ τ hτ' hP).mp (by omega)
  · rintro ⟨hσ,hE⟩
    obtain ⟨τ,ha,hτ,hP,hR⟩ := h.full σ hσ
    refine ⟨τ,ha,hA.satisfies_iff.mpr ⟨(within_iff hsame).mpr hτ,hP,fun hk h0 h1 => ?_⟩⟩
    have := hR.mpr (hE hk h0 ((ha guard hg.lt).symm.trans h1))
    change (1#32).toInt ≤ τ g
    rw [this]
    rfl

/-- An implication that is only kept under `A` is the one that is meant where it holds anyway, or
under `A`. -/
theorem implies_iff {A : Prop} {T : ℤ → Prop} (hx : x < c.nVars) (hg : IsGuard c guard)
    (hT : ∀ m ∈ (c.vars x).dom, R m → T m) :
    (∀ σ, Within c σ → ((A → σ guard = 1 → T (σ x)) ↔ (σ guard = 0 ∨ R (σ x)))) ↔
      (∀ σ, Within c σ → σ guard ≠ 0 → R (σ x)) ∨
        A ∧ ∀ σ, Within c σ → σ guard ≠ 0 → T (σ x) → R (σ x) := by
  constructor
  · intro h
    by_cases hA : A
    · exact .inr ⟨hA,fun σ hσ h0 ht => ((h σ hσ).mp fun _ _ => ht).resolve_left h0⟩
    · exact .inl fun σ hσ h0 => ((h σ hσ).mp fun ha => absurd ha hA).resolve_left h0
  · intro h σ hσ
    have hval := hg.value hσ
    constructor
    · intro ht
      by_cases h0 : σ guard = 0
      · exact .inl h0
      · refine .inr (h.elim (fun h => h σ hσ h0) fun h => h.2 σ hσ h0 (ht h.1 ?_))
        omega
    · intro hR _ h1
      exact hT _ (hσ x hx) (hR.resolve_left (by omega))

end Encodes

/-- The comparisons that are compiled through a guard of their own. -/
def Reifying (v : Variable) (op : BinOp) : Prop :=
  op = .neq ∨ v.tier0 = false ∧ (op = .lt ∨ op = .gt)

/-- That guard cannot be made: there is no room, or no variable holds the constant. -/
def Declined (S : Supply) (v : Variable) (op : BinOp) (cv : BitVec 64) : Prop :=
  let k := if op = .lt then cv-1#64 else cv
  S.room = false ∨ foldCmp v op cv = none ∧ initAuxTiered S.wide v.width v.signed k k = none

section Compiled

variable {guard : ℕ} (hok : c.Ok) (htab : TablesOk c) (hx : x < c.nVars) (hv : (c.vars x).Ok)
  (hg : IsGuard c guard)

theorem reifyEq_none (hr : S.room = true) : (reifyEq S c x cv).1 = none ↔
    initAuxTiered S.wide (c.vars x).width (c.vars x).signed cv cv = none := by
  rw [reifyEq,if_pos hr]
  dsimp only
  cases initAuxTiered S.wide (c.vars x).width (c.vars x).signed cv cv <;> simp

theorem reifyLe_none {k : BitVec 64} (hr : S.room = true) : (reifyLe S c x k).1 = none ↔
    initAuxTiered S.wide (c.vars x).width (c.vars x).signed k k = none := by
  rw [reifyLe,if_pos hr]
  dsimp only
  cases initAuxTiered S.wide (c.vars x).width (c.vars x).signed k k <;> simp

theorem negated_none (hr : S.room = true) :
    (negated S p).1 = none ↔ p.1 = none := by
  obtain ⟨o,d⟩ := p
  cases o <;> simp [negated,hr,Prod.map]

theorem boolToVarCmp_none (hop : op = .neq ∨ op = .lt ∨ op = .gt) :
    (boolToVarCmp S c op x cv).1 = none ↔ Declined S (c.vars x) op cv := by
  unfold boolToVarCmp Declined
  cases hf : foldCmp (c.vars x) op cv with
  | some t => cases hr : S.room <;> simp
  | none =>
    cases hr : S.room with
    | false => rcases hop with rfl | rfl | rfl <;> simp [reifyEq,reifyLe,negated,hr]
    | true =>
      simp only [Bool.true_eq_false,false_or,true_and]
      rcases hop with rfl | rfl | rfl
      · rw [negated_none hr,reifyEq_none hr,if_neg (by simp)]
      · rw [reifyLe_none hr,if_pos rfl]
      · rw [negated_none hr,reifyLe_none hr,if_neg (by simp)]

include hok htab hx hv hg

theorem reifyGated_gates (hop : op = .neq ∨ op = .lt ∨ op = .gt) :
    Gates c guard x (fun m => Compares op m (varOrd (c.vars x) cv))
        (reifyGated S c op x cv guard) ↔
      Declined S (c.vars x) op cv ∨
      (∀ σ, Within c σ → σ guard ≠ 0 → Compares op (σ x) (varOrd (c.vars x) cv)) ∨
      ((c.vars guard).tier1 = false ∧ Kept S c (reifiers (c.vars x) op cv+1) ∧
        ¬Wraps (c.vars x) op cv) := by
  have hcmp : op.isCmp = true := by rcases hop with rfl | rfl | rfl <;> rfl
  have hnone : (boolToVarCmp S c op x cv).1 = none ↔ Declined S (c.vars x) op cv :=
    boolToVarCmp_none hop
  unfold reifyGated
  cases hb : boolToVarCmp S c op x cv with
  | mk o d =>
    rw [hb] at hnone
    cases o with
    | none => exact iff_of_true gates_none (.inl (hnone.mp rfl))
    | some g =>
      have hd : ¬Declined S (c.vars x) op cv := fun h => by simpa using hnone.mpr h
      obtain ⟨P,hP⟩ := boolToVarCmp_reifies hok htab hx hv hcmp hb
      have hw : ∀ m ∈ (c.vars x).dom, Compares op m (varOrd (c.vars x) cv) →
          Guarded (c.vars x) op cv m := fun m hm hR => by
        unfold Guarded
        split_ifs with hw
        · rcases hw.1 with h | h
          · exact h
          · simp [h] at hop
        · exact hR
      have himp := implies_iff (A:=Kept S c (reifiers (c.vars x) op cv+1) ∧
        (c.vars guard).tier1 = false) hx hg hw
      rw [(hP.encodes hx hg).gates]
      simp only [and_imp] at himp
      rw [himp]
      simp only [hd,false_or]
      refine or_congr_right' fun hno => ?_
      constructor
      · rintro ⟨⟨hk,h0⟩,hT⟩
        refine ⟨h0,hk,fun hwrap => hno fun σ hσ hne => hT σ hσ hne ?_⟩
        have hlt : op = .lt := hwrap.1.resolve_right (by rintro rfl; simp at hop)
        rwa [Guarded,if_pos hwrap]
      · rintro ⟨h0,hk,hwrap⟩
        refine ⟨⟨hk,h0⟩,fun σ _ _ hT => ?_⟩
        rwa [Guarded,if_neg hwrap] at hT

omit hok htab hv in
theorem bound_gates {k : ℤ} {isUb : Bool} {R : ℤ → Prop} (hn : c'.nVars = c.nVars)
    (hA : Adds S c c' 1 fun τ => True ∧ (Kept S c 1 → (c.vars guard).tier1 = false → τ guard = 1 →
      Bounds isUb k (τ x)))
    (hR : ∀ m ∈ (c.vars x).dom, R m ↔ Bounds isUb k m) :
    Gates c guard x R (1,c') ↔ (∀ σ, Within c σ → σ guard ≠ 0 → R (σ x)) ∨
      ((c.vars guard).tier1 = false ∧ Kept S c 1) := by
  have himp := implies_iff (A:=Kept S c 1 ∧ (c.vars guard).tier1 = false) (T:=Bounds isUb k) hx hg
    fun m hm => (hR m hm).mp
  simp only [and_imp] at himp
  rw [(hA.encodes hn).gates]
  simp only [true_and]
  rw [himp]
  refine or_congr_right' fun _ => ⟨fun h => ⟨h.1.2,h.1.1⟩,fun h => ⟨⟨h.2,h.1⟩,?_⟩⟩
  exact fun σ hσ _ hT => (hR _ (hσ x hx)).mpr hT

omit hok htab hx hv in
theorem equal_gates {k : ℤ} (hn : c'.nVars = c.nVars)
    (hA : Adds S c c' 2 fun τ =>
      (True ∧ (Kept S c 1 → (c.vars guard).tier1 = false → τ guard = 1 → Bounds true k (τ x))) ∧
        (Kept S c 2 → (c.vars guard).tier1 = false → τ guard = 1 → Bounds false k (τ x))) :
    Gates c guard x (· = k) (1,c') ↔ (∀ σ, Within c σ → σ guard ≠ 0 → σ x = k) ∨
      ((c.vars guard).tier1 = false ∧
        (Kept S c 2 ∨ Kept S c 1 ∧ ∀ σ, Within c σ → σ guard ≠ 0 → k ≤ σ x)) := by
  rw [(hA.encodes hn).gates]
  simp only [true_and,Bounds,if_true,false_eq_true,if_false]
  constructor
  · intro h
    by_cases h0 : (c.vars guard).tier1 = false
    swap
    · exact .inl fun σ hσ hne => ((h σ hσ).mp ⟨fun _ h => absurd h h0,fun _ h => absurd h h0⟩).resolve_left hne
    by_cases h2 : Kept S c 2
    · exact .inr ⟨h0,.inl h2⟩
    by_cases h1 : Kept S c 1
    · refine .inr ⟨h0,.inr ⟨h1,fun σ hσ hne => ?_⟩⟩
      by_contra hlt
      have := ((h σ hσ).mp ⟨fun _ _ _ => by omega,fun h => absurd h h2⟩).resolve_left hne
      omega
    · exact .inl fun σ hσ hne => ((h σ hσ).mp ⟨fun h => absurd h h1,fun h => absurd h h2⟩).resolve_left hne
  · intro h σ hσ
    have hval := hg.value hσ
    constructor
    · rintro ⟨hub,hlb⟩
      by_cases hne : σ guard = 0
      · exact .inl hne
      have hone : σ guard = 1 := by omega
      rcases h with h | ⟨h0,h2 | ⟨h1,h⟩⟩
      · exact .inr (h σ hσ hne)
      · exact .inr (le_antisymm (hub h2.of_succ h0 hone) (hlb h2 h0 hone))
      · exact .inr (le_antisymm (hub h1 h0 hone) (h σ hσ hne))
    · intro hR
      refine ⟨fun _ _ _ => ?_,fun _ _ _ => ?_⟩ <;> omega

omit hx hv in
theorem decided_gates {R : ℤ → Prop} (t : Bool) :
    Gates c guard x R (if t then (1,c) else bounded (ctxTightenUb64 c guard 0#64)) ↔
      ∀ σ, Within c σ → σ guard ≠ 0 → (t = true ↔ R (σ x)) := by
  cases t with
  | true =>
    rw [if_pos rfl,((Adds.refl ⟨true,true,true⟩ hok htab).encodes rfl).gates]
    simp only [true_iff]
    exact forall₂_congr fun σ _ => or_iff_not_imp_left
  | false =>
    rw [if_neg Bool.false_ne_true]
    have htabs := Op.run_tables c (.tighten .ub64 guard 0#64)
    have hnp : (ctxTightenUb64 c guard 0#64).2.nProps = c.nProps := htabs.nProps
    have hnv : (ctxTightenUb64 c guard 0#64).2.nVars = c.nVars := htabs.nVars
    have ht := ctxTightenUb64_tightened 0#64 hg.ok
    have hdom := ht.dom
    have hzero : Tighten.ub64.num (c.vars guard) 0#64 = 0 := varOrd_zero _
    generalize ctxTightenUb64 c guard 0#64 = p at *
    obtain ⟨r,d⟩ := p
    simp only [hzero,Tighten.Asks,Tighten.isUb,if_true] at hdom
    dsimp only at hnp hnv ht hdom
    simp only [false_eq_true,false_iff]
    by_cases hr : r = .conflict
    · have hpos : ∀ σ, Within c σ → σ guard ≠ 0 := fun σ hσ h0 =>
        hdom.1 hr _ (hσ guard hg.lt) h0.le
      simp only [Gates,bounded,hr,if_true,true_implies]
      constructor
      · exact fun h σ hσ _ hR => h.1 σ hσ (.inr hR)
      · refine fun h => ⟨fun σ hσ hc => hc.elim (hpos σ hσ) (h σ hσ (hpos σ hσ)),by simp⟩
    · have hother : ∀ v, v ≠ guard → d.vars v = c.vars v := fun v hne => by
        generalize d.vars = vars' at ht
        cases ht with
        | conflict _ _ => exact absurd rfl hr
        | ok v' _ _ _ _ _ => exact update_of_ne hne _ _
      have hwithin : ∀ τ, Within d τ ↔ Within c τ ∧ τ guard ≤ 0 := fun τ => by
        have hguard := (hdom.2 hr).2.2 (τ guard)
        constructor
        · intro hτ
          obtain ⟨h1,h2⟩ := hguard.mp (hτ guard (hnv.symm ▸ hg.lt))
          refine ⟨fun v hv => ?_,h2⟩
          by_cases hne : v = guard
          · exact hne ▸ h1
          · exact hother v hne ▸ hτ v (hnv.symm ▸ hv)
        · rintro ⟨hτ,h0⟩ v hv
          by_cases hne : v = guard
          · subst hne
            exact hguard.mpr ⟨hτ v hg.lt,h0⟩
          · rw [hother v hne]
            exact hτ v (hnv ▸ hv)
      have henc : Encodes c d fun σ => σ guard ≤ 0 := fun σ => by
        constructor
        · rintro ⟨τ,ha,hτ,-⟩
          obtain ⟨h1,h2⟩ := (hwithin τ).mp hτ
          exact ⟨fun v hv => ha v hv ▸ h1 v hv,(ha guard hg.lt).ge.trans h2⟩
        · exact fun h => ⟨σ,fun _ _ => rfl,(hwithin σ).mpr h,
            fun s _ i h1 h2 => absurd (h1.trans_lt h2) (by omega)⟩
      rw [bounded,if_neg hr,henc.gates]
      refine forall₂_congr fun σ hσ => ?_
      have hval := hg.value hσ
      have hle : σ guard ≤ 0 ↔ σ guard = 0 := by omega
      rw [hle]
      tauto

/-- The constant is an end of the 32 bit numbers or beyond it, and the variable of the small
tier. -/
def Folds (v : Variable) (cv : BitVec 64) : Prop :=
  v.tier0 = true ∧ (cv.toInt ≤ -2^31 ∨ 2^31-1 ≤ cv.toInt)

def MissesEnd (op : BinOp) (cv : BitVec 64) : Prop :=
  cv.toInt = -2^31 ∧ (op = .eq ∨ op = .neq ∨ op = .lte ∨ op = .gt) ∨
    cv.toInt = 2^31-1 ∧ (op = .eq ∨ op = .neq ∨ op = .lt ∨ op = .gte)

/-- When the comparison `x op cv`, the variable on the left, is compiled to the implication. -/
structure Handled (S : Supply) (c : Ctx) (op : BinOp) (x : ℕ) (cv : BitVec 64) (guard : ℕ) :
    Prop where
  folded : Folds (c.vars x) cv → MissesEnd op cv → ∀ σ, Within c σ → σ guard ≠ 0 → σ x ≠ cv.toInt
  reified : ¬Folds (c.vars x) cv → Reifying (c.vars x) op → Declined S (c.vars x) op cv ∨
    (∀ σ, Within c σ → σ guard ≠ 0 → Compares op (σ x) (varOrd (c.vars x) cv)) ∨
    ((c.vars guard).tier1 = false ∧ Kept S c (reifiers (c.vars x) op cv+1) ∧ ¬Wraps (c.vars x) op cv)
  equal : ¬Folds (c.vars x) cv → op = .eq → (∀ σ, Within c σ → σ guard ≠ 0 → σ x = varOrd (c.vars x) cv) ∨
    ((c.vars guard).tier1 = false ∧ (Kept S c 2 ∨
      Kept S c 1 ∧ ∀ σ, Within c σ → σ guard ≠ 0 → varOrd (c.vars x) cv ≤ σ x))
  ordered : ¬Folds (c.vars x) cv → ¬Reifying (c.vars x) op → op ≠ .eq →
    (∀ σ, Within c σ → σ guard ≠ 0 → Compares op (σ x) (varOrd (c.vars x) cv)) ∨
    ((c.vars guard).tier1 = false ∧ Kept S c 1)

omit hok htab hx hv hg in
theorem missesEnd_spec (hv : (c.vars x).Ok) (hx : x < c.nVars) (hop : op.isCmp = true)
    (hf : Folds (c.vars x) cv) (hσ : Within c σ) :
    (endTruth op cv = true ↔ Compares op (σ x) (varOrd (c.vars x) cv)) ↔
      (MissesEnd op cv → σ x ≠ cv.toInt) := by
  obtain ⟨ht,hcv⟩ := hf
  have h0 : (c.vars x).tier1 = false := by simpa [hv.tier0] using ht
  have hb := hσ x hx
  have h1 := hb.1
  have h2 := hb.2
  rw [hv.least_eq h0] at h1
  rw [hv.most_eq h0] at h2
  have h3 := le_toInt (c.vars x).lo
  have h4 := BitVec.toInt_lt (x := (c.vars x).hi)
  rw [varOrd_plain (hv.not_beyond h0)]
  unfold MissesEnd endTruth
  cases op <;> simp only [BinOp.isCmp,false_eq_true] at hop <;>
    simp only [Compares,reduceCtorEq,or_false,false_or,or_true,and_true,and_false,false_eq_true,
      false_iff,true_iff,Bool.not_eq_true',decide_eq_false_iff_not,decide_eq_true_eq] <;> omega

section Handled

omit hok htab hx hv hg

variable (hnf : ¬Folds (c.vars x) cv)

include hnf

theorem handled_reified (hr : Reifying (c.vars x) op) (hop : op = .neq ∨ op = .lt ∨ op = .gt) :
    Handled S c op x cv guard ↔ Declined S (c.vars x) op cv ∨
      (∀ σ, Within c σ → σ guard ≠ 0 → Compares op (σ x) (varOrd (c.vars x) cv)) ∨
      ((c.vars guard).tier1 = false ∧ Kept S c (reifiers (c.vars x) op cv+1) ∧ ¬Wraps (c.vars x) op cv) :=
  ⟨fun h => h.reified hnf hr,fun h => ⟨fun hf => absurd hf hnf,fun _ _ => h,
    fun _ he => by simp [he] at hop,fun _ hno => absurd hr hno⟩⟩

theorem handled_equal : Handled S c .eq x cv guard ↔
    (∀ σ, Within c σ → σ guard ≠ 0 → σ x = varOrd (c.vars x) cv) ∨
      ((c.vars guard).tier1 = false ∧ (Kept S c 2 ∨
        Kept S c 1 ∧ ∀ σ, Within c σ → σ guard ≠ 0 → varOrd (c.vars x) cv ≤ σ x)) :=
  ⟨fun h => h.equal hnf rfl,fun h => ⟨fun hf => absurd hf hnf,
    fun _ hr => by simp [Reifying] at hr,fun _ _ => h,fun _ _ hne => absurd rfl hne⟩⟩

theorem handled_ordered (hr : ¬Reifying (c.vars x) op) (hop : op ≠ .eq) :
    Handled S c op x cv guard ↔
      (∀ σ, Within c σ → σ guard ≠ 0 → Compares op (σ x) (varOrd (c.vars x) cv)) ∨
      ((c.vars guard).tier1 = false ∧ Kept S c 1) :=
  ⟨fun h => h.ordered hnf hr hop,fun h => ⟨fun hf => absurd hf hnf,fun _ hr' => absurd hr' hr,
    fun _ he => absurd he hop,fun _ _ _ => h⟩⟩

end Handled

theorem implication64_gates {R : ℤ → Prop} (isUb : Bool)
    (hR : ∀ m ∈ (c.vars x).dom, R m ↔ Bounds isUb (varOrd (c.vars x) cv) m) :
    Gates c guard x R (1,propAddImplication64 S.block c guard x cv isUb 0) ↔
      (∀ σ, Within c σ → σ guard ≠ 0 → R (σ x)) ∨ ((c.vars guard).tier1 = false ∧ Kept S c 1) :=
  bound_gates hx hg (addProp_vars hok htab).2
    ((Adds.refl S hok htab).implication64 hg hx hv isUb cv) hR

theorem implication32_gates {R : ℤ → Prop} (isUb : Bool) (h0 : (c.vars x).tier1 = false)
    (k : BitVec 32) (hR : ∀ m ∈ (c.vars x).dom, R m ↔ Bounds isUb k.toInt m) :
    Gates c guard x R (1,propAddImplication32 S.block c guard x k isUb 0) ↔
      (∀ σ, Within c σ → σ guard ≠ 0 → R (σ x)) ∨ ((c.vars guard).tier1 = false ∧ Kept S c 1) := by
  have ht : (c.vars x).tier0 = true := by rw [hv.tier0,h0]; rfl
  refine bound_gates hx hg ?_ ((Adds.refl S hok htab).implication32 hg hx hv isUb h0 k) hR
  rw [propAddImplication32,ht,if_neg (by simp)]
  exact (addProp_vars hok htab).2

theorem equal64_gates :
    Gates c guard x (· = varOrd (c.vars x) cv) (1,propAddImplication64 S.block
        (propAddImplication64 S.block c guard x cv true 0) guard x cv false 0) ↔
      (∀ σ, Within c σ → σ guard ≠ 0 → σ x = varOrd (c.vars x) cv) ∨
      ((c.vars guard).tier1 = false ∧ (Kept S c 2 ∨
        Kept S c 1 ∧ ∀ σ, Within c σ → σ guard ≠ 0 → varOrd (c.vars x) cv ≤ σ x)) := by
  have h1 := (Adds.refl S hok htab).implication64 hg hx hv true cv
  have hsame := addProp_vars (S:=S) (f:=fireImplication64 guard x cv true) (W:=[guard,x]) hok htab
  have hsame' : (propAddImplication64 S.block c guard x cv true 0).vars = c.vars ∧
      (propAddImplication64 S.block c guard x cv true 0).nVars = c.nVars := hsame
  have h2 := h1.implication64 ((isGuard_iff hsame').mpr hg) (hsame'.2.symm ▸ hx)
    (hsame'.1.symm ▸ hv) false cv
  rw [hsame'.1] at h2
  exact equal_gates hg ((addProp_vars h1.ok h1.tables).2.trans hsame.2) h2

theorem equal32_gates (h0 : (c.vars x).tier1 = false) (k : BitVec 32)
    (hk : k.toInt = varOrd (c.vars x) cv) :
    Gates c guard x (· = varOrd (c.vars x) cv) (1,propAddImplication32 S.block
        (propAddImplication32 S.block c guard x k true 0) guard x k false 0) ↔
      (∀ σ, Within c σ → σ guard ≠ 0 → σ x = varOrd (c.vars x) cv) ∨
      ((c.vars guard).tier1 = false ∧ (Kept S c 2 ∨
        Kept S c 1 ∧ ∀ σ, Within c σ → σ guard ≠ 0 → varOrd (c.vars x) cv ≤ σ x)) := by
  have ht : (c.vars x).tier0 = true := by rw [hv.tier0,h0]; rfl
  have h1 := (Adds.refl S hok htab).implication32 hg hx hv true h0 k
  have hsame : (propAddImplication32 S.block c guard x k true 0).vars = c.vars ∧
      (propAddImplication32 S.block c guard x k true 0).nVars = c.nVars := by
    rw [propAddImplication32,ht,if_neg (by simp)]
    exact addProp_vars hok htab
  have h2 := h1.implication32 ((isGuard_iff hsame).mpr hg) (hsame.2.symm ▸ hx)
    (hsame.1.symm ▸ hv) false (hsame.1.symm ▸ h0) k
  rw [hsame.1] at h2
  rw [← hk]
  refine equal_gates hg ?_ h2
  rw [propAddImplication32,hsame.1,ht,if_neg (by simp)]
  exact (addProp_vars h1.ok h1.tables).2.trans hsame.2

/-- The comparison under the guard is compiled to the implication exactly when it is handled. -/
theorem gates_iff (hop : op.isCmp = true) :
    Gates c guard x (fun m => Compares op m (varOrd (c.vars x) cv))
      (compileGatedConstraint S c op x cv false guard) ↔ Handled S c op x cv guard := by
  unfold compileGatedConstraint
  simp only [false_eq_true,if_false]
  cases ht : (c.vars x).tier0 with
  | false =>
    have hnf : ¬Folds (c.vars x) cv := fun h => by simp [h.1] at ht
    rw [if_pos rfl]
    by_cases hdirect : op = .eq ∨ op = .lte ∨ op = .gte
    · have hnr : ¬Reifying (c.vars x) op := by
        rintro (h | ⟨-,h | h⟩) <;> simp [h] at hdirect
      rw [if_pos hdirect]
      rcases hdirect with rfl | rfl | rfl
      · rw [handled_equal hnf]
        exact equal64_gates hok htab hx hv hg
      · rw [handled_ordered hnf hnr (by simp)]
        exact implication64_gates hok htab hx hv hg true fun m _ => Iff.rfl
      · rw [handled_ordered hnf hnr (by simp)]
        exact implication64_gates hok htab hx hv hg false fun m _ => Iff.rfl
    · rw [if_neg hdirect]
      have hreif : op = .neq ∨ op = .lt ∨ op = .gt := by cases op <;> simp_all [BinOp.isCmp]
      rw [handled_reified hnf ?_ hreif]
      · exact reifyGated_gates hok htab hx hv hg hreif
      · exact hreif.imp_right fun h => ⟨ht,h⟩
  | true =>
    have h0 : (c.vars x).tier1 = false := by simpa [hv.tier0] using ht
    rw [if_neg (by simp)]
    by_cases hfold : cv.toInt ≤ -2^31 ∨ 2^31-1 ≤ cv.toInt
    · rw [if_pos hfold]
      have hf : Folds (c.vars x) cv := ⟨ht,hfold⟩
      rw [decided_gates hok htab hg]
      constructor
      · exact fun h => ⟨fun _ hm σ hσ hne => (missesEnd_spec hv hx hop hf hσ).mp (h σ hσ hne) hm,
          fun h => absurd hf h,fun h => absurd hf h,fun h => absurd hf h⟩
      · exact fun h σ hσ hne => (missesEnd_spec hv hx hop hf hσ).mpr fun hm => h.folded hf hm σ hσ hne
    · rw [if_neg hfold]
      have hnf : ¬Folds (c.vars x) cv := fun h => hfold h.2
      rw [not_or,not_le,not_le] at hfold
      obtain ⟨h1,h2⟩ := hfold
      have hplain : varOrd (c.vars x) cv = cv.toInt := varOrd_plain (hv.not_beyond h0) cv
      have hcut : (cv.setWidth 32).toInt = cv.toInt := setWidth32_toInt h1.le (by omega)
      have hnr : op ≠ .neq → ¬Reifying (c.vars x) op := fun hne hr => by
        simp [Reifying,ht,hne] at hr
      cases op <;> simp only [BinOp.isCmp,false_eq_true] at hop
      case eq =>
        rw [handled_equal hnf]
        exact equal32_gates hok htab hx hv hg h0 _ (hcut.trans hplain.symm)
      case neq =>
        rw [handled_reified hnf (.inl rfl) (.inl rfl)]
        exact reifyGated_gates hok htab hx hv hg (.inl rfl)
      case lte =>
        rw [handled_ordered hnf (hnr (by simp)) (by simp)]
        exact implication32_gates hok htab hx hv hg true h0 _ fun m _ => by
          rw [hcut,hplain]
          rfl
      case gte =>
        rw [handled_ordered hnf (hnr (by simp)) (by simp)]
        exact implication32_gates hok htab hx hv hg false h0 _ fun m _ => by
          rw [hcut,hplain]
          rfl
      case lt =>
        have hpred : (cv-1#64).toInt = cv.toInt-1 := by
          rw [BitVec.toInt_sub]
          exact Int.bmod_eq_of_le (by simp; omega) (by simp; omega)
        rw [handled_ordered hnf (hnr (by simp)) (by simp)]
        refine implication32_gates hok htab hx hv hg true h0 _ fun m _ => ?_
        rw [setWidth32_toInt (by omega) (by omega),hpred,hplain]
        change m < cv.toInt ↔ m ≤ cv.toInt-1
        omega
      case gt =>
        have hsucc : (cv+1#64).toInt = cv.toInt+1 := by
          rw [BitVec.toInt_add]
          exact Int.bmod_eq_of_le (by simp; omega) (by simp; omega)
        rw [handled_ordered hnf (hnr (by simp)) (by simp)]
        refine implication32_gates hok htab hx hv hg false h0 _ fun m _ => ?_
        rw [setWidth32_toInt (by omega) (by omega),hsucc,hplain]
        exact Iff.rfl

end Compiled

/-- The constant may stand on either side. -/
theorem compileGatedConstraint_exact (S : Supply) (c : Ctx) (op : BinOp) (x : ℕ) (cv : BitVec 64)
    (flip : Bool) (guard : ℕ) (hop : op.isCmp = true) (hok : c.Ok) (htab : TablesOk c)
    (hx : x < c.nVars) (hv : (c.vars x).Ok) (hg : IsGuard c guard) :
    Gates c guard x (fun m => ComparesTo op flip m (varOrd (c.vars x) cv))
      (compileGatedConstraint S c op x cv flip guard) ↔
      Handled S c (if flip then flipped op else op) x cv guard := by
  have heff : (if flip then flipped op else op).isCmp = true := by
    cases flip <;> cases op <;> simp_all [flipped,BinOp.isCmp]
  have hrun : compileGatedConstraint S c op x cv flip guard =
      compileGatedConstraint S c (if flip then flipped op else op) x cv false guard := rfl
  simp only [comparesTo_iff]
  rw [hrun]
  exact gates_iff hok htab hx hv hg heff

def guardedInt : Ctx :=
  {oneProp with
    vars := fun v => if v = 0 then openBit else initTier0 32 true (ofInt 64 (-2^31)) 0x7fffffff
    nVars := 2}

theorem guardedInt_ok : guardedInt.Ok ∧ TablesOk guardedInt ∧ (guardedInt.vars 1).Ok ∧
    IsGuard guardedInt 0 := by
  refine ⟨⟨⟨_,QueueOk.of_empty rfl fun _ => rfl⟩,⟨by simp [guardedInt,oneProp],
    by simp [guardedInt,oneProp]⟩,oneProp_ok.priority,oneProp_ok.watchers,oneProp_ok.refs⟩,
    ⟨fun i r h => ?_,by decide,fun _ _ => rfl,fun _ _ => rfl,fun ix h => by
      simp [guardedInt,oneProp] at h⟩,?_,?_⟩
  · simp only [guardedInt,oneProp] at h ⊢
    split_ifs at h with hi
    exact ⟨by omega,hi.symm⟩
  · exact (initTier0_spec (by decide) (by decide) (by decide) (by decide) (by decide) (by decide)
      (by decide)).1
  · exact ⟨by decide,openBit_spec.1,openBit_spec.2.1.ge,openBit_spec.2.2.le,fun h => absurd h (by decide)⟩

/-- `guard → x ≤ 5`. -/
theorem compileGatedConstraint_exact_small :
    Gates guardedInt 0 1 (fun m => ComparesTo .lte false m (varOrd (guardedInt.vars 1) 5#64))
      (compileGatedConstraint ⟨true,true,true⟩ guardedInt .lte 1 5#64 false 0) :=
  (compileGatedConstraint_exact ⟨true,true,true⟩ guardedInt .lte 1 5#64 false 0 rfl
    guardedInt_ok.1 guardedInt_ok.2.1 (by decide) guardedInt_ok.2.2.1 guardedInt_ok.2.2.2).mpr
    ⟨fun h => absurd h.2 (by decide),fun _ h => h.elim (by simp) fun h => h.2.elim (by simp) (by simp),
      fun _ h => by simp at h,fun _ _ _ => .inr ⟨rfl,rfl,by decide⟩⟩

/-- `guard → x = -2^31` is compiled to `guard = 0`. -/
theorem compileGatedConstraint_wrong :
    (compileGatedConstraint ⟨true,true,true⟩ guardedInt .eq 1 (ofInt 64 (-2^31)) false 0).1 = 1 ∧
    ¬Gates guardedInt 0 1
      (fun m => ComparesTo .eq false m (varOrd (guardedInt.vars 1) (ofInt 64 (-2^31))))
      (compileGatedConstraint ⟨true,true,true⟩ guardedInt .eq 1 (ofInt 64 (-2^31)) false 0) := by
  refine ⟨by decide,fun h => ?_⟩
  have hh := (gates_iff guardedInt_ok.1 guardedInt_ok.2.1 (by decide) guardedInt_ok.2.2.1
    guardedInt_ok.2.2.2 rfl).mp h
  refine hh.folded ⟨rfl,by decide⟩ (.inl ⟨by decide,.inl rfl⟩)
    (fun v => if v = 0 then 1 else -2^31) (fun v hv => ?_) (by simp) (by decide)
  have : v = 0 ∨ v = 1 := by
    have : v < 2 := hv
    omega
  rcases this with rfl | rfl
  · rw [show guardedInt.vars 0 = openBit from rfl,openBit_dom]
    simp
  · exact ⟨by decide,by decide⟩

end Gated
end Solver
end DvSolve
