import DvSolve.CompileGate

/-! What compilation under a guard adds. A context is compared with the one it grew from: the
propagators in between are read as relations of the values that the variables are fixed to, and
the variables in between are quantified away. -/
namespace DvSolve
namespace Solver

open Sv (BinOp)

variable {v : Variable} {s : Engine} {W : List ℕ} {τ σ : ℕ → ℤ} {g x y r a b : ℕ}
variable {f : Fire} {t : Tighten} {k : BitVec 64} {ids : List ℕ}

section Fixed

theorem Pinned.typed {vars vars' : ℕ → Variable} (hp : Pinned W vars τ) (ht : Typed W vars vars')
    (hin : Inside W vars' τ) : Pinned W vars' τ :=
  ⟨fun v hv => le_antisymm (hin.least v hv) ((hp.least v hv).ge.trans (ht.least v)),
    fun v hv => le_antisymm ((ht.most v).trans (hp.most v hv).le) (hin.most v hv)⟩

theorem Fire.conflict_iff {R : Prop} (hk : R → f.wp (fun res _ => res ≠ .conflict) s.ctx.vars)
    (hc : ¬R → f.wp (fun res _ => res = .conflict) s.ctx.vars) :
    (f.run s).1 ≠ .conflict ↔ R :=
  ⟨fun h => by_contra fun hR => h (Fire.run_of_wp (hc hR)),fun hR => Fire.run_of_wp (hk hR)⟩

theorem tighten_fixed (hok : ∀ v ∈ W, (s.ctx.vars v).Ok) (hp : Pinned W s.ctx.vars τ) (hx : x ∈ W)
    (hfit : t.Fits (s.ctx.vars x)) :
    ((Fire.tighten t x k .done).run s).1 ≠ .conflict ↔ t.Asks (t.num (s.ctx.vars x) k) (τ x) := by
  refine Fire.conflict_iff (fun hR => ?_) fun hR => ?_
  · exact Fire.wp_tighten (.refl hok) hp.inside hx hfit hR fun _ _ _ => by simp [Fire.wp]
  · exact Fire.wp_tighten_pinned (.refl hok) hp hx hfit (fun hin => absurd hin hR) fun _ => rfl

theorem implication_fixed (hok : ∀ v ∈ [g,x], (s.ctx.vars v).Ok) (hp : Pinned [g,x] s.ctx.vars τ)
    (hsmall : (s.ctx.vars g).tier1 = false) (hg : τ g = 0 ∨ τ g = 1) (hfit : t.Fits (s.ctx.vars x)) :
    ((Fire.read g fun vg => if vg.hi = 0#32 then .done .entailed
      else if vg.lo = 1#32 then .tighten t x k .done else .done .ok).run s).1 ≠ .conflict ↔
      (τ g = 1 → t.Asks (t.num (s.ctx.vars x) k) (τ x)) := by
  have hlo := ((hok g (by simp)).least_eq hsmall).symm.trans (hp.least g (by simp))
  have hhi := ((hok g (by simp)).most_eq hsmall).symm.trans (hp.most g (by simp))
  rw [Fire.run]
  rcases hg with hg | hg
  · rw [if_pos (BitVec.eq_of_toInt_eq (by rw [hhi,hg]; rfl))]
    simp [Fire.run,hg]
  · have hne : (s.ctx.vars g).hi ≠ 0#32 := fun h => by rw [h,hg] at hhi; simp at hhi
    rw [if_neg hne,if_pos (BitVec.eq_of_toInt_eq (by rw [hlo,hg]; rfl)),
      tighten_fixed hok hp (by simp) hfit]
    simp [hg]

theorem implication_idle (h : (s.ctx.vars g).hi = 0#32) :
    ((Fire.read g fun vg => if vg.hi = 0#32 then .done .entailed
      else if vg.lo = 1#32 then .tighten t x k .done else .done .ok).run s).1 ≠ .conflict := by
  simp [Fire.run,h]

theorem toInt_ofInt32 {n : ℤ} (h1 : -2^31 ≤ n) (h2 : n < 2^31) : (BitVec.ofInt 32 n).toInt = n := by
  rw [BitVec.toInt_ofInt]
  exact Int.bmod_eq_of_le (by norm_num; omega) (by norm_num; omega)

theorem bound32_num {n : ℤ} (h1 : -2^31 ≤ n) (h2 : n < 2^31) :
    ((bound32 n).setWidth 32).toInt = n := by
  rw [bound32,setWidth_signExtend,toInt_ofInt32 h1 h2]

/-- The sum may leave the 32 bit numbers: then the cut bounds and the way back conflict. -/
theorem fireBoundsAdd32_fixed (hf : Fields [r,a,b] s.ctx.vars) (hp : Pinned [r,a,b] s.ctx.vars τ) :
    ((fireBoundsAdd32 r a b).run s).1 ≠ .conflict ↔ τ r = τ a+τ b := by
  have hr : r ∈ [r,a,b] := by simp
  have ha : a ∈ [r,a,b] := by simp
  have hb : b ∈ [r,a,b] := by simp
  have hlo : ∀ {vars' v}, v ∈ [r,a,b] → Typed [r,a,b] s.ctx.vars vars' → Pinned [r,a,b] vars' τ →
      (vars' v).lo.toInt = τ v := fun hv ht hp => (hf.lo hv ht).trans (hp.least _ hv)
  have hhi : ∀ {vars' v}, v ∈ [r,a,b] → Typed [r,a,b] s.ctx.vars vars' → Pinned [r,a,b] vars' τ →
      (vars' v).hi.toInt = τ v := fun hv ht hp => (hf.hi hv ht).trans (hp.most _ hv)
  have ht := Typed.refl hf.ok
  have hrange : ∀ v ∈ [r,a,b], -2^31 ≤ τ v ∧ τ v < 2^31 := fun v hv => by
    have h1 := BitVec.le_toInt (s.ctx.vars v).lo
    have h2 := BitVec.toInt_lt (x := (s.ctx.vars v).lo)
    rw [hlo hv ht hp] at h1 h2
    exact ⟨h1,h2⟩
  obtain ⟨r1,r2⟩ := hrange r hr
  obtain ⟨a1,a2⟩ := hrange a ha
  obtain ⟨b1,b2⟩ := hrange b hb
  constructor
  · refine fun hrun => by_contra fun hne => hrun ?_
    suffices h : (fireBoundsAdd32 r a b).wp (fun res _ => res = .conflict) s.ctx.vars from
      Fire.run_of_wp h
    have hcut : -2^31 ≤ clampI32 (τ a+τ b) ∧ clampI32 (τ a+τ b) < 2^31 := by
      unfold clampI32
      omega
    have hclamp := bound32_num hcut.1 hcut.2
    simp only [fireBoundsAdd32,Fire.wp,hlo ha ht hp,hhi ha ht hp,hlo hb ht hp,hhi hb ht hp]
    refine Fire.wp_need_pinned ht hp hr (hf.small r hr) (fun _ => rfl) fun h1 vars₁ ht₁ hp₁ => ?_
    refine Fire.wp_need_pinned ht₁ hp₁ hr (hf.small r hr) (fun _ => rfl) fun h2 vars₂ ht₂ hp₂ => ?_
    simp only [Tighten.isUb,Tighten.num,Bool.false_eq_true,if_false,if_true,hclamp] at h1 h2
    have hend : τ r = clampI32 (τ a+τ b) := le_antisymm h2 h1
    have hout : 2^31-1 < τ a+τ b ∧ τ r = 2^31-1 ∨ τ a+τ b < -2^31 ∧ τ r = -2^31 := by
      unfold clampI32 at hend
      omega
    have hback : -2^31 ≤ τ r-τ b ∧ τ r-τ b < 2^31 := by omega
    simp only [Fire.wp,hlo hr ht₂ hp₂,hhi hr ht₂ hp₂,max_eq_right hback.1,
      min_eq_left (show τ r-τ b ≤ 2^31-1 by omega)]
    have hnum := bound32_num hback.1 hback.2
    refine Fire.wp_need_pinned ht₂ hp₂ ha (hf.small a ha) (fun _ => rfl) fun h3 vars₃ ht₃ hp₃ => ?_
    refine Fire.wp_need_pinned ht₃ hp₃ ha (hf.small a ha) (fun _ => rfl) fun h4 => ?_
    simp only [Tighten.isUb,Tighten.num,Bool.false_eq_true,if_false,if_true,hnum] at h3 h4
    omega
  · intro heq
    suffices h : (fireBoundsAdd32 r a b).wp (fun res _ => res ≠ .conflict) s.ctx.vars from
      Fire.run_of_wp h
    have hsum : clampI32 (τ a+τ b) = τ r := by
      unfold clampI32
      omega
    -- each bound is the value the variable has
    have step : ∀ {t : Tighten} {v : ℕ} {vars' : ℕ → Variable} {f : Fire}, v ∈ [r,a,b] →
        t = .lb32 ∨ t = .ub32 → Typed [r,a,b] s.ctx.vars vars' → Pinned [r,a,b] vars' τ →
        (∀ vars', Typed [r,a,b] s.ctx.vars vars' → Pinned [r,a,b] vars' τ →
          f.wp (fun res _ => res ≠ .conflict) vars') →
        (Fire.need t v (bound32 (τ v)) f).wp (fun res _ => res ≠ .conflict) vars' :=
      fun {t v vars' f} hv h32 ht₁ hp₁ hk => by
        have hn := bound32_num (hrange v hv).1 (hrange v hv).2
        refine Fire.wp_need ht₁ hp₁.inside hv ?_ ?_ fun vars₂ ht₂ hin => hk vars₂ ht₂ (hp.typed ht₂ hin)
        · rcases h32 with rfl | rfl <;> exact hf.small v hv
        · rcases h32 with rfl | rfl
          · exact hn.le
          · exact hn.ge
    have hsubA : τ r-τ b = τ a := by omega
    have hsubB : τ r-τ a = τ b := by omega
    simp only [fireBoundsAdd32,Fire.wp,hlo ha ht hp,hhi ha ht hp,hlo hb ht hp,hhi hb ht hp,hsum]
    refine step hr (.inl rfl) ht hp fun vars₁ ht₁ hp₁ => ?_
    refine step hr (.inr rfl) ht₁ hp₁ fun vars₂ ht₂ hp₂ => ?_
    simp only [Fire.wp,hlo hr ht₂ hp₂,hhi hr ht₂ hp₂,hsubA,max_eq_right a1,
      min_eq_left (show τ a ≤ 2^31-1 by omega)]
    refine step ha (.inl rfl) ht₂ hp₂ fun vars₃ ht₃ hp₃ => ?_
    refine step ha (.inr rfl) ht₃ hp₃ fun vars₄ ht₄ hp₄ => ?_
    simp only [Fire.wp,hlo ha ht₄ hp₄,hhi ha ht₄ hp₄,hsubB,max_eq_right b1,
      min_eq_left (show τ b ≤ 2^31-1 by omega)]
    refine step hb (.inl rfl) ht₄ hp₄ fun vars₅ ht₅ hp₅ => ?_
    refine step hb (.inr rfl) ht₅ hp₅ fun vars₆ _ _ => ?_
    simp only [Fire.wp]
    split_ifs <;> simp [Fire.wp]

end Fixed

namespace Gated

/-- Every variable of `c` has a value of its domain. -/
def Within (c : Ctx) (σ : ℕ → ℤ) : Prop := ∀ v < c.nVars, σ v ∈ (c.vars v).dom

def FixedAt (c : Ctx) (τ : ℕ → ℤ) (s : Engine) : Prop :=
  ∀ v < c.nVars, s.ctx.vars v = (c.vars v).fixTo (τ v)

/-- No propagator that `c` did not have conflicts. -/
def Accepted (c c' : Ctx) (s : Engine) : Prop :=
  ∀ i, c.nProps ≤ i → i < c'.nProps → ∀ ref, c'.propRefs i = some ref →
    ((c'.props ref).fire.run s).1 ≠ .conflict

/-- The values are in the domains of `c'`, and satisfy the propagators that `c` did not have. -/
def Satisfies (c c' : Ctx) (τ : ℕ → ℤ) : Prop :=
  Within c' τ ∧ ∀ s, FixedAt c' τ s → Accepted c c' s

def Agree (c : Ctx) (σ τ : ℕ → ℤ) : Prop := ∀ v < c.nVars, τ v = σ v

def Kept (S : Supply) (c : Ctx) (n : ℕ) : Prop := S.block = true ∧ c.nProps+n ≤ maxProps

/-- With the variables fixed the fire conflicts exactly outside `Q`. -/
def Decides (c : Ctx) (f : Fire) (Q : (ℕ → ℤ) → Prop) : Prop :=
  ∀ s τ, Within c τ → FixedAt c τ s → ((f.run s).1 ≠ .conflict ↔ Q τ)

/-- `c'` is `c` with some variables and `n` propagators, those lost among them, that are satisfied
where `P` is. -/
structure Adds (S : Supply) (c c' : Ctx) (n : ℕ) (P : (ℕ → ℤ) → Prop) : Prop where
  ok : c'.Ok
  tables : TablesOk c'
  more : c.nVars ≤ c'.nVars
  old : ∀ v < c.nVars, c'.vars v = c.vars v
  count : c'.nProps = c.nProps+if S.block then min n (maxProps-c.nProps) else 0
  accepted : ∀ s τ, Within c' τ → FixedAt c' τ s → (Accepted c c' s ↔ P τ)

section Adds

variable {S : Supply} {c c' : Ctx} {n : ℕ} {P Q : (ℕ → ℤ) → Prop}

theorem Adds.refl (S : Supply) (hok : c.Ok) (htab : TablesOk c) : Adds S c c 0 fun _ => True where
  ok := hok
  tables := htab
  more := le_rfl
  old _ _ := rfl
  count := by simp
  accepted _ _ _ _ := iff_of_true (fun _ h1 h2 => absurd (h1.trans_lt h2) (lt_irrefl _)) trivial

theorem addVar_old {w : ℕ} (hw : w < c.nVars) : (addVar c v).vars w = c.vars w :=
  Function.update_of_ne hw.ne _ _

theorem addVar_new : (addVar c v).vars c.nVars = v := Function.update_self _ _ _

theorem Within.addVar (h : Within (addVar c v) τ) : Within c τ := fun w hw => by
  rw [← addVar_old (v:=v) hw]
  exact h w (hw.trans (Nat.lt_succ_self _))

theorem FixedAt.addVar (h : FixedAt (addVar c v) τ s) : FixedAt c τ s := fun w hw => by
  rw [← addVar_old (v:=v) hw]
  exact h w (hw.trans (Nat.lt_succ_self _))

theorem Adds.addVar (h : Adds S c c' n P) (v : Variable) : Adds S c (addVar c' v) n P where
  ok := addVar_ctx_ok h.ok v
  tables := addVar_tables h.tables v
  more := h.more.trans (Nat.le_succ _)
  old w hw := (addVar_old (hw.trans_le h.more)).trans (h.old w hw)
  count := h.count
  accepted s τ hτ hs := h.accepted s τ hτ.addVar hs.addVar

theorem roomProp_keeps (hok : c.Ok) (htab : TablesOk c) :
    let d := (roomProp c).getD c
    d.Ok ∧ TablesOk d ∧ d = {c with propCapacity := d.propCapacity} := by
  cases h : roomProp c with
  | none => exact ⟨hok,htab,rfl⟩
  | some d =>
    obtain ⟨hd,h1,h2,h3⟩ := roomProp_spec htab h
    obtain ⟨q,hq⟩ := hok.queue
    simp only [Option.getD_some]
    refine ⟨?_,?_,hd⟩
    · rw [hd]
      exact ⟨⟨q,hq.congr rfl rfl fun _ => ⟨rfl,rfl,rfl⟩⟩,⟨hok.tops.trail,hok.tops.entail⟩,
        hok.priority,hok.watchers,hok.refs⟩
    · generalize d.propCapacity = cap at hd h1 h2 h3
      subst hd
      exact ⟨htab.ids,⟨h2.le,h3⟩,htab.noWatch,fun i hi => htab.noGuard i (h1.trans hi),htab.index⟩

theorem accepted_allocated {d : Ctx} {priority : ℕ} (hok : c'.Ok) (hle : c.nProps ≤ c'.nProps)
    (hal : Allocated c' f priority ids d) :
    Accepted c d s ↔ Accepted c c' s ∧ (f.run s).1 ≠ .conflict := by
  have hnp : d.nProps = c'.nProps+1 := by rw [hal.rest]
  have hrefs : d.propRefs = Function.update c'.propRefs c'.nProps (some c'.poolTop) := by
    rw [hal.rest]
  have hold : ∀ i < c'.nProps, ∀ ref, c'.propRefs i = some ref →
      (d.props ref).fire = (c'.props ref).fire := fun i hi ref hr =>
    (hal.old ref (hok.refs i ref hr).ne).fire
  have hnew : (d.props c'.poolTop).fire = f := hal.new.fire
  constructor
  · refine fun ha => ⟨fun i h1 h2 ref hr => ?_,?_⟩
    · rw [← hold i h2 ref hr]
      exact ha i h1 (by omega) ref (by rw [hrefs,Function.update_of_ne h2.ne]; exact hr)
    · rw [← hnew]
      exact ha c'.nProps hle (by omega) _ (by rw [hrefs,Function.update_self])
  · rintro ⟨ha,hq⟩ i h1 h2 ref hr
    rw [hrefs] at hr
    by_cases hi : i = c'.nProps
    · rw [hi,Function.update_self] at hr
      obtain rfl := Option.some.inj hr
      rwa [hnew]
    · rw [Function.update_of_ne hi] at hr
      have hi' : i < c'.nProps := by omega
      rw [hold i hi' ref hr]
      exact ha i h1 hi' ref hr

theorem Adds.kept_iff (h : Adds S c c' n P) :
    Kept S c (n+1) ↔ S.block = true ∧ c'.nProps < maxProps := by
  have hcount := h.count
  refine and_congr_right fun hb => ?_
  rw [if_pos hb] at hcount
  omega

theorem Adds.keep {d : Ctx} (h : Adds S c c' n P) (hids : ∀ v ∈ ids, v < c'.nVars)
    (hf : Decides c' f Q) (hk : Kept S c (n+1)) (hd : allocProp c' f 0 ids = some d) :
    Adds S c d (n+1) fun τ => P τ ∧ (Kept S c (n+1) → Q τ) := by
  have hal := allocProp_spec h.ok h.tables (by decide) hd
  have hvars : d.vars = c'.vars := by rw [hal.rest]
  have hnv : d.nVars = c'.nVars := by rw [hal.rest]
  have hnp : d.nProps = c'.nProps+1 := by rw [hal.rest]
  have hcount := h.count
  refine ⟨hal.ok h.ok (by decide),hal.tables h.ok h.tables hids,hnv ▸ h.more,hvars ▸ h.old,?_,
    fun s τ hτ hs => ?_⟩
  · have := hk.2
    rw [if_pos hk.1] at hcount ⊢
    omega
  · have hτ' : Within c' τ := fun v hv => hvars ▸ hτ v (hnv ▸ hv)
    have hs' : FixedAt c' τ s := fun v hv => hvars ▸ hs v (hnv ▸ hv)
    rw [accepted_allocated h.ok (by omega) hal,h.accepted s τ hτ' hs',hf s τ hτ' hs']
    exact and_congr_right fun _ => ⟨fun hq _ => hq,fun hq => hq hk⟩

theorem Adds.lose {d : Ctx} (h : Adds S c c' n P) (hk : ¬Kept S c (n+1)) (hok : d.Ok)
    (htab : TablesOk d) (hd : d = {c' with propCapacity := d.propCapacity}) :
    Adds S c d (n+1) fun τ => P τ ∧ (Kept S c (n+1) → Q τ) := by
  have hcount := h.count
  rw [h.kept_iff] at hk
  have hnp : d.nProps = c'.nProps := by rw [hd]
  have hacc : ∀ s, Accepted c d s ↔ Accepted c c' s := fun s => by rw [hd]; rfl
  refine ⟨hok,htab,by rw [hd]; exact h.more,by rw [hd]; exact h.old,?_,fun s τ hτ hs => ?_⟩
  · rw [hnp,hcount]
    split_ifs with hb
    · have hfull : maxProps ≤ c'.nProps := not_lt.mp fun hlt => hk ⟨hb,hlt⟩
      rw [if_pos hb] at hcount
      omega
    · rfl
  · rw [hacc]
    rw [hd] at hτ hs
    exact (h.accepted s τ hτ hs).trans
      ⟨fun hP => ⟨hP,fun hk' => absurd (h.kept_iff.mp hk') hk⟩,And.left⟩

theorem Adds.addProp (h : Adds S c c' n P) (hids : ∀ v ∈ ids, v < c'.nVars) (hf : Decides c' f Q) :
    Adds S c (addProp S.block c' f 0 ids) (n+1) fun τ => P τ ∧ (Kept S c (n+1) → Q τ) := by
  unfold Solver.addProp
  split_ifs with hb
  · cases hd : allocProp c' f 0 ids with
    | none =>
      rw [allocProp,Option.map_eq_none_iff,roomProp_none h.tables] at hd
      exact h.lose (fun hk => absurd (h.kept_iff.mp hk).2 (not_lt.mpr hd)) h.ok h.tables rfl
    | some d =>
      refine h.keep hids hf (h.kept_iff.mpr ⟨hb,not_le.mp fun hfull => ?_⟩) hd
      simp [allocProp,(roomProp_none h.tables).mpr hfull] at hd
  · obtain ⟨h1,h2,h3⟩ := roomProp_keeps h.ok h.tables
    exact h.lose (fun hk => hb hk.1) h1 h2 h3

theorem FixedAt.fixedTo (hs : FixedAt c τ s) (hτ : Within c τ) (hx : x < c.nVars)
    (hv : (c.vars x).Ok) : FixedTo (c.vars x) (τ x) (s.ctx.vars x) := by
  rw [hs x hx]
  exact hv.fixTo (hτ x hx)

theorem Adds.satisfies_iff (h : Adds S c c' n P) : Satisfies c c' τ ↔ Within c' τ ∧ P τ := by
  refine and_congr_right fun hτ => ⟨fun hs => ?_,fun hP s hs => (h.accepted s τ hτ hs).mpr hP⟩
  exact (h.accepted (holding fun v => (c'.vars v).fixTo (τ v)) τ hτ fun _ _ => rfl).mp
    (hs _ fun _ _ => rfl)

end Adds

section Decides

variable {c : Ctx}

theorem FixedAt.pinned (hW : ∀ v ∈ W, v < c.nVars ∧ (c.vars v).Ok) (hτ : Within c τ)
    (hs : FixedAt c τ s) : (∀ v ∈ W, (s.ctx.vars v).Ok) ∧ Pinned W s.ctx.vars τ := by
  have h : ∀ v ∈ W, FixedTo (c.vars v) (τ v) (s.ctx.vars v) := fun v hv =>
    hs.fixedTo hτ (hW v hv).1 (hW v hv).2
  exact ⟨fun v hv => (h v hv).ok,fun v hv => (h v hv).least,fun v hv => (h v hv).most⟩

/-- A variable that may be a guard; one of the large tier has 0 in its fields of 32 bits. -/
structure IsGuard (c : Ctx) (g : ℕ) : Prop where
  lt : g < c.nVars
  ok : (c.vars g).Ok
  low : 0 ≤ (c.vars g).least
  high : (c.vars g).most ≤ 1
  idle : (c.vars g).tier1 = true → (c.vars g).hi = 0#32

theorem IsGuard.value (h : IsGuard c g) (hτ : Within c τ) : τ g = 0 ∨ τ g = 1 := by
  have h1 := h.low.trans (hτ g h.lt).1
  have h2 := (hτ g h.lt).2.trans h.high
  omega

theorem decides_implication (hg : IsGuard c g) (hx : x < c.nVars) (hok : (c.vars x).Ok)
    (hfit : t.Fits (c.vars x)) :
    Decides c (Fire.read g fun vg => if vg.hi = 0#32 then .done .entailed
      else if vg.lo = 1#32 then .tighten t x k .done else .done .ok)
      fun τ => (c.vars g).tier1 = false → τ g = 1 → t.Asks (t.num (c.vars x) k) (τ x) := by
  intro s τ hτ hs
  have hfg := hs.fixedTo hτ hg.lt hg.ok
  have hfx := hs.fixedTo hτ hx hok
  cases h0 : (c.vars g).tier1 with
  | true =>
    refine iff_of_true (implication_idle ?_) (by simp)
    rw [hs g hg.lt,← hg.idle h0]
    simp [Variable.fixTo,setBound,Variable.tier0,h0]
  | false =>
    have hW : ∀ v ∈ [g,x], v < c.nVars ∧ (c.vars v).Ok := by
      simp only [List.mem_cons,List.not_mem_nil,or_false]
      rintro v (rfl | rfl)
      · exact ⟨hg.lt,hg.ok⟩
      · exact ⟨hx,hok⟩
    obtain ⟨hoks,hp⟩ := hs.pinned hW hτ
    have hnum : t.num (s.ctx.vars x) k = t.num (c.vars x) k := by
      cases t
      · rfl
      · rfl
      · exact hfx.same.varOrd k
      · exact hfx.same.varOrd k
    have hfit' : t.Fits (s.ctx.vars x) := by
      cases t
      · exact hfx.same.tier1.trans hfit
      · exact hfx.same.tier1.trans hfit
      · trivial
      · trivial
    rw [implication_fixed hoks hp (hfg.same.tier1.trans h0) (hg.value hτ) hfit',hnum]
    simp

theorem varOrd_of_beyond {u w : Variable} (h : u.beyond = w.beyond) (k : BitVec 64) :
    varOrd u k = varOrd w k := by
  cases hb : u.beyond
  · rw [varOrd_plain hb,varOrd_plain (h.symm.trans hb)]
  · rw [varOrd_beyond hb,varOrd_beyond (h.symm.trans hb)]

/-- A guard of the small tier over two variables of one order. -/
structure Ready (c : Ctx) (g x y : ℕ) : Prop where
  guard : IsGuard c g
  small : (c.vars g).tier1 = false
  left : x < c.nVars ∧ (c.vars x).Ok
  right : y < c.nVars ∧ (c.vars y).Ok
  order : (c.vars y).beyond = (c.vars x).beyond

structure Settled (g x y : ℕ) (τ : ℕ → ℤ) (vars : ℕ → Variable) : Prop where
  reified : Reified g x y vars
  pinned : Pinned [g,x,y] vars τ
  left : (vars x).readBy (τ x) = τ x
  right : (vars x).readBy (τ y) = τ y
  back : (vars y).readBy (τ x) = τ x

theorem Ready.settled (h : Ready c g x y) (hτ : Within c τ) (hs : FixedAt c τ s) :
    Settled g x y τ s.ctx.vars := by
  have hW : ∀ v ∈ [g,x,y], v < c.nVars ∧ (c.vars v).Ok := by
    simp only [List.mem_cons,List.not_mem_nil,or_false]
    rintro v (rfl | rfl | rfl)
    · exact ⟨h.guard.lt,h.guard.ok⟩
    · exact h.left
    · exact h.right
  obtain ⟨hok,hp⟩ := hs.pinned hW hτ
  have hg := hs.fixedTo hτ h.guard.lt h.guard.ok
  have hx := hs.fixedTo hτ h.left.1 h.left.2
  have hy := hs.fixedTo hτ h.right.1 h.right.2
  have hval := h.guard.value hτ
  have hread : ∀ n, (s.ctx.vars x).readBy n = (c.vars x).readBy n := hx.same.readBy
  have hself : (c.vars x).readBy (τ x) = τ x := by
    obtain ⟨h1,h2⟩ := hτ x h.left.1
    obtain ⟨h3,h4⟩ := h.left.2.inType h1 h2
    exact h.left.2.varOrd_ofInt h3 h4
  refine ⟨⟨hok,hg.same.tier1.trans h.small,?_,?_⟩,hp,?_,?_,?_⟩
  · rw [hg.least]
    omega
  · rw [hg.most]
    omega
  · rw [hread,hself]
  · obtain ⟨h1,h2⟩ := hτ y h.right.1
    obtain ⟨h3,h4⟩ := h.right.2.inType h1 h2
    rw [hread,Variable.readBy,← varOrd_of_beyond h.order]
    exact h.right.2.varOrd_ofInt h3 h4
  · rw [hy.same.readBy,Variable.readBy,varOrd_of_beyond h.order]
    exact hself

theorem Settled.inside {vars : ℕ → Variable} (h : Settled g x y τ vars)
    (hσ : Inside [g,x,y] vars σ) : Settled g x y σ vars := by
  have heq : ∀ v ∈ [g,x,y], σ v = τ v := fun v hv =>
    le_antisymm ((hσ.most v hv).trans (h.pinned.most v hv).le)
      ((h.pinned.least v hv).ge.trans (hσ.least v hv))
  have hx := heq x (by simp)
  have hy := heq y (by simp)
  exact ⟨h.reified,⟨fun v hv => (h.pinned.least v hv).trans (heq v hv).symm,fun v hv =>
    (h.pinned.most v hv).trans (heq v hv).symm⟩,hx ▸ h.left,hy ▸ h.right,hx ▸ h.back⟩

section Settled

variable {vars : ℕ → Variable} (h : Settled g x y τ vars)

include h

theorem Settled.leAdmits : LeAdmits g x y vars τ ↔ LeRel g x y τ := by
  unfold LeAdmits LeRel
  rw [h.pinned.least g (by simp),h.pinned.most g (by simp),h.pinned.least x (by simp),
    h.pinned.most x (by simp),h.pinned.least y (by simp),h.pinned.most y (by simp),h.right,h.back]
  rcases h.reified.guard h.pinned.inside with hg | hg
  · rw [if_neg (by omega),if_pos hg]
    omega
  · rw [if_pos hg]
    omega

theorem Settled.samePattern : SamePattern (τ x) (τ y) ↔ τ x = τ y := by
  refine ⟨fun hs => ?_,fun he => congrArg _ he⟩
  rw [← h.left,← h.right]
  exact hs.readBy

theorem Settled.eqAdmits : EqAdmits g x y vars τ ↔ EqRel g x y τ := by
  unfold EqAdmits EqRel Met AtEnd
  rw [h.pinned.least g (by simp),h.pinned.most g (by simp),h.pinned.least x (by simp),
    h.pinned.most x (by simp),h.pinned.least y (by simp),h.pinned.most y (by simp),h.right,
    h.samePattern]
  rcases h.reified.guard h.pinned.inside with hg | hg
  · rw [if_neg (by omega),if_pos hg]
    simp [hg]
  · rw [if_pos hg]
    omega

end Settled

theorem Settled.fields {vars : ℕ → Variable} (h : Settled g x y τ vars) (hx : (vars x).tier0 = true)
    (hy : (vars y).tier0 = true) : Fields [g,x,y] vars := by
  refine ⟨h.reified.ok,fun v hv => ?_⟩
  have hok := h.reified.ok v hv
  simp only [List.mem_cons,List.not_mem_nil,or_false] at hv
  rcases hv with rfl | rfl | rfl
  · exact h.reified.small
  · simpa [hok.tier0] using hx
  · simpa [hok.tier0] using hy

theorem FixedAt.tier0 (hs : FixedAt c τ s) (hx : x < c.nVars) :
    (s.ctx.vars x).tier0 = (c.vars x).tier0 := by
  have h1 := setBound_same (c.vars x) .lb (BitVec.ofInt 64 (τ x))
  have h2 := h1.trans (setBound_same _ .ub (BitVec.ofInt 64 (τ x)))
  rw [hs x hx,Variable.tier0,Variable.tier0]
  exact congrArg₂ (fun p q => !p && !q) h2.tier1 h2.tier2

theorem Ready.decides (h : Ready c g x y) {f64 f32 : Fire} {R : (ℕ → ℤ) → Prop}
    (h64 : ∀ s τ, Settled g x y τ s.ctx.vars → Propagates [g,x,y] R f64 s)
    (h32 : ∀ s τ, Settled g x y τ s.ctx.vars → Fields [g,x,y] s.ctx.vars → Propagates [g,x,y] R f32 s) :
    Decides c (if !(c.vars x).tier0 ∨ !(c.vars y).tier0 then f64 else f32) R := by
  intro s τ hτ hs
  have hset := h.settled hτ hs
  split_ifs with ht
  · exact not_iff_comm.mp ((h64 s τ hset).decides hset.pinned).symm
  · simp only [Bool.not_eq_true',not_or,Bool.not_eq_false] at ht
    have hf := hset.fields ((hs.tier0 h.left.1).trans ht.1) ((hs.tier0 h.right.1).trans ht.2)
    exact not_iff_comm.mp ((h32 s τ hset hf).decides hset.pinned).symm

theorem decides_reification (h : Ready c g x y) :
    Decides c (if !(c.vars x).tier0 ∨ !(c.vars y).tier0 then fireReification64 g x y
      else fireReification32 g x y) (LeRel g x y) :=
  h.decides (fun _ _ hset => ((fireReification64_complies hset.reified).mpr
      ⟨fun _ hσ hR => (hset.inside hσ).leAdmits.mpr hR,
        fun _ hσ hR hA => hR ((hset.inside hσ).leAdmits.mp hA.2)⟩).toPropagates)
    fun _ _ hset hf => (fireReification32_complies hset.reified hf).toPropagates

theorem decides_reificationEq (h : Ready c g x y) :
    Decides c (if !(c.vars x).tier0 ∨ !(c.vars y).tier0 then fireReificationEq64 g x y
      else fireReificationEq32 g x y) (EqRel g x y) :=
  h.decides (fun _ _ hset => ((fireReificationEq64_complies hset.reified).mpr
      ⟨fun _ hσ hR => (hset.inside hσ).eqAdmits.mpr hR,
        fun _ hσ hR hA => hR ((hset.inside hσ).eqAdmits.mp hA.2)⟩).toPropagates)
    fun _ _ hset hf => (fireReificationEq32_complies hset.reified hf).toPropagates

end Decides

end Gated

end Solver
end DvSolve
