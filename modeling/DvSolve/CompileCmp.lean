import DvSolve.CheckpointSem
import DvSolve.PropReifSem
import DvSolve.SvExpr

/-! Comparisons of a variable with a constant as the compiler takes them:
`_compile_var_const_cmp`, with the propagators of `prop_add_bounds_ne_32`. -/
namespace DvSolve
namespace Solver

open Sv (BinOp)
open BitVec (eq_of_toInt_eq intMax intMin ofInt)
open Bool (false_eq_true not_eq_true')
open Function (update update_of_ne update_self)

/-- The value `n` is excluded from an end of `y`, whose bounds are `vy`; the ends of the 32 bit
numbers have no neighbour. -/
def excludeEnd32 (y : ℕ) (n : BitVec 32) (vy : Variable) : Fire :=
  if vy.lo = n then
    if n = intMax 32 then .done .conflict
    else .need .lb32 y ((n+1#32).signExtend 64) <| .done .ok
  else if vy.hi = n then
    if n = intMin 32 then .done .conflict
    else .need .ub32 y ((n-1#32).signExtend 64) <| .done .ok
  else .done .ok

def fireBoundsNe32 (x y : ℕ) : Fire :=
  if x = y then .done .conflict
  else
    .read x fun vx => .read y fun vy =>
    .when (vx.lo = vx.hi) (excludeEnd32 y vx.lo vy) <|
    .read x fun vx => .read y fun vy =>
    .when (vy.lo = vy.hi) (excludeEnd32 x vy.lo vx) <|
    .read x fun vx => .read y fun vy =>
    if vx.hi.toInt < vy.lo.toInt ∨ vy.hi.toInt < vx.lo.toInt then .done .entailed else .done .ok

def fireBoundsNe64 (x y : ℕ) : Fire :=
  if x = y then .done .conflict
  else
    .read x fun vx => .read y fun vy =>
    enforceNe64 x y (varLo64 vx) (varHi64 vx) (varLo64 vy) (varHi64 vy)

def boundsNe (c : Ctx) (x y : ℕ) : Fire :=
  if !(c.vars x).tier0 ∨ !(c.vars y).tier0 then fireBoundsNe64 x y else fireBoundsNe32 x y

def propAddBoundsNe32 (block : Bool) (c : Ctx) (x y priority : ℕ) : Ctx :=
  if block then (allocProp c (boundsNe c x y) priority [x,y]).getD c else (roomProp c).getD c

def initConstSingleton (wide : Bool) (cv : BitVec 64) (signed : Bool) (width : ℕ) :
    Option Variable :=
  let signed := signed || decide (cv.toInt < 0)
  if width ≤ 32 ∧ -2^31 ≤ cv.toInt ∧ cv.toInt < 2^31 then
    some ⟨cv.setWidth 32,cv.setWidth 32,(0#64,0#64),32,signed,false,false,false⟩
  else if wide then
    some ⟨0#32,0#32,(cv,cv),if width ≤ 32 ∨ width > 64 then 64 else width,signed,true,false,false⟩
  else none

/-- What the compiler may run out of: variables, bounds of 64 bits, blocks for propagators. -/
structure Supply where
  room : Bool
  wide : Bool
  block : Bool

def flipped : BinOp → BinOp
  | .lte => .gte
  | .lt => .gt
  | .gte => .lte
  | .gt => .lt
  | op => op

def bounded (p : PropResult × Ctx) : ℤ × Ctx := (if p.1 = .conflict then -1 else 1,p.2)

def compileNe (S : Supply) (c : Ctx) (vid : ℕ) (cv : BitVec 64) : ℤ × Ctx :=
  if S.room then
    match initConstSingleton S.wide cv (c.vars vid).signed (c.vars vid).width with
    | none => (0,c)
    | some k => (1,propAddBoundsNe32 S.block (addVar c k) vid c.nVars 0)
  else (0,c)

def compileVarConstCmp (S : Supply) (c : Ctx) (op : BinOp) (vid : ℕ) (cv : BitVec 64)
    (flip : Bool) : ℤ × Ctx :=
  let v := c.vars vid
  match if flip then flipped op else op with
  | .eq =>
    let p := ctxTightenLb64 c vid cv
    if p.1 = .conflict then (-1,p.2) else bounded (ctxTightenUb64 p.2 vid cv)
  | .neq =>
    if cv.slt (varLo64 v) || (varHi64 v).slt cv then (1,c)
    else if cv = varLo64 v then bounded (ctxTightenLb64 c vid (cv+1#64))
    else if cv = varHi64 v then bounded (ctxTightenUb64 c vid (cv-1#64))
    else compileNe S c vid cv
  | .lte => bounded (ctxTightenUb64 c vid cv)
  | .lt =>
    if !varBGt v cv (varReprMin v) then (-1,c) else bounded (ctxTightenUb64 c vid (cv-1#64))
  | .gte => bounded (ctxTightenLb64 c vid cv)
  | .gt =>
    if !varBLt v cv (varReprMax v) then (-1,c) else bounded (ctxTightenLb64 c vid (cv+1#64))
  | _ => (0,c)

def Variable.dom (v : Variable) : Set ℤ := Set.Icc v.least v.most

structure FixedTo (v : Variable) (n : ℤ) (x : Variable) : Prop where
  same : SameType v x
  ok : x.Ok
  least : x.least = n
  most : x.most = n

/-- The domain of `vid` in `c'` has `n`, and no propagator that `c` did not have conflicts when
`vid` is fixed to it. -/
def Admits (c c' : Ctx) (vid : ℕ) (n : ℤ) : Prop :=
  n ∈ (c'.vars vid).dom ∧ ∀ i, c.nProps ≤ i → i < c'.nProps → ∀ ref, c'.propRefs i = some ref →
    ∀ (s : Engine) (x : Variable), FixedTo (c'.vars vid) n x →
      s.ctx.vars = update c'.vars vid x → ((c'.props ref).fire.run s).1 ≠ .conflict

/-- A compilation of `R`: -1 only when no number of the domain is in `R`, and 1 only when those
that are in `R` are admitted and no others. -/
def Achieves (c : Ctx) (vid : ℕ) (R : ℤ → Prop) (r : ℤ × Ctx) : Prop :=
  (r.1 = -1 → ∀ n ∈ (c.vars vid).dom, ¬R n) ∧
  (r.1 = 1 → ∀ n, Admits c r.2 vid n ↔ n ∈ (c.vars vid).dom ∧ R n)

def Compares : BinOp → ℤ → ℤ → Prop
  | .eq, n, k => n = k
  | .neq, n, k => n ≠ k
  | .lt, n, k => n < k
  | .lte, n, k => n ≤ k
  | .gt, n, k => k < n
  | .gte, n, k => k ≤ n
  | _, _, _ => False

def ComparesTo (op : BinOp) (flip : Bool) (n k : ℤ) : Prop :=
  if flip then Compares op k n else Compares op n k

section Achieves

variable {c : Ctx} {vid : ℕ} {R : ℤ → Prop} {b : BitVec 64} {S : Supply} {cv : BitVec 64}

theorem compares_flipped (op : BinOp) (n k : ℤ) : Compares (flipped op) n k ↔ Compares op k n := by
  cases op <;> simp [Compares,flipped,eq_comm]

theorem ctxTighten_nProps (hok : c.Ok) (t : Tighten) (id : ℕ) :
    (ctxTighten t c id b).2.nProps = c.nProps := by
  rcases ctxTighten_cases t c id b with h | ⟨k,new,empty,single,h⟩
  · rw [h]
  · rw [h]
    rcases trailRecord_cases k c id new with hr | ⟨v,e,_,_,hr⟩
    · rw [hr,(afterTighten_quiet hok _ _ _).1.rest]
    · rw [hr,(afterTighten_quiet (pushEntry_ok hok id v e) _ _ _).1.rest]
      rfl

theorem admits_same {c' : Ctx} (h : c'.nProps = c.nProps) {n : ℤ} :
    Admits c c' vid n ↔ n ∈ (c'.vars vid).dom :=
  ⟨And.left,fun hn => ⟨hn,fun _ h1 h2 => absurd (h1.trans_lt h2) (by omega)⟩⟩

theorem achieves_none : Achieves c vid R (0,c) := ⟨by simp,by simp⟩

theorem achieves_refused : Achieves c vid R (-1,c) ↔ ∀ n ∈ (c.vars vid).dom, ¬R n :=
  ⟨fun h => h.1 rfl,fun h => ⟨fun _ => h,by simp⟩⟩

theorem achieves_as_is : Achieves c vid R (1,c) ↔ ∀ n ∈ (c.vars vid).dom, R n := by
  constructor
  · intro h n hn
    exact ((h.2 rfl n).mp ((admits_same rfl).mpr hn)).2
  · refine fun h => ⟨by simp,fun _ n => (admits_same rfl).trans ?_⟩
    exact ⟨fun hn => ⟨hn,h n hn⟩,And.left⟩

theorem achieves_bounded {c' : Ctx} {P : ℤ → Prop} {r : PropResult} (hn : c'.nProps = c.nProps)
    (hc : r = .conflict → ∀ n ∈ (c.vars vid).dom, ¬P n)
    (hk : r ≠ .conflict → ∀ n, n ∈ (c'.vars vid).dom ↔ n ∈ (c.vars vid).dom ∧ P n) :
    Achieves c vid R (bounded (r,c')) ↔ ∀ n ∈ (c.vars vid).dom, P n ↔ R n := by
  unfold Achieves bounded
  by_cases hr : r = .conflict
  · have hP := hc hr
    simp only [hr,if_true,true_implies]
    constructor
    · exact fun h n hd => ⟨fun hp => absurd hp (hP n hd),fun hp => absurd hp (h.1 n hd)⟩
    · exact fun h => ⟨fun n hd hR => hP n hd ((h n hd).mpr hR),by simp⟩
  · have hP := hk hr
    simp only [hr,if_false,true_implies]
    constructor
    · intro h n hd
      have hn := (admits_same hn).symm.trans (h.2 n)
      exact ⟨fun hp => (hn.mp ((hP n).mpr ⟨hd,hp⟩)).2,fun hp => ((hP n).mp (hn.mpr ⟨hd,hp⟩)).2⟩
    · refine fun h => ⟨by simp,fun n => (admits_same hn).trans ((hP n).trans ?_)⟩
      exact and_congr_right fun hd => h n hd

def Tighten.Asks (t : Tighten) (k n : ℤ) : Prop := if t.isUb then n ≤ k else k ≤ n

theorem Tightened.dom {t : Tighten} {vars vars' : ℕ → Variable} {r : PropResult}
    (h : Tightened t vid b vars r vars') :
    (r = .conflict → ∀ n ∈ (vars vid).dom, ¬t.Asks (t.num (vars vid) b) n) ∧
    (r ≠ .conflict → SameType (vars vid) (vars' vid) ∧ (vars' vid).Ok ∧
      ∀ n, n ∈ (vars' vid).dom ↔ n ∈ (vars vid).dom ∧ t.Asks (t.num (vars vid) b) n) := by
  cases h with
  | ok v' same ok least most live =>
    refine ⟨by simp,fun _ => ?_⟩
    rw [update_self]
    refine ⟨same,ok,fun n => ?_⟩
    unfold Variable.dom Tighten.Asks
    rw [Set.mem_Icc,Set.mem_Icc,least,most,Tighten.least,Tighten.most]
    split_ifs
    · rw [le_min_iff,and_assoc]
    · rw [max_le_iff]
      tauto
  | conflict _ out =>
    refine ⟨fun _ n hn => ?_,by simp⟩
    obtain ⟨h1,h2⟩ := hn
    unfold Tighten.Asks
    split_ifs at out ⊢ <;> omega

variable (hok : c.Ok) (hv : (c.vars vid).Ok)

include hok hv

theorem achieves_lb : Achieves c vid R (bounded (ctxTightenLb64 c vid b)) ↔
    ∀ n ∈ (c.vars vid).dom, varOrd (c.vars vid) b ≤ n ↔ R n := by
  have h := (ctxTightenLb64_tightened b hv).dom
  exact achieves_bounded (ctxTighten_nProps hok .lb64 vid) h.1 fun hr => (h.2 hr).2.2

theorem achieves_ub : Achieves c vid R (bounded (ctxTightenUb64 c vid b)) ↔
    ∀ n ∈ (c.vars vid).dom, n ≤ varOrd (c.vars vid) b ↔ R n := by
  have h := (ctxTightenUb64_tightened b hv).dom
  exact achieves_bounded (ctxTighten_nProps hok .ub64 vid) h.1 fun hr => (h.2 hr).2.2

theorem achieves_eq : Achieves c vid (· = varOrd (c.vars vid) cv)
    (let p := ctxTightenLb64 c vid cv
    if p.1 = .conflict then (-1,p.2) else bounded (ctxTightenUb64 p.2 vid cv)) := by
  have h := (ctxTightenLb64_tightened cv hv).dom
  have hn := ctxTighten_nProps (b:=cv) hok .lb64 vid
  have hok' : (ctxTightenLb64 c vid cv).2.Ok := Op.run_ok (o:=.tighten .lb64 vid cv) hok trivial
  dsimp only
  split_ifs with hc
  · refine ⟨fun _ n hd he => h.1 hc n hd ?_,by simp⟩
    exact he.ge
  · obtain ⟨hs,hv',hd⟩ := h.2 hc
    have ha := (achieves_ub (R:=fun n => n = varOrd (c.vars vid) cv) (b:=cv) hok' hv').mpr
      fun n hn => by
        rw [hs.varOrd]
        exact ⟨fun hle => le_antisymm hle ((hd n).mp hn).2,fun he => he.le⟩
    refine ⟨fun hr n hn he => ha.1 hr n ((hd n).mpr ⟨hn,he.ge⟩) he,fun hr n => ?_⟩
    have hadm : Admits c (bounded (ctxTightenUb64 (ctxTightenLb64 c vid cv).2 vid cv)).2 vid n ↔
        Admits (ctxTightenLb64 c vid cv).2
          (bounded (ctxTightenUb64 (ctxTightenLb64 c vid cv).2 vid cv)).2 vid n := by
      unfold Admits
      rw [show (ctxTightenLb64 c vid cv).2.nProps = c.nProps from hn]
    rw [hadm,ha.2 hr n,hd n]
    exact ⟨fun hx => ⟨hx.1.1,hx.2⟩,fun hx => ⟨⟨hx.1,hx.2.ge⟩,hx.2⟩⟩

end Achieves

section Ne

variable {v k : Variable} {n : ℤ} {s : Engine} {x y : ℕ} {cv : BitVec 64} {wide signed : Bool}
  {width : ℕ}

def Variable.fixTo (v : Variable) (n : ℤ) : Variable :=
  setBound (setBound v .lb (ofInt 64 n)) .ub (ofInt 64 n)

theorem Variable.Ok.fixTo (hv : v.Ok) (hn : n ∈ v.dom) : FixedTo v n (v.fixTo n) := by
  obtain ⟨h1,h2⟩ := hn
  have hin := hv.inType h1 h2
  have hb := hv.varOrd_ofInt hin.1 hin.2
  unfold Variable.fixTo
  generalize ofInt 64 n = b at hb
  have hsame := setBound_same v .lb b
  have hok : (setBound v .lb b).Ok := hv.setIn_ok .lb (by omega) (by omega)
  have hl := hv.setLb_least (b:=b) (by omega) (by omega)
  have hm := Variable.Ok.setLb_most v b
  have hb' := hsame.varOrd b
  generalize setBound v .lb b = u at *
  have h3 := hok.bot
  have h4 := hok.top
  refine ⟨hsame.trans (setBound_same u .ub b),hok.setIn_ok .ub (by omega) (by omega),?_,?_⟩
  · rw [Variable.Ok.setUb_least,hl,hb]
  · rw [hok.setUb_most (by omega) (by omega),hb',hb]

theorem exists_fixedTo (hv : v.Ok) (hn : n ∈ v.dom) : ∃ x, FixedTo v n x := ⟨_,hv.fixTo hn⟩

theorem initConstSingleton_spec (h : initConstSingleton wide cv signed width = some k) :
    varLo64 k = cv ∧ varHi64 k = cv ∧
      (k.tier0 = true → k.Ok ∧ k.lo.toInt = cv.toInt ∧ k.hi.toInt = cv.toInt) := by
  unfold initConstSingleton at h
  by_cases h32 : width ≤ 32 ∧ -2^31 ≤ cv.toInt ∧ cv.toInt < 2^31
  · rw [if_pos h32] at h
    obtain rfl := Option.some.inj h
    obtain ⟨-,h1,h2⟩ := h32
    have hnarrow := setWidth32_toInt h1 h2
    have hpos : (signed || decide (cv.toInt < 0)) = false → 0 ≤ cv.toInt := fun h => by
      rw [Bool.or_eq_false_iff,decide_eq_false_iff_not,not_lt] at h
      exact h.2
    generalize (signed || decide (cv.toInt < 0)) = sg at hpos
    have hmsb : sg = false → (cv.setWidth 32).msb = false := fun h => by
      rw [BitVec.msb_eq_toInt,hnarrow]
      simpa using hpos h
    have hcv := eq_of_toInt_eq ((toInt_ext sg hmsb).trans hnarrow)
    generalize hu : (⟨cv.setWidth 32,cv.setWidth 32,(0#64,0#64),32,sg,false,false,false⟩ : Variable) = u
    have hlo : varLo64 u = cv := hu ▸ hcv
    have hhi : varHi64 u = cv := hu ▸ hcv
    have hplain : varOrd u cv = cv.toInt := varOrd_plain (by rw [← hu]; simp [Variable.beyond]) cv
    refine ⟨hlo,hhi,fun _ => ⟨?_,hu ▸ hnarrow,hu ▸ hnarrow⟩⟩
    have hbot : u.bot ≤ cv.toInt := by
      rw [← hu,Variable.bot]
      cases sg
      · simpa using hpos rfl
      · simpa using h1
    have htop : cv.toInt ≤ u.top := by
      rw [← hu,Variable.top]
      cases sg <;> norm_num <;> omega
    subst hu
    exact ⟨by norm_num,by norm_num,rfl,fun _ => le_refl _,fun _ hs => ⟨hmsb hs,hmsb hs⟩,
      by rwa [Variable.least,hlo,hplain],by rwa [Variable.most,hhi,hplain]⟩
  · rw [if_neg h32] at h
    cases wide with
    | true =>
      obtain rfl := Option.some.inj h
      exact ⟨rfl,rfl,fun h0 => by simp [Variable.tier0] at h0⟩
    | false => simp at h

theorem fireBoundsNe64_fixed (hxy : x ≠ y)
    (hx : varLo64 (s.ctx.vars x) = varHi64 (s.ctx.vars x))
    (hy : varLo64 (s.ctx.vars y) = varHi64 (s.ctx.vars y)) :
    ((fireBoundsNe64 x y).run s).1 = .conflict ↔ varLo64 (s.ctx.vars x) = varLo64 (s.ctx.vars y) := by
  simp only [fireBoundsNe64,if_neg hxy,Fire.run,enforceNe64,← hx,← hy,true_and]
  by_cases he : varLo64 (s.ctx.vars y) = varLo64 (s.ctx.vars x)
  · simp [he,Fire.run]
  · simp [he,Ne.symm he,Fire.when,exclude64,Fire.run]

theorem fireBoundsNe32_fixed (hxy : x ≠ y) (hok : ∀ z ∈ [x,y], (s.ctx.vars z).Ok)
    (ht : ∀ z ∈ [x,y], (s.ctx.vars z).tier1 = false)
    (hx : (s.ctx.vars x).lo = (s.ctx.vars x).hi) (hy : (s.ctx.vars y).lo = (s.ctx.vars y).hi) :
    ((fireBoundsNe32 x y).run s).1 = .conflict ↔ (s.ctx.vars x).lo = (s.ctx.vars y).lo := by
  by_cases he : (s.ctx.vars y).lo = (s.ctx.vars x).lo
  · refine iff_of_true ?_ he.symm
    have hp : Pinned [x,y] s.ctx.vars fun z => (s.ctx.vars z).lo.toInt :=
      ⟨fun z hz => (hok z hz).least_eq (ht z hz),fun z hz => by
        rw [(hok z hz).most_eq (ht z hz)]
        rcases List.mem_pair.mp hz with rfl | rfl
        · rw [hx]
        · rw [hy]⟩
    suffices h : (fireBoundsNe32 x y).wp (fun r _ => r = .conflict) s.ctx.vars from
      Fire.run_of_wp h
    simp only [fireBoundsNe32,if_neg hxy,Fire.wp,Fire.when,hx,if_true,excludeEnd32,he]
    rw [← hx]
    split_ifs with hmax
    · rfl
    · rw [Fire.need_andThen]
      refine Fire.wp_need_pinned (.refl hok) hp (by simp) (ht y (by simp)) (fun _ => rfl)
        fun hin => absurd hin ?_
      have hlt : (s.ctx.vars x).lo.toInt < 2^31-1 := by
        have h1 := BitVec.toInt_lt (x := (s.ctx.vars x).lo)
        have h2 : (s.ctx.vars x).lo.toInt ≠ (intMax 32).toInt :=
          fun h => hmax (eq_of_toInt_eq h)
        norm_num at h1 h2
        omega
      simp only [Tighten.isUb,Tighten.num,false_eq_true,if_false,setWidth_signExtend,he]
      rw [succ32_toInt hlt]
      omega
  · refine iff_of_false ?_ (Ne.symm he)
    have hne : (s.ctx.vars y).hi ≠ (s.ctx.vars x).hi := by rwa [← hx,← hy]
    simp only [fireBoundsNe32,if_neg hxy,Fire.run,Fire.when,hx,hy,if_true,excludeEnd32,hne,
      hne.symm,if_false,Fire.ok_andThen]
    split_ifs <;> simp [Fire.run]

theorem boundsNe_fixed {c : Ctx} (hxy : x ≠ y) (hv : (c.vars x).Ok)
    (hk : varLo64 (c.vars y) = cv ∧ varHi64 (c.vars y) = cv ∧ ((c.vars y).tier0 = true →
      (c.vars y).Ok ∧ (c.vars y).lo.toInt = cv.toInt ∧ (c.vars y).hi.toInt = cv.toInt))
    {u : Variable} (hu : FixedTo (c.vars x) n u) (hs : s.ctx.vars = update c.vars x u) :
    ((boundsNe c x y).run s).1 = .conflict ↔ n = varOrd (c.vars x) cv := by
  have hsx : s.ctx.vars x = u := by rw [hs,update_self]
  have hsy : s.ctx.vars y = c.vars y := by rw [hs,update_of_ne hxy.symm]
  have hord := hu.same.varOrd
  have hl : varOrd u (varLo64 u) = n := hu.least
  have hm : varOrd u (varHi64 u) = n := hu.most
  unfold boundsNe
  split_ifs with ht
  · rw [fireBoundsNe64_fixed hxy (by rw [hsx]; exact varOrd_inj (hl.trans hm.symm))
      (by rw [hsy,hk.1,hk.2.1]),hsx,hsy,hk.1,← hord,← hl]
    exact ⟨fun h => by rw [h],varOrd_inj⟩
  · simp only [not_eq_true',not_or,Bool.not_eq_false] at ht
    have hx1 : (c.vars x).tier1 = false := by simpa [hv.tier0] using ht.1
    have hu1 : u.tier1 = false := hu.same.tier1.trans hx1
    obtain ⟨hyok,hylo,hyhi⟩ := hk.2.2 ht.2
    have hy1 : (c.vars y).tier1 = false := by simpa [hyok.tier0] using ht.2
    have hulo := (hu.ok.least_eq hu1).symm.trans hu.least
    have huhi := (hu.ok.most_eq hu1).symm.trans hu.most
    rw [fireBoundsNe32_fixed hxy ?_ ?_ (by rw [hsx]; exact eq_of_toInt_eq (hulo.trans huhi.symm))
      (by rw [hsy]; exact eq_of_toInt_eq (hylo.trans hyhi.symm)),hsx,hsy,
      varOrd_plain (hv.not_beyond hx1),← hylo,← hulo]
    · exact ⟨fun h => by rw [h],eq_of_toInt_eq⟩
    · simp only [List.mem_cons,List.not_mem_nil,or_false]
      rintro z (rfl | rfl)
      · rw [hsx]
        exact hu.ok
      · rw [hsy]
        exact hyok
    · simp only [List.mem_cons,List.not_mem_nil,or_false]
      rintro z (rfl | rfl)
      · rw [hsx]
        exact hu1
      · rw [hsy]
        exact hy1

end Ne

section Compile

variable {c : Ctx} {vid : ℕ} {cv : BitVec 64} {k : Variable} {R : ℤ → Prop} {S : Supply}

theorem admits_ne (hok : c.Ok) (htab : TablesOk c) (hid : vid < c.nVars) (hv : (c.vars vid).Ok)
    (hk : varLo64 k = cv ∧ varHi64 k = cv ∧
      (k.tier0 = true → k.Ok ∧ k.lo.toInt = cv.toInt ∧ k.hi.toInt = cv.toInt))
    (hfree : c.nProps < maxProps) (n : ℤ) :
    Admits c (propAddBoundsNe32 true (addVar c k) vid c.nVars 0) vid n ↔
      n ∈ (c.vars vid).dom ∧ n ≠ varOrd (c.vars vid) cv := by
  have htab' := addVar_tables htab k
  have hne : vid ≠ c.nVars := hid.ne
  unfold propAddBoundsNe32
  rw [if_pos rfl]
  cases h : allocProp (addVar c k) (boundsNe (addVar c k) vid c.nVars) 0 [vid,c.nVars] with
  | none =>
    rw [allocProp,Option.map_eq_none_iff,roomProp_none htab'] at h
    exact absurd hfree (not_lt.mpr h)
  | some c' =>
    have hal := allocProp_spec (addVar_ctx_ok hok k) htab' (by decide) h
    have hvars : c'.vars = (addVar c k).vars := by rw [hal.rest]
    have hn : c'.nProps = c.nProps+1 := by rw [hal.rest]; rfl
    have hrefs : c'.propRefs c.nProps = some c.poolTop := by
      rw [hal.rest]
      exact update_self _ _ _
    have hfire : (c'.props c.poolTop).fire = boundsNe (addVar c k) vid c.nVars := hal.new.fire
    have hx : (addVar c k).vars vid = c.vars vid := update_of_ne hne _ _
    have hy : (addVar c k).vars c.nVars = k := update_self _ _ _
    have hfixed : ∀ (s : Engine) (u : Variable), FixedTo (c.vars vid) n u →
        s.ctx.vars = update c'.vars vid u →
        (((c'.props c.poolTop).fire.run s).1 = .conflict ↔ n = varOrd (c.vars vid) cv) :=
      fun s u hu hs => by
        rw [hfire,← hx]
        exact boundsNe_fixed hne (by rwa [hx]) (by rwa [hy]) (by rwa [hx]) (by rw [hs,hvars])
    simp only [Option.getD_some]
    unfold Admits
    rw [hvars,hx]
    refine and_congr_right fun hd => ⟨fun ha he => ?_,fun ha i h1 h2 ref hr s u hu hs => ?_⟩
    · obtain ⟨u,hu⟩ := exists_fixedTo hv hd
      have hs : (holding (update c'.vars vid u)).ctx.vars = update c'.vars vid u := rfl
      exact ha c.nProps le_rfl (by omega) _ hrefs _ u hu (by rw [hs,hvars])
        ((hfixed _ u hu hs).mpr he)
    · obtain rfl : i = c.nProps := by omega
      obtain rfl : c.poolTop = ref := Option.some.inj (hrefs.symm.trans hr)
      rw [Ne,hfixed s u hu (by rw [hs,hvars])]
      exact ha

def Dropped (S : Supply) (c : Ctx) (vid : ℕ) (cv : BitVec 64) : Prop :=
  S.room = true ∧ (initConstSingleton S.wide cv (c.vars vid).signed (c.vars vid).width).isSome = true ∧
    ¬(S.block = true ∧ c.nProps < maxProps)

theorem propAddBoundsNe32_dropped (htab : TablesOk c) {x y : ℕ} {block : Bool}
    (h : ¬(block = true ∧ c.nProps < maxProps)) :
    (propAddBoundsNe32 block c x y 0).nProps = c.nProps ∧
      (propAddBoundsNe32 block c x y 0).vars = c.vars := by
  unfold propAddBoundsNe32
  cases block with
  | true =>
    have hfull := (roomProp_none htab).mpr (not_lt.mp fun hlt => h ⟨rfl,hlt⟩)
    simp [allocProp,hfull]
  | false =>
    cases hr : roomProp c with
    | none => simp
    | some c' =>
      simp only [false_eq_true,if_false,Option.getD_some]
      rw [(roomProp_spec htab hr).1]
      exact ⟨rfl,rfl⟩

theorem compileNe_achieves (hok : c.Ok) (htab : TablesOk c) (hid : vid < c.nVars)
    (hv : (c.vars vid).Ok) :
    Achieves c vid (· ≠ varOrd (c.vars vid) cv) (compileNe S c vid cv) ↔
      (varOrd (c.vars vid) cv ∈ (c.vars vid).dom → ¬Dropped S c vid cv) := by
  unfold compileNe Dropped
  cases hroom : S.room with
  | false => simpa using achieves_none
  | true =>
    simp only [if_true,true_and]
    cases hk : initConstSingleton S.wide cv (c.vars vid).signed (c.vars vid).width with
    | none => simpa using achieves_none
    | some k =>
      simp only [Option.isSome_some,true_and,not_not]
      by_cases hfree : S.block = true ∧ c.nProps < maxProps
      · refine iff_of_true ⟨by simp,fun _ n => ?_⟩ fun _ => hfree
        rw [hfree.1]
        exact admits_ne hok htab hid hv (initConstSingleton_spec hk) hfree.2 n
      · have hdrop := propAddBoundsNe32_dropped (x:=vid) (y:=c.nVars) (addVar_tables htab k) hfree
        have hdom : ∀ n, Admits c (propAddBoundsNe32 S.block (addVar c k) vid c.nVars 0) vid n ↔
            n ∈ (c.vars vid).dom := fun n => by
          rw [admits_same (show _ = c.nProps from hdrop.1),hdrop.2]
          simp only [addVar,Ctx.setVar,update_of_ne hid.ne]
        constructor
        · exact fun h hin => absurd rfl ((h.2 rfl _).mp ((hdom _).mpr hin)).2
        · refine fun h => ⟨by simp,fun _ n => (hdom n).trans ?_⟩
          exact ⟨fun hn => ⟨hn,fun he => hfree (h (he ▸ hn))⟩,And.left⟩

def Variable.last (v : Variable) : BitVec 64 :=
  if v.beyond then BitVec.allOnes 64 else intMax 64

def Straddles (v : Variable) : Prop :=
  v.beyond = true ∧ 0 ≤ (varLo64 v).toInt ∧ (varHi64 v).toInt < 0

theorem varOrd_le_last (v : Variable) (b : BitVec 64) : varOrd v b ≤ varOrd v v.last := by
  unfold Variable.last
  cases h : v.beyond
  · rw [varOrd_plain h,varOrd_plain h]
    simp only [false_eq_true,if_false]
    rw [BitVec.toInt_intMax]
    exact BitVec.toInt_le
  · rw [varOrd_beyond h,varOrd_beyond h]
    simp only [if_true,BitVec.toNat_allOnes]
    omega

/-- The signed tests find a number of the domain outside it exactly when the domain reaches over
the middle. -/
theorem excluded_iff {v : Variable} (h : varOrd v cv ∈ v.dom) :
    (cv.slt (varLo64 v) || (varHi64 v).slt cv) = true ↔ Straddles v := by
  obtain ⟨h1,h2⟩ := h
  unfold Variable.least at h1
  unfold Variable.most at h2
  rw [Bool.or_eq_true,BitVec.slt_iff_toInt_lt,BitVec.slt_iff_toInt_lt]
  unfold Straddles
  cases hb : v.beyond
  · rw [varOrd_plain hb,varOrd_plain hb] at h1 h2
    simp only [false_eq_true,false_and,iff_false]
    omega
  · rw [varOrd_beyond hb,varOrd_beyond hb] at h1 h2
    have e1 := BitVec.toInt_eq_toNat_cond cv
    have e2 := BitVec.toInt_eq_toNat_cond (varLo64 v)
    have e3 := BitVec.toInt_eq_toNat_cond (varHi64 v)
    simp only [true_and]
    split_ifs at e1 e2 e3 <;> omega

/-- What the inequality of a variable with a constant of its domain needs: no domain over the
middle, a number after the constant when it is the lower bound, and the propagator when it is
between the bounds. -/
def NeTaken (S : Supply) (c : Ctx) (vid : ℕ) (cv : BitVec 64) : Prop :=
  varOrd (c.vars vid) cv ∈ (c.vars vid).dom →
    ¬Straddles (c.vars vid) ∧ (cv = varLo64 (c.vars vid) → cv ≠ (c.vars vid).last) ∧
    (cv ≠ varLo64 (c.vars vid) → cv ≠ varHi64 (c.vars vid) → ¬Dropped S c vid cv)

theorem compile_neq_achieves (hok : c.Ok) (htab : TablesOk c) (hid : vid < c.nVars)
    (hv : (c.vars vid).Ok) :
    Achieves c vid (· ≠ varOrd (c.vars vid) cv)
      (if cv.slt (varLo64 (c.vars vid)) || (varHi64 (c.vars vid)).slt cv then (1,c)
      else if cv = varLo64 (c.vars vid) then bounded (ctxTightenLb64 c vid (cv+1#64))
      else if cv = varHi64 (c.vars vid) then bounded (ctxTightenUb64 c vid (cv-1#64))
      else compileNe S c vid cv) ↔ NeTaken S c vid cv := by
  unfold NeTaken
  split_ifs with hex hlo hhi
  · rw [achieves_as_is]
    exact ⟨fun h hin => absurd rfl (h _ hin),
      fun h n hn he => (h (he ▸ hn)).1 ((excluded_iff (he ▸ hn)).mp hex)⟩
  · rw [achieves_lb hok hv]
    have hleast : varOrd (c.vars vid) cv = (c.vars vid).least := by rw [hlo,Variable.least]
    have hsucc : varOrd (c.vars vid) (cv+1#64) = varOrd (c.vars vid) cv+1 ∨
        ∀ b, varOrd (c.vars vid) b ≤ varOrd (c.vars vid) cv := varOrd_add_one _ _
    rcases hsucc with hs | hs
    · refine iff_of_true (fun n hn => ?_) fun hin => ⟨mt (excluded_iff hin).mpr hex,fun _ he => ?_,
        fun h => absurd hlo h⟩
      · have := hn.1
        rw [hs]
        omega
      · have := varOrd_le_last (c.vars vid) (cv+1#64)
        rw [← he] at this
        omega
    · have hwrap := hs (cv+1#64)
      have hlast : cv = (c.vars vid).last := varOrd_inj (le_antisymm (varOrd_le_last _ _) (hs _))
      constructor
      · intro h hin
        exact absurd rfl ((h _ hin).mp hwrap)
      · exact fun h n hn => iff_of_true (by have := hn.1; omega)
          fun he => (h (he ▸ hn)).2.1 hlo hlast
  · rw [achieves_ub hok hv]
    have hmost : varOrd (c.vars vid) cv = (c.vars vid).most := by rw [hhi,Variable.most]
    refine iff_of_true (fun n hn => ?_) fun hin => ⟨mt (excluded_iff hin).mpr hex,fun h => absurd h hlo,
      fun _ h => absurd hhi h⟩
    obtain ⟨h1,h2⟩ := hn
    have hpred : varOrd (c.vars vid) (cv-1#64) = varOrd (c.vars vid) cv-1 ∨
        ∀ b, varOrd (c.vars vid) cv ≤ varOrd (c.vars vid) b := varOrd_sub_one _ _
    rcases hpred with hs | hs
    · rw [hs]
      omega
    · refine absurd (varOrd_inj (v:=c.vars vid) ?_) hlo
      have h3 := hs (varLo64 (c.vars vid))
      unfold Variable.least at h1
      omega
  · rw [compileNe_achieves hok htab hid hv]
    exact ⟨fun h hin => ⟨mt (excluded_iff hin).mpr hex,fun he => absurd he hlo,fun _ _ => h hin⟩,
      fun h hin => (h hin).2.2 hlo hhi⟩

theorem flipped_eq_neq (op : BinOp) (flip : Bool) :
    (if flip then flipped op else op) = .neq ↔ op = .neq := by
  cases flip <;> cases op <;> simp [flipped]

theorem comparesTo_iff (op : BinOp) (flip : Bool) (n k : ℤ) :
    ComparesTo op flip n k ↔ Compares (if flip then flipped op else op) n k := by
  unfold ComparesTo
  cases flip
  · rfl
  · exact (compares_flipped op n k).symm

/-- A comparison with a constant is compiled to what it says, exactly when it is no inequality
that is lost. -/
theorem compileVarConstCmp_exact (S : Supply) (c : Ctx) (op : BinOp) (vid : ℕ) (cv : BitVec 64)
    (flip : Bool) (hop : op.isCmp = true) (hok : c.Ok) (htab : TablesOk c) (hid : vid < c.nVars)
    (hv : (c.vars vid).Ok) :
    Achieves c vid (fun n => ComparesTo op flip n (varOrd (c.vars vid) cv))
      (compileVarConstCmp S c op vid cv flip) ↔ (op = .neq → NeTaken S c vid cv) := by
  simp only [comparesTo_iff]
  rw [← flipped_eq_neq op flip]
  have heff : (if flip then flipped op else op).isCmp = true := by
    cases flip <;> cases op <;> simp_all [flipped,BinOp.isCmp]
  unfold compileVarConstCmp
  generalize (if flip then flipped op else op) = eff at heff
  cases eff <;> simp only [Sv.BinOp.isCmp,false_eq_true] at heff
  case eq => exact iff_of_true (achieves_eq hok hv) (by simp)
  case neq =>
    simp only [Compares,true_implies]
    exact compile_neq_achieves hok htab hid hv
  case lte => exact iff_of_true ((achieves_ub hok hv).mpr fun n _ => Iff.rfl) (by simp)
  case gte => exact iff_of_true ((achieves_lb hok hv).mpr fun n _ => Iff.rfl) (by simp)
  case lt =>
    refine iff_of_true ?_ (by simp)
    simp only [Compares]
    split_ifs with hedge
    · rw [not_eq_true',edge_iff' hv] at hedge
      exact achieves_refused.mpr fun n hn => by
        have h1 := hv.bot.trans hn.1
        omega
    · rw [not_eq_true',edge_iff' hv,not_le] at hedge
      exact (achieves_ub hok hv).mpr fun n _ => by
        rw [varOrd_pred hv hedge]
        omega
  case gt =>
    refine iff_of_true ?_ (by simp)
    simp only [Compares]
    split_ifs with hedge
    · rw [not_eq_true',edge_iff hv] at hedge
      exact achieves_refused.mpr fun n hn => by
        have h1 := hn.2.trans hv.top
        omega
    · rw [not_eq_true',edge_iff hv,not_le] at hedge
      exact (achieves_lb hok hv).mpr fun n _ => by
        rw [varOrd_succ hv hedge]
        omega

end Compile

def words : Ctx := {oneProp with vars := fun _ => wideVar 0#64 (BitVec.allOnes 64) 64 false}

theorem words_ok : words.Ok ∧ TablesOk words ∧ (words.vars 0).Ok := by
  refine ⟨⟨⟨_,QueueOk.of_empty rfl fun _ => rfl⟩,⟨by simp [words,oneProp],by simp [words,oneProp]⟩,
    oneProp_ok.priority,oneProp_ok.watchers,oneProp_ok.refs⟩,?_,
    wideVar_ok (by decide) (by decide) (by decide) (by decide)⟩
  refine ⟨fun i r h => ?_,by decide,fun _ _ => rfl,fun _ _ => rfl,fun ix h => by
    simp [words,oneProp] at h⟩
  simp only [words,oneProp] at h ⊢
  split_ifs at h with hi
  exact ⟨by omega,hi.symm⟩

/-- `x < 2^63` on an open word. -/
theorem compileVarConstCmp_exact_word :
    Achieves words 0 (fun n => ComparesTo .lt false n (varOrd (words.vars 0) (intMin 64)))
      (compileVarConstCmp ⟨true,true,true⟩ words .lt 0 (intMin 64) false) :=
  (compileVarConstCmp_exact ⟨true,true,true⟩ words .lt 0 (intMin 64) false rfl words_ok.1
    words_ok.2.1 (by decide) words_ok.2.2).mpr (by simp)

/-- `x != 5` on an open word is compiled to nothing. -/
theorem compileVarConstCmp_wrong :
    compileVarConstCmp ⟨true,true,true⟩ words .neq 0 5#64 false = (1,words) ∧
    ¬Achieves words 0 (fun n => ComparesTo .neq false n (varOrd (words.vars 0) 5#64))
      (compileVarConstCmp ⟨true,true,true⟩ words .neq 0 5#64 false) := by
  have hrun : compileVarConstCmp ⟨true,true,true⟩ words .neq 0 5#64 false = (1,words) := rfl
  refine ⟨hrun,?_⟩
  rw [hrun,achieves_as_is]
  exact fun h => h (varOrd (words.vars 0) 5#64) ⟨by decide,by decide⟩ rfl

end Solver
end DvSolve
