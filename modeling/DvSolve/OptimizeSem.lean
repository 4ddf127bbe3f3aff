import DvSolve.FireSem
import DvSolve.MaxsatRelax
import DvSolve.Optimize

/-! What the bound of `dvs_solver_optimize` allows the next solve, and what that solve answers. -/
namespace DvSolve
namespace Optimize

open Maxsat Loop
open Solver (Variable PropResult SameType setBound varBLt varBGt varLo64 varHi64 varReprMin varOrd
  varOrd_beyond varOrd_plain varBLt_iff varBGt_iff varOrd_reprMin setBound_same ctxTightenUb64
  trailRecord_vars trailRecordUb afterTighten64 afterTighten_keeps afterTighten_fst)

variable {V : Type*} {p : Problem V} {o : Objective V} {F : Engine V} {v : Variable} {c : Ctx V}

def holds (v : Variable) (x : BitVec 64) : Bool :=
  !varBLt v x (varLo64 v) && !varBLt v (varHi64 v) x

theorem holds_iff {x : BitVec 64} :
    holds v x = true ↔ v.least ≤ varOrd v x ∧ varOrd v x ≤ v.most := by
  rw [holds,Bool.and_eq_true,Bool.not_eq_true',Bool.not_eq_true',← Bool.not_eq_true,
    ← Bool.not_eq_true,varBLt_iff,varBLt_iff,not_lt,not_lt]
  rfl

def lowest (v : Variable) : BitVec 64 := if v.beyond then 0#64 else BitVec.intMin 64

theorem varOrd_pred_lowest (v : Variable) (x : BitVec 64) :
    varOrd v x ≤ varOrd v (lowest v - 1#64) := by
  unfold lowest
  cases hb : v.beyond with
  | true =>
    rw [varOrd_beyond hb,varOrd_beyond hb]
    have htop : (0#64 - 1#64).toNat = 2^64-1 := by decide
    rw [if_pos rfl,htop]
    omega
  | false =>
    rw [varOrd_plain hb,varOrd_plain hb]
    have hx := BitVec.toInt_lt (x := x)
    have htop : (BitVec.intMin 64 - 1#64).toInt = 2^63-1 := by decide
    rw [if_neg Bool.false_ne_true,htop]
    omega

theorem varOrd_pred {x : BitVec 64} (hx : x ≠ lowest v) :
    varOrd v (x - 1#64) = varOrd v x - 1 := by
  unfold lowest at hx
  cases hb : v.beyond with
  | true =>
    rw [hb,if_pos rfl] at hx
    have hpos : x.toNat ≠ 0 := fun h => hx (BitVec.eq_of_toNat_eq h)
    rw [varOrd_beyond hb,varOrd_beyond hb,BitVec.toNat_sub,
      show (1#64).toNat = 1 from rfl,show 2^64-1+x.toNat = (x.toNat-1)+2^64 by omega,
      Nat.add_mod_right,Nat.mod_eq_of_lt (by omega)]
    omega
  | false =>
    rw [hb,if_neg Bool.false_ne_true] at hx
    have hge := BitVec.le_toInt x
    have hne : x.toInt ≠ -2^63 := fun h => hx (BitVec.eq_of_toInt_eq (h.trans (by decide)))
    have hlt := BitVec.toInt_lt (x := x)
    rw [varOrd_plain hb,varOrd_plain hb,BitVec.toInt_sub,show (1#64).toInt = 1 from rfl]
    exact Int.bmod_eq_of_le (by omega) (by omega)

theorem tightenUb_lowest (v : Variable) : tightenUb v (lowest v - 1#64) = (.ok,v) := by
  have hnot : varBLt v (lowest v - 1#64) (varHi64 v) = false := by
    rw [← Bool.not_eq_true,varBLt_iff,not_lt]
    exact varOrd_pred_lowest v (varHi64 v)
  rw [tightenUb,hnot]
  rfl

section Tighten

variable (hv : v.Ok) {x : BitVec 64} (h : holds v x = true) (hx : x ≠ lowest v)
include hv h hx

theorem tightenUb_conflict : (tightenUb v (x - 1#64)).1 = .conflict ↔ varOrd v x = v.least := by
  obtain ⟨h1,h2⟩ := holds_iff.mp h
  have hu := varOrd_pred hx
  have hhi : varBLt v (x - 1#64) (varHi64 v) = true := by
    rw [varBLt_iff,hu]
    exact (Int.sub_one_lt_of_le le_rfl).trans_le h2
  rw [tightenUb,hhi,Bool.not_true,if_neg Bool.false_ne_true]
  by_cases hmin : varBLt v (x - 1#64) (varReprMin v) = true
  · rw [if_pos hmin]
    rw [varBLt_iff,varOrd_reprMin hv.pos hv.le,hu] at hmin
    have hbot := hv.bot
    exact iff_of_true rfl (by omega)
  · rw [if_neg hmin]
    rw [varBLt_iff,varOrd_reprMin hv.pos hv.le,not_lt] at hmin
    have hmost := hv.setUb_most hmin (by rw [hu]; have := hv.top; omega)
    have hleast := Variable.Ok.setUb_least v (x - 1#64)
    have htest : varBGt (setBound v .ub (x - 1#64)) (varLo64 (setBound v .ub (x - 1#64)))
        (varHi64 (setBound v .ub (x - 1#64))) = true ↔ varOrd v x = v.least := by
      rw [varBGt_iff]
      show (setBound v .ub (x - 1#64)).most < (setBound v .ub (x - 1#64)).least ↔ _
      rw [hmost,hleast,hu]
      omega
    rw [← htest]
    show (if varBGt _ _ _ = true then PropResult.conflict else .ok) = .conflict ↔ _
    by_cases hgt : varBGt (setBound v .ub (x - 1#64)) (varLo64 (setBound v .ub (x - 1#64)))
        (varHi64 (setBound v .ub (x - 1#64))) = true
    · rw [if_pos hgt]
      exact iff_of_true rfl hgt
    · rw [if_neg hgt]
      exact iff_of_false nofun hgt

theorem holds_tightenUb (hok : (tightenUb v (x - 1#64)).1 ≠ .conflict) (y : BitVec 64) :
    holds (tightenUb v (x - 1#64)).2 y = true ↔ v.least ≤ varOrd v y ∧ varOrd v y < varOrd v x := by
  obtain ⟨h1,h2⟩ := holds_iff.mp h
  have hu := varOrd_pred hx
  have hne := mt (tightenUb_conflict hv h hx).mpr hok
  have hbot := hv.bot
  have htop := hv.top
  have hmin : ¬ varBLt v (x - 1#64) (varReprMin v) = true := by
    rw [varBLt_iff,varOrd_reprMin hv.pos hv.le,hu]
    omega
  have hhi : varBLt v (x - 1#64) (varHi64 v) = true := by
    rw [varBLt_iff,hu]
    exact (Int.sub_one_lt_of_le le_rfl).trans_le h2
  have hrec : (tightenUb v (x - 1#64)).2 = setBound v .ub (x - 1#64) := by
    rw [tightenUb,hhi,Bool.not_true,if_neg Bool.false_ne_true,if_neg hmin]
  rw [hrec,holds_iff,(setBound_same v .ub _).varOrd,Variable.Ok.setUb_least,
    hv.setUb_most (by omega) (by omega),hu]
  omega

end Tighten

/-- The problem with the domain of the record `v`, where the searches read it. -/
def within (p : Problem V) (o : Objective V) (v : Variable) : Problem V :=
  ⟨fun m => p.hard m && (!o.own || holds v (o.value m)),p.softs⟩

theorem within_hard {m : V} : (within p o v).hard m = true ↔
    p.hard m = true ∧ (o.own = true → holds v (o.value m) = true) := by
  cases ho : o.own <;> simp [within,ho]

/-- Every search is answered exactly, with the domain of the record it reads; propagation finds a
conflict only where there is no solution. -/
def Engine.Exact (F : Engine V) (p : Problem V) (o : Objective V) : Prop :=
  ∀ v, (F v).Exact (within p o v)

/-- The record is one that the compiler sets up, and no solution lies outside of it. -/
structure Objective.Fits (o : Objective V) (p : Problem V) : Prop where
  ok : o.var.Ok
  inside : ∀ m, p.hard m = true → holds o.var (o.value m) = true

theorem Objective.Fits.within_hard (h : o.Fits p) {m : V} :
    (within p o o.var).hard m = true ↔ p.hard m = true := by
  rw [Optimize.within_hard]
  exact and_iff_left_of_imp fun hm _ => h.inside m hm

def All (p : Problem V) (m : V) : Prop := p.hard m = true ∧ ∀ i ∈ p.indices, p.Meets m i

theorem feasible_within :
    p.indices ∈ (within p o v).feasible ↔ ∃ m, All p m ∧ (o.own = true → holds v (o.value m) = true) := by
  refine exists_congr fun m => ?_
  rw [within_hard]
  exact ⟨fun h => ⟨⟨h.1.1,h.2⟩,h.1.2⟩,fun h => ⟨⟨h.1.1,h.2⟩,h.1.2⟩⟩

structure Fresh (p : Problem V) (c : Ctx V) : Prop where
  of : c.Of p
  value : c.value = fun _ => true

theorem fresh_reset (h : c.Of p) : Fresh p (reset c) := ⟨h,rfl⟩

theorem dropping_of_softs {p q : Problem V} (h : p.softs = q.softs) {s : Ctx V × Bool}
    (hs : Dropping p s) : Dropping q s := by
  obtain ⟨hard,softs⟩ := p
  obtain ⟨hard',softs'⟩ := q
  subst h
  exact ⟨⟨hs.pinned.of,hs.pinned.mask,hs.pinned.value⟩,hs.closed,hs.fresh⟩

theorem solverSolve_first {m : V} (hm : (F v).core c.calls c.value = .ok m) :
    solverSolve F o v c =
      some (.ok { c.setMask (entryMask c) with calls := c.calls+1, found := some m }) := by
  rw [solverSolve,relaxRound_first hm]

section Solve

variable (hF : F.Exact p o) (hc : Fresh p c)
include hF hc

theorem core_all (h : p.indices ∈ (within p o v).feasible) :
    ∃ m, (F v).core c.calls c.value = .ok m ∧ All p m ∧ (o.own = true → holds v (o.value m) = true) := by
  have hmarks : marks c.value ∈ (within p o v).feasible := by
    rw [hc.value]
    exact (within p o v).all_feasible.mpr h
  obtain ⟨m,hm,h1,h2⟩ := (hF v).ok_of c.calls c.value hmarks
  obtain ⟨hhard,hbound⟩ := within_hard.mp h1
  exact ⟨m,hm,⟨hhard,fun i _ => h2 i (congrFun hc.value i)⟩,hbound⟩

section Few

variable (hn : p.softs.length ≤ 64) (h : p.indices ∉ (within p o v).feasible)
include hn h

theorem relaxRound_entry :
    (p.softs = [] ∧ ∃ c', relaxRound (F v) (c.setMask (entryMask c),false) = .exit (some (.unsat c'))) ∨
    (p.softs ≠ [] ∧ ∃ s, relaxRound (F v) (c.setMask (entryMask c),false) = .again s ∧
      Dropping p s ∧ (active p s.1.activeMask).ncard < p.softs.length) := by
  have hactive : active (within p o v) (entryMask c) = p.indices :=
    entryMask_active (p := within p o v) hn hc.of
  have hdrop : Dropping (within p o v) (c.setMask (entryMask c),false) :=
    dropping_entry (p := within p o v) hn hc.of hc.value
  have hinfeasible : active (within p o v) (entryMask c) ∉ (within p o v).feasible := by
    rw [hactive]
    exact h
  have hgood := relaxRound_unsat (hF v) hn hdrop hinfeasible
  have hncard : (active (within p o v) (entryMask c)).ncard = p.softs.length := by
    rw [hactive,p.indices_ncard]
  cases hr : relaxRound (F v) (c.setMask (entryMask c),false) with
  | exit r =>
    rw [hr] at hgood
    obtain ⟨hempty,c',rfl⟩ := hgood
    have hzero : (active (within p o v) (entryMask c)).ncard = 0 :=
      (congrArg Set.ncard hempty).trans (Set.ncard_empty ℕ)
    exact .inl ⟨List.eq_nil_of_length_eq_zero (hncard.symm.trans hzero),c',rfl⟩
  | again s =>
    rw [hr] at hgood
    obtain ⟨hs,hlt⟩ := hgood
    have hcard : (active (within p o v) s.1.activeMask).ncard < p.softs.length := hncard ▸ hlt
    refine .inr ⟨fun hnil => ?_,s,rfl,dropping_of_softs (p := within p o v) (q := p) rfl hs,hcard⟩
    rw [hnil] at hcard
    exact Nat.not_lt_zero _ hcard

theorem solverSolve_unsat (hsofts : p.softs = []) :
    ∃ c', solverSolve F o v c = some (.unsat c') := by
  obtain ⟨_,c',hr⟩ | ⟨hne,_⟩ := relaxRound_entry hF hc hn h
  · exact ⟨c',by rw [solverSolve,hr]⟩
  · exact absurd hsofts hne

/-- When the bound leaves no solution with all the softs the relaxation drops it, and answers as
for the problem itself. -/
theorem solverSolve_dropped (ho : o.Fits p) (hsofts : p.softs ≠ []) :
    (∃ c' m, solverSolve F o v c = some (.ok c') ∧ c'.Of p ∧ c'.found = some m ∧ p.hard m = true) ∨
    ((¬ ∃ m, p.hard m = true) ∧ ∃ c', solverSolve F o v c = some (.unsat c')) := by
  obtain ⟨hnil,_⟩ | ⟨_,s,hr,hdrop,hcard⟩ := relaxRound_entry hF hc hn h
  · exact absurd hnil hsofts
  · obtain ⟨r,hloop,hpost⟩ := loop_spec _ (fun s hs =>
      relaxRound_good (p := within p o o.var) (hF o.var) hn hs) 65 s
      (dropping_of_softs (p := p) (q := within p o o.var) rfl hdrop) (hcard.trans_le (by omega))
    have hsolve : solverSolve F o v c = r := by
      rw [solverSolve,hr]
      exact congrArg Option.join hloop
    rw [hsolve]
    obtain ⟨c',K,rfl,_,hc'⟩ | ⟨hno,c',rfl⟩ := hpost
    · obtain ⟨m,hm,hhard,_⟩ := hc'.found
      exact .inl ⟨c',m,rfl,hc'.pinned.of,hm,ho.within_hard.mp hhard⟩
    · exact .inr ⟨fun ⟨m,hm⟩ => hno ⟨m,ho.within_hard.mpr hm⟩,c',rfl⟩

end Few

theorem solverSolve_undefined (hn : 64 < p.softs.length)
    (h : p.indices ∉ (within p o v).feasible) : solverSolve F o v c = some .undefined := by
  rw [solverSolve,relaxRound_undefined (p := within p o v) (hF v) hn hc.of hc.value h]

end Solve

end Optimize
end DvSolve
