import Mathlib.Data.List.TakeWhile
import DvSolve.Lcg
import DvSolve.TrailSem

/-! Correctness of conflict analysis.
The working set, seen literals and clause body together, contradicts the constraints, the
learnt clauses and the root bounds, and every step keeps that true. The learnt clause is
its negation. -/
namespace DvSolve
namespace Solver

open BitVec (le_toInt toInt_lt)
open Bool (false_eq_true)
open Function (update_of_ne update_self)
open List (mem_append mem_cons mem_filter)

def varOrd (v : Variable) (x : BitVec 64) : ℤ :=
  if !v.signed && v.width ≥ 64 then x.toNat else x.toInt

theorem varBLt_iff (v : Variable) (a b : BitVec 64) :
    varBLt v a b = true ↔ varOrd v a < varOrd v b := by
  unfold varBLt varOrd
  split_ifs
  · rw [BitVec.ult_iff_lt,BitVec.lt_def]
    omega
  · rw [BitVec.slt_iff_toInt_lt]

theorem litHolds_iff (v : Variable) (l : Literal) (x : BitVec 64) : litHolds v l x = true ↔
    if l.isLb then varOrd v l.bound ≤ varOrd v x else varOrd v x ≤ varOrd v l.bound := by
  unfold litHolds varBGt
  split_ifs
  · rw [Bool.not_eq_true',← Bool.not_eq_true,varBLt_iff,not_lt]
  · rw [Bool.not_eq_true',← Bool.not_eq_true,varBLt_iff,not_lt]

/-- One below a bound, unless it is the least. -/
theorem varOrd_sub_one (v : Variable) (b : BitVec 64) :
    varOrd v (b-1) = varOrd v b-1 ∨ ∀ x, varOrd v b ≤ varOrd v x := by
  unfold varOrd
  split_ifs with h
  · by_cases h0 : b = 0
    · subst h0
      right
      intro x
      simp
    · left
      have : b.toNat ≠ 0 := fun h => h0 (BitVec.eq_of_toNat_eq (by simpa using h))
      have h1 : (1 : BitVec 64).toNat = 1 := rfl
      rw [BitVec.toNat_sub,h1]
      omega
  · by_cases h0 : b.toInt = -2^63
    · right
      intro x
      rw [h0]
      have := le_toInt x
      simpa using this
    · left
      have h1 := le_toInt b
      have h2 := toInt_lt (x := b)
      rw [BitVec.toInt_sub]
      have h3 : (1 : BitVec 64).toInt = 1 := rfl
      rw [h3,Int.bmod_eq_of_le]
      · norm_num at h1 ⊢
        omega
      · norm_num at h1 h2 ⊢
        omega

/-- One above a bound, unless it is the greatest. -/
theorem varOrd_add_one (v : Variable) (b : BitVec 64) :
    varOrd v (b+1) = varOrd v b+1 ∨ ∀ x, varOrd v x ≤ varOrd v b := by
  unfold varOrd
  split_ifs with h
  · by_cases h0 : b.toNat = 2^64-1
    · right
      intro x
      omega
    · left
      have h1 : (1 : BitVec 64).toNat = 1 := rfl
      rw [BitVec.toNat_add,h1]
      omega
  · have h3 : (1 : BitVec 64).toInt = 1 := rfl
    have h1 := le_toInt b
    by_cases h0 : b.toInt = 2^63-1
    · right
      intro x
      have := toInt_lt (x := x)
      omega
    · left
      have h2 := toInt_lt (x := b)
      rw [BitVec.toInt_add,h3,Int.bmod_eq_of_le]
      · norm_num
        omega
      · norm_num
        omega

section Negation

variable {v : Variable} {l : Literal} {x : BitVec 64}

theorem litHolds_negate (h : litHolds v l x ≠ true) : litHolds v (literalNegate l) x = true := by
  obtain ⟨id,isLb,b⟩ := l
  rw [Ne,litHolds_iff] at h
  rw [litHolds_iff]
  cases isLb
  · simp only [literalNegate,Bool.not_false,false_eq_true,if_true,if_false,not_le] at h ⊢
    rcases varOrd_add_one v b with hb | hb
    · omega
    · have := hb x
      omega
  · simp only [literalNegate,Bool.not_true,false_eq_true,if_true,if_false,not_le] at h ⊢
    rcases varOrd_sub_one v b with hb | hb
    · omega
    · have := hb x
      omega

theorem not_litHolds_of_negate {y : BitVec 64} (hy : litHolds v l y ≠ true)
    (h : litHolds v (literalNegate l) x = true) : litHolds v l x ≠ true := by
  obtain ⟨id,isLb,b⟩ := l
  rw [Ne,litHolds_iff] at hy ⊢
  rw [litHolds_iff] at h
  cases isLb
  · simp only [literalNegate,Bool.not_false,false_eq_true,if_true,if_false,not_le] at h hy ⊢
    rcases varOrd_add_one v b with hb | hb
    · omega
    · have := hb y
      omega
  · simp only [literalNegate,Bool.not_true,false_eq_true,if_true,if_false,not_le] at h hy ⊢
    rcases varOrd_sub_one v b with hb | hb
    · omega
    · have := hb y
      omega

theorem literalNegate_negate (l : Literal) : literalNegate (literalNegate l) = l := by
  obtain ⟨id,isLb,b⟩ := l
  cases isLb
  · exact congrArg (Literal.mk id false) (BitVec.add_sub_cancel _ _)
  · exact congrArg (Literal.mk id true) (BitVec.sub_add_cancel _ _)

theorem literalIsFalse_fails {vars : ℕ → Variable} (h : literalIsFalse vars l = true) :
    ∃ y, litHolds (vars l.varId) l y ≠ true := by
  unfold literalIsFalse at h
  unfold litHolds
  split_ifs at h with hl
  · exact ⟨varHi64 (vars l.varId),by simp [hl,h]⟩
  · exact ⟨varLo64 (vars l.varId),by simp [hl,h]⟩

theorem litHolds_of_stronger {a b : Literal} (hlb : a.isLb = b.isLb)
    (h : litStronger v a b = true) (ha : litHolds v a x = true) : litHolds v b x = true := by
  rw [litHolds_iff] at ha ⊢
  unfold litStronger varBGt at h
  rw [← hlb]
  split_ifs at h ha ⊢
  · rw [varBLt_iff] at h
    omega
  · rw [varBLt_iff] at h
    omega

theorem litHolds_of_not_stronger {a b : Literal} (hlb : a.isLb = b.isLb)
    (h : litStronger v a b ≠ true) (hb : litHolds v b x = true) : litHolds v a x = true := by
  rw [litHolds_iff] at hb ⊢
  unfold litStronger varBGt at h
  rw [← hlb] at hb
  split_ifs at h hb ⊢
  · have := mt (varBLt_iff _ _ _).mpr h
    omega
  · have := mt (varBLt_iff _ _ _).mpr h
    omega

end Negation

/-- The bounds without entry `e`. -/
def undoOne (vars : ℕ → Variable) (e : TrailEntry) : ℕ → Variable :=
  Function.update vars e.varId (setBound (vars e.varId) e.kind e.oldValue)

def before (vars : ℕ → Variable) (pre : List TrailEntry) : ℕ → Variable := pre.foldl undoOne vars

theorem before_append (vars : ℕ → Variable) (l l' : List TrailEntry) :
    before vars (l ++ l') = before (before vars l) l' := List.foldl_append

/-- Variables that differ in their bounds only. -/
structure SameShape (v v' : Variable) : Prop where
  width : v'.width = v.width
  signed : v'.signed = v.signed
  tier1 : v'.tier1 = v.tier1
  tier2 : v'.tier2 = v.tier2

theorem SameShape.refl (v : Variable) : SameShape v v := ⟨rfl,rfl,rfl,rfl⟩

theorem SameShape.trans {v v' v'' : Variable} (h : SameShape v v') (h' : SameShape v' v'') :
    SameShape v v'' :=
  ⟨h'.width.trans h.width,h'.signed.trans h.signed,h'.tier1.trans h.tier1,h'.tier2.trans h.tier2⟩

theorem setBound_shape (v : Variable) (k : TrailKind) (b : BitVec 64) :
    SameShape v (setBound v k b) := by
  cases k <;> unfold setBound <;> dsimp only <;> (try split_ifs) <;> exact ⟨rfl,rfl,rfl,rfl⟩

theorem before_shape (vars : ℕ → Variable) (l : List TrailEntry) (i : ℕ) :
    SameShape (vars i) (before vars l i) := by
  induction l generalizing vars with
  | nil => exact .refl _
  | cons e l ih =>
    refine SameShape.trans ?_ (ih (undoOne vars e))
    by_cases h : i = e.varId
    · subst h
      simp only [undoOne,update_self]
      exact setBound_shape _ _ _
    · simp only [undoOne,update_of_ne h]
      exact .refl _

theorem SameShape.litHolds {v v' : Variable} (h : SameShape v v') (l : Literal) (x : BitVec 64) :
    litHolds v' l x = litHolds v l x := by
  simp only [Solver.litHolds,varBGt,varBLt,h.width,h.signed]

theorem SameShape.readBound_setBound {v v' : Variable} (h : SameShape v v') (isLb : Bool)
    (hne : v.tier0 = true ∨ v.tier1 = true) (b : BitVec 64) :
    readBound (setBound v' (kindOf isLb) b) isLb = readBound (setBound v (kindOf isLb) b) isLb := by
  obtain ⟨lo',hi',⟨wlo',whi'⟩,w',s',t1',t2',aux'⟩ := v'
  obtain ⟨hw,hs,h1,h2⟩ := h
  simp only at hw hs h1 h2
  cases isLb <;> cases t1' <;> cases t2' <;>
    simp_all [setBound,kindOf,readBound,varLo64,varHi64,Variable.tier0]

variable {d isLb : Bool}

theorem readBound_setBound_ne (v : Variable) {k : TrailKind} (h : k ≠ kindOf isLb)
    (b : BitVec 64) : readBound (setBound v k b) isLb = readBound v isLb := by
  obtain ⟨lo,hi,⟨wlo,whi⟩,w,s,t1,t2,aux⟩ := v
  cases k <;> cases isLb <;> cases t1 <;> cases t2 <;> cases s <;>
    simp_all [setBound,kindOf,readBound,varLo64,varHi64,Variable.tier0]

theorem setBound_readBound (v : Variable) (isLb : Bool) (b : BitVec 64) :
    setBound (setBound v (kindOf isLb) b) (kindOf isLb) (readBound v isLb) = v := by
  obtain ⟨lo,hi,⟨wlo,whi⟩,w,s,t1,t2,aux⟩ := v
  cases isLb <;> cases t1 <;> cases t2 <;> cases s <;>
    simp [setBound,kindOf,readBound,varLo64,varHi64,Variable.tier0,setWidth_signExtend]

/-- The part of a bail-out or of a result that analysis was left in. -/
def outcome : Except Analysis Analysis → Analysis
  | .ok a => a
  | .error a => a

def Restores (vars : ℕ → Variable) (a : Analysis) : Prop := restoreRewound a.vars a.undo = vars

section Restores

variable {vars : ℕ → Variable} {a : Analysis} {s : Engine}

theorem rewindStep_vars (a : Analysis) (t : TrailEntry) :
    (rewindStep a t).vars = undoOne a.vars t := by
  unfold rewindStep undoOne
  split_ifs with h
  · rw [h]
    simp [setBound]
  · rfl

theorem Restores.rewindStep (h : Restores vars a) (t : TrailEntry) :
    Restores vars (rewindStep a t) := by
  unfold Solver.rewindStep
  split_ifs with hk
  · exact h
  · have hkind : t.kind = kindOf t.isLb := by
      unfold TrailEntry.isLb
      cases hk' : t.kind <;> simp_all [kindOf]
    refine Eq.trans ?_ h
    simp only [restoreRewound,List.foldl_cons,update_self]
    rw [hkind,setBound_readBound]
    simp

theorem Restores.rewindBefore (h : Restores vars a) (stop : ℕ) (l : List TrailEntry) :
    Restores vars (rewindBefore stop l a) := by
  induction l generalizing a with
  | nil => exact h
  | cons t l ih =>
    rw [Solver.rewindBefore]
    split_ifs
    · exact h
    · exact ih (h.rewindStep t)

theorem addSeen_frame (v : Variable) (a : Analysis) (l : Literal) :
    (addSeen v a l).vars = a.vars ∧ (addSeen v a l).undo = a.undo ∧
      (addSeen v a l).applied = a.applied := by
  unfold addSeen
  split
  · exact ⟨rfl,rfl,rfl⟩
  · split_ifs <;> exact ⟨rfl,rfl,rfl⟩

theorem addBody_frame (v : Variable) (a : Analysis) (l : Literal) :
    (outcome (addBody v a l)).vars = a.vars ∧ (outcome (addBody v a l)).undo = a.undo ∧
      (outcome (addBody v a l)).applied = a.applied := by
  unfold addBody
  split
  · split
    · split_ifs <;> exact ⟨rfl,rfl,rfl⟩
    · exact ⟨rfl,rfl,rfl⟩
  · split_ifs <;> exact ⟨rfl,rfl,rfl⟩

theorem addExplLit_frame (s : Engine) (a : Analysis) (l : Literal) :
    (outcome (addExplLit s a l)).vars = a.vars ∧ (outcome (addExplLit s a l)).undo = a.undo ∧
      (outcome (addExplLit s a l)).applied = a.applied := by
  unfold addExplLit
  split_ifs
  · exact ⟨rfl,rfl,rfl⟩
  · exact ⟨rfl,rfl,rfl⟩
  · split
    · exact ⟨rfl,rfl,rfl⟩
    · split_ifs
      · exact ⟨rfl,rfl,rfl⟩
      · exact addSeen_frame _ _ _
      · have h := addBody_frame (s.ctx.vars l.varId) a l
        cases hb : addBody (s.ctx.vars l.varId) a l with
        | error a' =>
          rw [hb] at h
          exact h
        | ok a' =>
          rw [hb] at h
          exact h

theorem addExplLits_frame (s : Engine) (a : Analysis) (ls : List Literal) :
    (outcome (addExplLits s a ls)).vars = a.vars ∧ (outcome (addExplLits s a ls)).undo = a.undo ∧
      (outcome (addExplLits s a ls)).applied = a.applied := by
  induction ls generalizing a with
  | nil => exact ⟨rfl,rfl,rfl⟩
  | cons l ls ih =>
    have h := addExplLit_frame s a l
    unfold addExplLits at ih ⊢
    rw [List.foldlM_cons]
    cases hl : addExplLit s a l with
    | error a' =>
      rw [hl] at h
      exact h
    | ok a' =>
      rw [hl] at h
      obtain ⟨h1,h2,h3⟩ := ih a'
      exact ⟨h1.trans h.1,h2.trans h.2.1,h3.trans h.2.2⟩

theorem Restores.addExplLits (h : Restores vars a) (ls : List Literal) :
    Restores vars (outcome (addExplLits s a ls)) := by
  obtain ⟨h1,h2,_⟩ := addExplLits_frame s a ls
  unfold Restores
  rw [h1,h2]
  exact h

theorem Restores.bind {r : Except Analysis Analysis} {f : Analysis → Except Analysis Analysis}
    (h : Restores vars (outcome r)) (hf : ∀ a, Restores vars a → Restores vars (outcome (f a))) :
    Restores vars (outcome (r >>= f)) := by
  cases r with
  | error a => exact h
  | ok a => exact hf a h

theorem Restores.needCurrent (h : Restores vars a) : Restores vars (outcome (needCurrent a)) := by
  unfold Solver.needCurrent
  split_ifs <;> exact h

theorem Restores.seedConflict (x : Explainers) (h : Restores vars a) :
    Restores vars (outcome (seedConflict x s a)) := by
  unfold Solver.seedConflict
  split
  · refine Restores.bind (h.addExplLits _) fun a h => Restores.bind h.needCurrent fun a h => ?_
    exact h
  · split
    · exact Restores.bind (h.addExplLits _) fun a h =>
        Restores.needCurrent (a := { a with conflictClause := none }) h
    · split
      · unfold seedProp
        split_ifs
        · exact h
        · exact Restores.bind (h.addExplLits _) fun a h => h.needCurrent
      · exact h

theorem Restores.resolveClause (h : Restores vars a) (e : TrailEntry) :
    Restores vars (outcome (resolveClause s e a)) := by
  unfold Solver.resolveClause
  split
  · exact h
  · exact h.addExplLits _

theorem Restores.resolveProp (x : Explainers) (h : Restores vars a) (stop : ℕ) (e : TrailEntry)
    (need : Literal) (ref : ℕ) : Restores vars (outcome (resolveProp x s stop e need ref a)) := by
  unfold Solver.resolveProp
  split
  · exact h
  · dsimp only
    split
    · exact h.rewindBefore stop _
    · exact (h.rewindBefore stop _).addExplLits _

theorem Restores.resolve (x : Explainers) (h : Restores vars a) (es : List TrailEntry) :
    Restores vars (outcome (resolve x s es a)) := by
  induction es generalizing a with
  | nil => exact h
  | cons e es ih =>
    rw [Solver.resolve]
    split
    · exact h
    · split
      · exact ih h
      · split
        · exact ih h
        · split
          · exact Restores.bind (Restores.resolveClause (a := a.unsee e) h e) fun a h => ih h
          · split
            · exact h
            · exact Restores.bind (Restores.resolveProp x (a := a.unsee e) h _ e _ _) fun a h => ih h

theorem Restores.resolved (x : Explainers) (s : Engine) :
    Restores s.ctx.vars (outcome (resolved x s)) := by
  have h : Restores s.ctx.vars (Analysis.start s) := rfl
  exact Restores.bind (h.seedConflict x) fun a h => Restores.bind (h.resolve x _) fun a h =>
    h.needCurrent

end Restores

theorem lcgAnalyzeConflict_vars (x : Explainers) (s : Engine) :
    (lcgAnalyzeConflict x s).2.ctx.vars = s.ctx.vars := by
  have h := Restores.resolved x s
  unfold lcgAnalyzeConflict
  split
  · rfl
  · unfold analyze
    split_ifs
    · rfl
    · cases hr : resolved x s with
      | error a =>
        rw [hr] at h
        exact h
      | ok a =>
        rw [hr] at h
        simp only [bind,Except.bind,emitClause]
        split_ifs <;> exact h

/-- Literal `l` holds of assignment `σ`; of the variables only the order is read. -/
def litSat (vars : ℕ → Variable) (σ : ℕ → BitVec 64) (l : Literal) : Prop :=
  litHolds (vars l.varId) l (σ l.varId) = true

/-- The bounds at level 0: nothing of a higher level is applied. -/
def rootVars (c : Ctx) : ℕ → Variable :=
  before c.vars ((trailEntries c).takeWhile fun e => e.decisionLevel > 0)

def withinRoot (c : Ctx) (σ : ℕ → BitVec 64) : Prop :=
  ∀ v < c.nVars, ∀ isLb, litSat c.vars σ ⟨v,isLb,readBound (rootVars c v) isLb⟩

/-- The assignments that satisfy the constraints `C`, the learnt clauses and the bounds at
level 0. -/
def Solution (C : (ℕ → BitVec 64) → Prop) (s : Engine) (σ : ℕ → BitVec 64) : Prop :=
  C σ ∧ (∀ ci lits, clauseAt s ci = some lits → ∃ l ∈ lits, litSat s.ctx.vars σ l) ∧ withinRoot s.ctx σ

structure TrailOk (c : Ctx) : Prop where
  sorted : (trailEntries c).Pairwise fun e e' => e'.decisionLevel ≤ e.decisionLevel
  levels : ∀ e ∈ trailEntries c, e.decisionLevel ≤ c.decisionLevel
  tiered : ∀ e ∈ trailEntries c, e.kind ≠ .hole →
    (c.vars e.varId).tier0 = true ∨ (c.vars e.varId).tier1 = true
  reads : ∀ e ∈ trailEntries c, e.kind ≠ .hole →
    readBound (setBound (c.vars e.varId) (kindOf e.isLb) e.oldValue) e.isLb = e.oldValue

section Root

variable {c : Ctx}

theorem TrailEntry.kind_eq {e : TrailEntry} (h : e.kind ≠ .hole) : e.kind = kindOf e.isLb := by
  unfold TrailEntry.isLb
  cases hk : e.kind <;> simp_all [kindOf]

def TrailEntry.at (e : TrailEntry) (v : ℕ) (isLb : Bool) : Bool :=
  e.varId == v && e.kind == kindOf isLb

theorem TrailEntry.at_iff {e : TrailEntry} {v : ℕ} : e.at v isLb = true ↔
    e.varId = v ∧ e.kind ≠ .hole ∧ e.isLb = isLb := by
  unfold TrailEntry.at TrailEntry.isLb
  cases hk : e.kind <;> cases isLb <;> simp [kindOf]

/-- Undoing one more entry puts back the value it saved, in its slot only. -/
theorem readBound_snoc (ht : TrailOk c) (l : List TrailEntry) {e : TrailEntry}
    (he : e ∈ trailEntries c) (v : ℕ) (isLb : Bool) :
    readBound (before c.vars (l ++ [e]) v) isLb =
      if e.at v isLb then e.oldValue else readBound (before c.vars l v) isLb := by
  rw [before_append,show before (before c.vars l) [e] = undoOne (before c.vars l) e from rfl,undoOne]
  split_ifs with hat
  · obtain ⟨rfl,hk,rfl⟩ := TrailEntry.at_iff.mp hat
    rw [update_self,TrailEntry.kind_eq hk,
      (before_shape c.vars l e.varId).readBound_setBound _ (ht.tiered e he hk)]
    exact ht.reads e he hk
  · by_cases hv : v = e.varId
    · subst hv
      rw [update_self]
      by_cases hk : e.kind = .hole
      · rw [hk]
        rfl
      · refine readBound_setBound_ne _ (fun h => hat ?_) _
        simp [TrailEntry.at,h]
    · rw [update_of_ne hv]

theorem readBound_before (ht : TrailOk c) {l : List TrailEntry} (hl : ∀ e ∈ l, e ∈ trailEntries c)
    (v : ℕ) (isLb : Bool) : readBound (before c.vars l v) isLb =
      match (l.filter fun e => e.at v isLb).reverse.head? with
      | some e => e.oldValue
      | none => readBound (c.vars v) isLb := by
  induction l using List.reverseRecOn with
  | nil => rfl
  | append_singleton l e ih =>
    have ih := ih fun e' he' => hl e' (by simp [he'])
    rw [readBound_snoc ht l (hl e (by simp)),List.filter_append,List.reverse_append]
    by_cases hat : e.at v isLb = true
    · have hf : [e].filter (fun e' => e'.at v isLb) = [e] := by simp [hat]
      rw [hf,if_pos hat]
      rfl
    · have hf : [e].filter (fun e' => e'.at v isLb) = [] := by simp [hat]
      rw [hf,if_neg hat,ih]
      rfl

theorem makerSearch_spec (holds : ℕ → Bool) (n lo hi : ℕ) (hn : hi-lo ≤ n) (hle : lo ≤ hi) :
    makerSearch holds n lo hi ≤ hi ∧
      (makerSearch holds n lo hi = hi ∨ holds (makerSearch holds n lo hi) = true) := by
  induction n generalizing lo hi with
  | zero =>
    obtain rfl : lo = hi := by omega
    exact ⟨le_refl _,Or.inl rfl⟩
  | succ n ih =>
    rw [makerSearch]
    by_cases hlt : lo < hi
    · rw [if_pos hlt]
      dsimp only
      cases hmid : holds (lo+(hi-lo)/2) with
      | true =>
        obtain ⟨h1,h2⟩ := ih lo (lo+(hi-lo)/2) (by omega) (by omega)
        rw [if_pos rfl]
        refine ⟨by omega,Or.inr ?_⟩
        rcases h2 with h2 | h2
        · rw [h2,hmid]
        · exact h2
      | false =>
        rw [if_neg (by simp)]
        exact ih _ _ (by omega) (by omega)
    · rw [if_neg hlt]
      exact ⟨hle,Or.inl (by omega)⟩

variable {bucket : List TrailEntry}

/-- A literal without a maker held in the oldest value of its bucket. -/
theorem litMaker_none {v : Variable} {l : Literal}
    (h : litMaker v bucket l = none) :
    bucket = [] ∨ ∃ e, bucket.head? = some e ∧ litHolds v l e.oldValue = true := by
  unfold litMaker at h
  dsimp only at h
  obtain ⟨h1,h2⟩ := makerSearch_spec (heldBefore v bucket l) (bucket.length+1) 0 bucket.length
    (by omega) (by omega)
  split_ifs at h with hpos
  · rw [List.getElem?_eq_none_iff] at h
    omega
  · have hzero := Nat.eq_zero_of_not_pos hpos
    rw [hzero] at h2
    cases bucket with
    | nil => exact Or.inl rfl
    | cons e bucket =>
      rcases h2 with h2 | h2
      · simp at h2
      · exact Or.inr ⟨e,rfl,h2⟩

theorem litMaker_some {v : Variable} {l : Literal} {m : TrailEntry}
    (h : litMaker v bucket l = some m) : m ∈ bucket := by
  unfold litMaker at h
  dsimp only at h
  split_ifs at h
  exact List.mem_of_getElem? h

theorem mem_mkIndex {v : ℕ} {m : TrailEntry} {es : List TrailEntry} {n : ℕ}
    (h : m ∈ mkIndex n es v isLb) : m ∈ es ∧ m.varId = v ∧ m.isLb = isLb := by
  unfold mkIndex at h
  rw [List.mem_reverse,mem_filter] at h
  obtain ⟨hm,hf⟩ := h
  simp only [Bool.and_eq_true,beq_iff_eq] at hf
  refine ⟨List.takeWhile_subset _ hm,hf.1.1,?_⟩
  unfold TrailEntry.isLb
  rw [hf.1.2]
  cases isLb <;> rfl

theorem litMaker_above {v : Variable} {es : List TrailEntry} {l : Literal} {m : TrailEntry} {n : ℕ}
    (h : litMaker v (mkIndex n es l.varId l.isLb) l = some m) : m.decisionLevel ≠ 0 := by
  have hmk := litMaker_some h
  unfold mkIndex at hmk
  rw [List.mem_reverse,mem_filter] at hmk
  have := List.mem_takeWhile_imp hmk.1
  simp only [decide_eq_true_eq] at this
  omega

/-- A literal that holds after undoing entries above the root, and was made by none of
them, holds at the root. -/
theorem litHolds_root (ht : TrailOk c) {l : Literal} (hv : l.varId < c.nVars)
    {pre : List TrailEntry} (hpre : ∀ e ∈ pre, e ∈ (trailEntries c).takeWhile fun e => e.decisionLevel > 0)
    (hnow : litHoldsNow (before c.vars pre) l = true)
    (hm : litMaker (c.vars l.varId) (mkIndex c.nVars (trailEntries c) l.varId l.isLb) l = none) :
    litHolds (c.vars l.varId) l (readBound (rootVars c l.varId) l.isLb) = true := by
  have hidx : mkIndex c.nVars (trailEntries c) l.varId l.isLb =
      (((trailEntries c).takeWhile fun e => e.decisionLevel > 0).filter
        fun e => e.at l.varId l.isLb).reverse := by
    unfold mkIndex
    congr 2
    funext e
    simp [TrailEntry.at,hv]
  have hroot := readBound_before ht (fun e he => List.takeWhile_subset _ he) l.varId l.isLb
    (l := (trailEntries c).takeWhile fun e => e.decisionLevel > 0)
  rw [← hidx] at hroot
  rw [rootVars,hroot]
  rcases litMaker_none hm with hnil | ⟨e,he,hold⟩
  · rw [hnil]
    simp only [List.head?_nil]
    have hno : pre.filter (fun e => e.at l.varId l.isLb) = [] := by
      rw [List.filter_eq_nil_iff]
      intro e he hat
      have hmem : e ∈ mkIndex c.nVars (trailEntries c) l.varId l.isLb := by
        rw [hidx,List.mem_reverse,mem_filter]
        exact ⟨hpre e he,hat⟩
      rw [hnil] at hmem
      simp at hmem
    have hread := readBound_before ht (fun e he => List.takeWhile_subset _ (hpre e he)) l.varId l.isLb
      (l := pre)
    rw [hno] at hread
    unfold litHoldsNow at hnow
    rwa [hread,(before_shape c.vars pre l.varId).litHolds] at hnow
  · rw [he]
    exact hold

end Root

section Slots

variable {α : Type} (f : ℕ → Bool → α) (v : ℕ) (b : Bool) (x : α)

@[simp] theorem setSlot_self : setSlot f v b x v b = x := by simp [setSlot]

theorem setSlot_ne {w : ℕ} (h : ¬(w = v ∧ d = b)) : setSlot f v b x w d = f w d := by
  unfold setSlot
  by_cases hw : w = v
  · subst hw
    have hd : d ≠ b := fun hd => h ⟨rfl,hd⟩
    rw [update_self,update_of_ne hd]
  · rw [update_of_ne hw]

theorem setSlot_eq {w : ℕ} :
    setSlot f v b x w d = if w = v ∧ d = b then x else f w d := by
  split_ifs with h
  · obtain ⟨rfl,rfl⟩ := h
    exact setSlot_self f w d x
  · exact setSlot_ne f v b x h

end Slots

/-- Each slot holds a literal of its own, made at the current level, and each body
position the negation of one. -/
structure WorkOk (c : Ctx) (a : Analysis) : Prop where
  seen : ∀ v b l, a.seen v b = some l → l.varId = v ∧ l.isLb = b ∧
    ∃ e ∈ trailEntries c, e.decisionLevel = c.decisionLevel ∧ e.varId = v ∧ e.isLb = b
  body : ∀ v b p, a.bodyPos v b = some p → ∃ n, a.learnt[p]? = some n ∧ n.varId = v ∧ n.isLb = !b

/-- No solution satisfies the working set together with `ls`. -/
def Contradicts (C : (ℕ → BitVec 64) → Prop) (s : Engine) (a : Analysis) (ls : List Literal) :
    Prop :=
  ∀ σ, Solution C s σ → (∀ v b l, a.seen v b = some l → litSat s.ctx.vars σ l) →
    (∀ n ∈ a.learnt, litSat s.ctx.vars σ (literalNegate n)) →
    (∀ l ∈ ls, litSat s.ctx.vars σ l) → False

def SeenHold (vars : ℕ → Variable) (a : Analysis) : Prop :=
  ∀ v b l, a.seen v b = some l → litHoldsNow vars l = true

structure Rewound (c : Ctx) (pre : List TrailEntry) (a : Analysis) : Prop where
  trail : trailEntries c = pre ++ a.applied
  vars : a.vars = before c.vars pre
  above : ∀ e ∈ pre, 0 < e.decisionLevel

structure Added (C : (ℕ → BitVec 64) → Prop) (s : Engine) (a : Analysis) (ls : List Literal)
    (a' : Analysis) : Prop where
  work : WorkOk s.ctx a'
  contradicts : ∀ ms, Contradicts C s a (ls ++ ms) → Contradicts C s a' ms
  seenHold : ∀ vars, SeenHold vars a → (∀ l ∈ ls, litHoldsNow vars l = true) → SeenHold vars a'

variable {ls : List Literal}

section Adding

variable {C : (ℕ → BitVec 64) → Prop} {s : Engine} {a a' : Analysis} {l : Literal}

theorem addSeen_added (hw : WorkOk s.ctx a)
    (hm : ∃ e ∈ trailEntries s.ctx, e.decisionLevel = s.ctx.decisionLevel ∧ e.varId = l.varId ∧
      e.isLb = l.isLb) : Added C s a [l] (addSeen (s.ctx.vars l.varId) a l) := by
  have hset : ∀ n, WorkOk s.ctx
        { a with seen := setSlot a.seen l.varId l.isLb (some l), nAtCurLevel := n } ∧
      ∀ vars, SeenHold vars a → (∀ l' ∈ [l], litHoldsNow vars l' = true) → SeenHold vars
        { a with seen := setSlot a.seen l.varId l.isLb (some l), nAtCurLevel := n } := by
    intro n
    refine ⟨⟨fun v b l' h => ?_,hw.body⟩,fun vars hs hl v b l' h => ?_⟩
    · simp only [setSlot_eq] at h
      split_ifs at h with hvb
      · obtain ⟨rfl,rfl⟩ := hvb
        obtain rfl : l = l' := by simpa using h
        exact ⟨rfl,rfl,hm⟩
      · exact hw.seen v b l' h
    · simp only [setSlot_eq] at h
      split_ifs at h with hvb
      · obtain rfl : l = l' := by simpa using h
        exact hl l (by simp)
      · exact hs v b l' h
  unfold addSeen
  cases hold : a.seen l.varId l.isLb with
  | none =>
    refine ⟨(hset _).1,fun ms hc σ hσ hseen hbody hms => ?_,(hset _).2⟩
    refine hc σ hσ (fun v b l' h => hseen v b l' ?_) hbody fun l' hl' => ?_
    · simp only [setSlot_eq]
      split_ifs with hvb
      · rw [hvb.1,hvb.2,hold] at h
        simp at h
      · exact h
    · rcases mem_append.mp hl' with hl' | hl'
      · obtain rfl : l' = l := by simpa using hl'
        exact hseen l'.varId l'.isLb l' (by simp)
      · exact hms l' hl'
  | some old =>
    obtain ⟨hv,hb,_⟩ := hw.seen _ _ _ hold
    dsimp only
    split_ifs with hstr
    · refine ⟨(hset _).1,fun ms hc σ hσ hseen hbody hms => ?_,(hset _).2⟩
      have hl : litSat s.ctx.vars σ l := hseen l.varId l.isLb l (by simp)
      refine hc σ hσ (fun v b l' h => ?_) hbody fun l' hl' => ?_
      · by_cases hvb : v = l.varId ∧ b = l.isLb
        · rw [hvb.1,hvb.2,hold,Option.some.injEq] at h
          subst h
          unfold litSat at hl ⊢
          rw [hv]
          exact litHolds_of_stronger hb.symm hstr hl
        · exact hseen v b l' (by simp only [setSlot_eq,if_neg hvb,h])
      · rcases mem_append.mp hl' with hl' | hl'
        · obtain rfl : l' = l := by simpa using hl'
          exact hl
        · exact hms l' hl'
    · refine ⟨hw,fun ms hc σ hσ hseen hbody hms => ?_,fun vars hs _ => hs⟩
      refine hc σ hσ hseen hbody fun l' hl' => ?_
      rcases mem_append.mp hl' with hl' | hl'
      · obtain rfl : l' = l := by simpa using hl'
        have h := hseen _ _ _ hold
        unfold litSat at h ⊢
        rw [hv] at h
        exact litHolds_of_not_stronger hb.symm (by simpa using hstr) h
      · exact hms l' hl'

theorem addBody_added (hw : WorkOk s.ctx a) (h : addBody (s.ctx.vars l.varId) a l = .ok a') :
    Added C s a [l] a' := by
  unfold addBody at h
  cases hpos : a.bodyPos l.varId l.isLb with
  | some p =>
    rw [hpos] at h
    obtain ⟨n,hn,hv,hb⟩ := hw.body _ _ _ hpos
    simp only [hn] at h
    have hneg : (literalNegate n).isLb = l.isLb := by simp [literalNegate,hb]
    split_ifs at h with hstr
    · obtain rfl := Except.ok.inj h
      have hp : p < a.learnt.length := (List.getElem?_eq_some_iff.mp hn).1
      refine ⟨⟨hw.seen,fun v b p' hp' => ?_⟩,fun ms hc σ hσ hseen hbody hms => ?_,fun vars hs _ => hs⟩
      · obtain ⟨n',hn',hv',hb'⟩ := hw.body v b p' hp'
        by_cases hpp : p = p'
        · subst hpp
          rw [hn,Option.some.injEq] at hn'
          subst hn'
          refine ⟨literalNegate l,by simp [hp],?_,?_⟩
          · rw [← hv',hv]
            rfl
          · rw [← hb',hb]
            rfl
        · exact ⟨n',by rw [List.getElem?_set_ne hpp,hn'],hv',hb'⟩
      · have hl : litSat s.ctx.vars σ l := by
          have := hbody (literalNegate l) (List.mem_set hp _)
          rwa [literalNegate_negate] at this
        refine hc σ hσ hseen (fun n' hn' => ?_) fun l' hl' => ?_
        · obtain ⟨i,hi,rfl⟩ := List.getElem_of_mem hn'
          by_cases hip : p = i
          · subst hip
            have hni : a.learnt[p] = n := (List.getElem?_eq_some_iff.mp hn).2
            rw [hni]
            unfold litSat at hl ⊢
            rw [show (literalNegate n).varId = l.varId from hv]
            exact litHolds_of_stronger hneg.symm hstr hl
          · refine hbody _ (List.mem_iff_getElem?.mpr ⟨i,?_⟩)
            rw [List.getElem?_set_ne hip,List.getElem?_eq_getElem hi]
        · rcases mem_append.mp hl' with hl' | hl'
          · obtain rfl : l' = l := by simpa using hl'
            exact hl
          · exact hms l' hl'
    · obtain rfl := Except.ok.inj h
      refine ⟨hw,fun ms hc σ hσ hseen hbody hms => ?_,fun vars hs _ => hs⟩
      refine hc σ hσ hseen hbody fun l' hl' => ?_
      rcases mem_append.mp hl' with hl' | hl'
      · obtain rfl : l' = l := by simpa using hl'
        have h := hbody n (List.mem_of_getElem? hn)
        unfold litSat at h ⊢
        rw [show (literalNegate n).varId = l'.varId from hv] at h
        exact litHolds_of_not_stronger hneg.symm (by simpa using hstr) h
      · exact hms l' hl'
  | none =>
    rw [hpos] at h
    split_ifs at h
    obtain rfl := Except.ok.inj h
    refine ⟨⟨hw.seen,fun v b p hp => ?_⟩,fun ms hc σ hσ hseen hbody hms => ?_,fun vars hs _ => hs⟩
    · simp only [setSlot_eq] at hp
      split_ifs at hp with hvb
      · obtain rfl : a.learnt.length = p := by simpa using hp
        exact ⟨literalNegate l,by simp,hvb.1.symm,by rw [hvb.2]; rfl⟩
      · obtain ⟨n,hn,hv,hb⟩ := hw.body v b p hp
        exact ⟨n,by rw [List.getElem?_append_left (List.getElem?_eq_some_iff.mp hn).1,hn],hv,hb⟩
    · refine hc σ hσ hseen (fun n hn => hbody n (by simp [hn])) fun l' hl' => ?_
      rcases mem_append.mp hl' with hl' | hl'
      · obtain rfl : l' = l := by simpa using hl'
        have := hbody (literalNegate l') (by simp)
        rwa [literalNegate_negate] at this
      · exact hms l' hl'

theorem Rewound.mem_above {c : Ctx} {pre : List TrailEntry} (h : Rewound c pre a) :
    ∀ e ∈ pre, e ∈ (trailEntries c).takeWhile fun e => e.decisionLevel > 0 := by
  intro e he
  rw [h.trail,List.takeWhile_append_of_pos (by simpa using h.above)]
  exact List.mem_append_left _ he

theorem addExplLit_added (ht : TrailOk s.ctx) {pre : List TrailEntry} (hw : WorkOk s.ctx a)
    (hr : Rewound s.ctx pre a) (h : addExplLit s a l = .ok a') :
    litHoldsNow a.vars l = true ∧ Added C s a [l] a' := by
  unfold addExplLit at h
  split_ifs at h with hv hnow
  simp only [ge_iff_le,not_le] at hv
  simp only [Bool.not_eq_true',Bool.not_eq_false] at hnow
  refine ⟨hnow,?_⟩
  cases hm : litMaker (s.ctx.vars l.varId)
      (mkIndex s.ctx.nVars (trailEntries s.ctx) l.varId l.isLb) l with
  | none =>
    rw [hm] at h
    obtain rfl := Except.ok.inj h
    rw [hr.vars] at hnow
    have hroot := litHolds_root ht hv hr.mem_above hnow hm
    refine ⟨hw,fun ms hc σ hσ hseen hbody hms => ?_,fun vars hs _ => hs⟩
    refine hc σ hσ hseen hbody fun l' hl' => ?_
    rcases mem_append.mp hl' with hl' | hl'
    · obtain rfl : l' = l := by simpa using hl'
      have hb := hσ.2.2 l'.varId hv l'.isLb
      unfold litSat at hb ⊢
      simp only [litHolds_iff] at hb hroot ⊢
      split_ifs at hb hroot ⊢ <;> omega
    · exact hms l' hl'
  | some m =>
    rw [hm] at h
    obtain ⟨hmem,hmv,hmb⟩ := mem_mkIndex (litMaker_some hm)
    dsimp only at h
    rw [if_neg (litMaker_above hm)] at h
    split_ifs at h with hcur
    · obtain rfl := Except.ok.inj h
      exact addSeen_added hw ⟨m,hmem,hcur,hmv,hmb⟩
    · cases hb : addBody (s.ctx.vars l.varId) a l with
      | error a₁ =>
        rw [hb] at h
        cases h
      | ok a₁ =>
        rw [hb] at h
        obtain rfl := Except.ok.inj h
        have h1 := addBody_added (C := C) hw hb
        exact ⟨⟨h1.work.seen,h1.work.body⟩,h1.contradicts,h1.seenHold⟩

theorem Rewound.frame {c : Ctx} {pre : List TrailEntry} (hr : Rewound c pre a)
    (hv : a'.vars = a.vars) (ha : a'.applied = a.applied) : Rewound c pre a' :=
  ⟨by rw [ha,hr.trail],hv.trans hr.vars,hr.above⟩

theorem addExplLits_added (ht : TrailOk s.ctx) {pre : List TrailEntry}
    (hw : WorkOk s.ctx a) (hr : Rewound s.ctx pre a) (h : addExplLits s a ls = .ok a') :
    (∀ l ∈ ls, litHoldsNow a.vars l = true) ∧ Rewound s.ctx pre a' ∧ Added C s a ls a' := by
  have hframe := addExplLits_frame s a ls
  rw [h] at hframe
  have hr' : Rewound s.ctx pre a' := hr.frame hframe.1 hframe.2.2
  suffices hmain : (∀ l ∈ ls, litHoldsNow a.vars l = true) ∧ Added C s a ls a' from
    ⟨hmain.1,hr',hmain.2⟩
  clear hframe hr'
  unfold addExplLits at h
  induction ls generalizing a with
  | nil =>
    obtain rfl := Except.ok.inj h
    exact ⟨by simp,hw,fun ms hc => hc,fun vars hs _ => hs⟩
  | cons l ls ih =>
    rw [List.foldlM_cons] at h
    cases hl : addExplLit s a l with
    | error a₁ =>
      rw [hl] at h
      cases h
    | ok a₁ =>
      rw [hl] at h
      obtain ⟨hnow,h1⟩ := addExplLit_added (C := C) ht hw hr hl
      have hf := addExplLit_frame s a l
      rw [hl] at hf
      obtain ⟨hnow',h2⟩ := ih h1.work (hr.frame hf.1 hf.2.2) h
      refine ⟨fun l' hl' => ?_,h2.work,fun ms hc => ?_,fun vars hs hls => ?_⟩
      · rcases mem_cons.mp hl' with rfl | hl'
        · exact hnow
        · have := hnow' l' hl'
          rwa [show a₁.vars = a.vars from hf.1] at this
      · refine h2.contradicts ms (h1.contradicts (ls ++ ms) ?_)
        rwa [List.singleton_append,← List.cons_append]
      · exact h2.seenHold vars (h1.seenHold vars hs fun l' hl' => hls l' (by
          obtain rfl : l' = l := by simpa using hl'
          simp)) fun l' hl' => hls l' (by simp [hl'])

end Adding

/-- What the recorded conflict says: the clause is false, and the propagator has no
solution within the bounds it watches while its guard is 1. -/
structure ConflictOk (C : (ℕ → BitVec 64) → Prop) (x : Explainers) (s : Engine) : Prop where
  clause : conflictVar s.ctx = none → ∀ ci lits, s.conflictClause = some ci →
    clauseAt s ci = some lits → ∀ l ∈ lits, literalIsFalse s.ctx.vars l = true
  prop : conflictVar s.ctx = none → s.conflictClause.bind (clauseAt s) = none →
    ∀ ref, s.conflictProp = some ref → ∀ σ, C σ →
    ¬∀ l ∈ watchLits s.ctx (x.watchedVars ref) ++ guardLit s.ctx ref, litSat s.ctx.vars σ l

variable {σ : ℕ → BitVec 64}

section Seeding

variable {C : (ℕ → BitVec 64) → Prop} {s : Engine} {a a' : Analysis} {x : Explainers}

theorem crossingLits_contradict {v : ℕ}
    (hv : varBGt (s.ctx.vars v) (varLo64 (s.ctx.vars v)) (varHi64 (s.ctx.vars v)) = true)
    (h : ∀ l ∈ crossingLits s.ctx v, litSat s.ctx.vars σ l) : False := by
  unfold varBGt at hv
  rw [varBLt_iff] at hv
  unfold crossingLits at h
  split_ifs at h
  · have h1 := h _ (List.mem_cons_self)
    have h2 := h _ (List.mem_cons_of_mem _ List.mem_cons_self)
    unfold litSat at h1 h2
    rw [litHolds_iff] at h1 h2
    simp only [false_eq_true,if_true,if_false] at h1 h2
    rcases varOrd_sub_one (s.ctx.vars v) (varLo64 (s.ctx.vars v)) with hb | hb
    · omega
    · have := hb (varHi64 (s.ctx.vars v))
      omega
  · have h1 := h _ (List.mem_cons_self)
    have h2 := h _ (List.mem_cons_of_mem _ List.mem_cons_self)
    unfold litSat at h1 h2
    rw [litHolds_iff] at h1 h2
    simp only [false_eq_true,if_true,if_false] at h1 h2
    rcases varOrd_add_one (s.ctx.vars v) (varHi64 (s.ctx.vars v)) with hb | hb
    · omega
    · have := hb (varLo64 (s.ctx.vars v))
      omega

theorem needCurrent_ok (h : needCurrent a = .ok a') : a' = a := by
  unfold needCurrent at h
  split_ifs at h
  exact (Except.ok.inj h).symm

theorem except_bind_ok {α β : Type} {r : Except Analysis α} {f : α → Except Analysis β} {b : β}
    (h : r >>= f = .ok b) : ∃ a, r = .ok a ∧ f a = .ok b := by
  cases r with
  | error a => cases h
  | ok a => exact ⟨a,rfl,h⟩

structure Seeded (C : (ℕ → BitVec 64) → Prop) (s : Engine) (a : Analysis) : Prop where
  work : WorkOk s.ctx a
  rewound : Rewound s.ctx [] a
  contradicts : Contradicts C s a []
  seenHold : SeenHold s.ctx.vars a

theorem seeded_of_lits (ht : TrailOk s.ctx)
    (hls : ∀ σ, Solution C s σ → ¬∀ l ∈ ls, litSat s.ctx.vars σ l)
    (h : addExplLits s (Analysis.start s) ls = .ok a) : Seeded C s a := by
  have hw : WorkOk s.ctx (Analysis.start s) :=
    ⟨fun v b l h => by simp [Analysis.start] at h,fun v b p h => by simp [Analysis.start] at h⟩
  have hr : Rewound s.ctx [] (Analysis.start s) := ⟨rfl,rfl,by simp⟩
  obtain ⟨hnow,hr',hadd⟩ := addExplLits_added (C := C) ht hw hr h
  refine ⟨hadd.work,hr',hadd.contradicts [] ?_,hadd.seenHold s.ctx.vars ?_ hnow⟩
  · intro σ hσ _ _ hl
    exact hls σ hσ (by simpa using hl)
  · intro v b l h
    simp [Analysis.start] at h

theorem seedConflict_seeded (ht : TrailOk s.ctx) (hc : ConflictOk C x s)
    (h : seedConflict x s (Analysis.start s) = .ok a) : Seeded C s a := by
  unfold seedConflict at h
  split at h
  · rename_i v hv
    have hgt := List.find?_some hv
    obtain ⟨a₁,h1,h'⟩ := except_bind_ok h
    obtain ⟨a₂,h2,h3⟩ := except_bind_ok h'
    obtain rfl := needCurrent_ok h2
    obtain rfl := Except.ok.inj h3
    have hs := seeded_of_lits (C := C) ht (fun σ _ hl => crossingLits_contradict hgt hl) h1
    exact ⟨⟨hs.work.seen,hs.work.body⟩,⟨hs.rewound.trail,hs.rewound.vars,hs.rewound.above⟩,
      hs.contradicts,hs.seenHold⟩
  · rename_i hv
    split at h
    · rename_i lits hlits
      obtain ⟨ci,hci,hat⟩ := Option.bind_eq_some_iff.mp hlits
      obtain ⟨a₁,h1,h⟩ := except_bind_ok h
      obtain rfl := needCurrent_ok h
      have hs := seeded_of_lits (C := C) ht (fun σ hσ hl => by
        obtain ⟨l,hl',hsat⟩ := hσ.2.1 ci lits hat
        obtain ⟨y,hy⟩ := literalIsFalse_fails (hc.clause hv ci lits hci hat l hl')
        exact not_litHolds_of_negate hy (hl _ (List.mem_map.mpr ⟨l,hl',rfl⟩)) hsat) h1
      exact ⟨⟨hs.work.seen,hs.work.body⟩,⟨hs.rewound.trail,hs.rewound.vars,hs.rewound.above⟩,
        hs.contradicts,hs.seenHold⟩
    · rename_i hno
      split at h
      · rename_i ref href
        unfold seedProp at h
        split_ifs at h
        obtain ⟨a₁,h1,h⟩ := except_bind_ok h
        obtain rfl := needCurrent_ok h
        exact seeded_of_lits ht (fun σ hσ hl => hc.prop hv hno ref href σ hσ.1 hl) h1
      · cases h

end Seeding

def ownLit (x : Explainers) (ref : ℕ) (e : TrailEntry) : List Literal :=
  if x.explainsWithoutOwnBound ref then [] else [⟨e.varId,e.isLb,e.oldValue⟩]

def ClauseReasons (s : Engine) : Prop :=
  ∀ pre e rest ci lits, trailEntries s.ctx = pre ++ e :: rest → e.kind ≠ .hole →
    e.fromClause = true → e.propRef = some ci → clauseAt s ci = some lits → ∀ l ∈ lits,
    if l.varId = e.varId ∧ l.isLb = e.isLb then
      litHolds (s.ctx.vars e.varId)
        ⟨e.varId,e.isLb,readBound (before s.ctx.vars pre e.varId) e.isLb⟩ l.bound = true
    else literalIsFalse (before s.ctx.vars (pre ++ [e])) l = true

/-- The explainers are valid: an explanation, read in the bounds before the entry, implies
any bound the entry newly established, with the guard and the own bound where these are
added. -/
def ExplainersOk (C : (ℕ → BitVec 64) → Prop) (x : Explainers) (s : Engine) : Prop :=
  ∀ pre e rest ref f need lits, trailEntries s.ctx = pre ++ e :: rest → e.kind ≠ .hole →
    e.fromClause = false → e.propRef = some ref → x.explain ref = some f →
    need.varId = e.varId → need.isLb = e.isLb → litHoldsNow (before s.ctx.vars pre) need = true →
    litHolds (s.ctx.vars e.varId) need e.oldValue = false →
    f { s.ctx with vars := before s.ctx.vars (pre ++ [e]) } e.varId e.isLb need.bound = some lits →
    ∀ σ, C σ → (∀ l ∈ lits ++ guardLit s.ctx ref ++ ownLit x ref e, litSat s.ctx.vars σ l) →
    litSat s.ctx.vars σ need

structure ReasonsOk (C : (ℕ → BitVec 64) → Prop) (x : Explainers) (s : Engine) : Prop where
  clause : ClauseReasons s
  explain : ExplainersOk C x s

/-- What is left of a conflict: in each of `slots` the strongest literal made at the current
level, and the slots with a literal of a lower level. -/
structure Cut where
  needs : ℕ → Bool → Option Literal
  slots : Finset (ℕ × Bool)
  lower : Finset (ℕ × Bool)
  mem_slots : ∀ v b, (v,b) ∈ slots ↔ (needs v b).isSome = true

def Cut.empty : Cut := ⟨fun _ _ => none,∅,∅,by simp⟩

def Cut.size (k : Cut) : ℕ := k.lower.card+k.slots.card

def Cut.need (k : Cut) (l : Literal) : Cut where
  needs := setSlot k.needs l.varId l.isLb (some l)
  slots := insert (l.varId,l.isLb) k.slots
  lower := k.lower
  mem_slots v b := by
    rw [setSlot_eq,Finset.mem_insert,k.mem_slots,Prod.mk.injEq]
    split_ifs with h <;> simp [h]

def Cut.drop (k : Cut) (e : TrailEntry) : Cut where
  needs := setSlot k.needs e.varId e.isLb none
  slots := k.slots.erase (e.varId,e.isLb)
  lower := k.lower
  mem_slots v b := by
    rw [setSlot_eq,Finset.mem_erase,k.mem_slots,Ne,Prod.mk.injEq]
    split_ifs with h <;> simp [h]

/-- A literal that holds at the root is left out. -/
def Cut.add (c : Ctx) (k : Cut) (l : Literal) : Cut :=
  match litMaker (c.vars l.varId) (mkIndex c.nVars (trailEntries c) l.varId l.isLb) l with
  | none => k
  | some m =>
    if m.decisionLevel ≠ c.decisionLevel then { k with lower := insert (l.varId,l.isLb) k.lower }
    else if (k.needs l.varId l.isLb).all (litStronger (c.vars l.varId) l) then k.need l else k

def Cut.adds (c : Ctx) (k : Cut) (ls : List Literal) : Cut := ls.foldl (Cut.add c) k

/-- More than one literal of the current level, or the one that crossed its domain's other end. -/
def Cut.Open (k : Cut) (crossing : Option (ℕ × Bool)) : Prop :=
  1 < k.slots.card ∨ ∃ p ∈ k.slots, crossing = some p

/-- The literals of the recorded conflict, and the slot of the bound that crossed. -/
def conflictLits (x : Explainers) (s : Engine) : List Literal × Option (ℕ × Bool) :=
  match conflictVar s.ctx with
  | some v => (crossingLits s.ctx v,some (v,!ubCrossed (trailEntries s.ctx) v))
  | none =>
    match s.conflictClause.bind (clauseAt s),s.conflictProp with
    | some lits, _ => (lits.map literalNegate,none)
    | none, some ref => (watchLits s.ctx (x.watchedVars ref) ++ guardLit s.ctx ref,none)
    | none, none => ([],none)

/-- Entry `e` made the literal `need` of its slot true, at the current level. -/
def Makes (c : Ctx) (e : TrailEntry) (need : Literal) : Prop :=
  e.decisionLevel = c.decisionLevel ∧ e.kind ≠ .hole ∧ litHolds (c.vars e.varId) need e.oldValue = false

def othersNegated (e : TrailEntry) (lits : List Literal) : List Literal :=
  (lits.filter fun l => !(l.varId == e.varId && l.isLb == e.isLb)).map literalNegate

/-- Resolution past the entries `pre`, down the entries left, of a cut that is open: what made a
literal takes its place. It ends at a decision, or when the cut is no longer open. -/
inductive Resolves (x : Explainers) (s : Engine) (crossing : Option (ℕ × Bool)) :
    List TrailEntry → List TrailEntry → Cut → Cut → Prop
  | closed {pre es k} (h : ¬k.Open crossing) : Resolves x s crossing pre es k k
  | last {pre k} : Resolves x s crossing pre [] k k
  | pass {pre e es k k'} (ho : k.Open crossing)
      (h : ∀ need, k.needs e.varId e.isLb = some need → ¬Makes s.ctx e need)
      (hr : Resolves x s crossing (pre ++ [e]) es k k') : Resolves x s crossing pre (e :: es) k k'
  | decision {pre e es k need} (ho : k.Open crossing) (hn : k.needs e.varId e.isLb = some need)
      (hm : Makes s.ctx e need) (hf : e.fromClause = false) (hp : e.propRef = none) :
      Resolves x s crossing pre (e :: es) k k
  | clause {pre e es k k' need lits} (ho : k.Open crossing) (hn : k.needs e.varId e.isLb = some need)
      (hm : Makes s.ctx e need) (hf : e.fromClause = true) (hl : e.propRef.bind (clauseAt s) = some lits)
      (hr : Resolves x s crossing (pre ++ [e]) es ((k.drop e).adds s.ctx (othersNegated e lits)) k') :
      Resolves x s crossing pre (e :: es) k k'
  | prop {pre e es k k' need ref f lits} (ho : k.Open crossing) (hn : k.needs e.varId e.isLb = some need)
      (hm : Makes s.ctx e need) (hf : e.fromClause = false) (hp : e.propRef = some ref)
      (hx : x.explain ref = some f)
      (hl : f { s.ctx with vars := before s.ctx.vars (pre ++ [e]) } e.varId e.isLb need.bound = some lits)
      (hr : Resolves x s crossing (pre ++ [e]) es
        ((k.drop e).adds s.ctx (lits ++ guardLit s.ctx ref ++ ownLit x ref e)) k') :
      Resolves x s crossing pre (e :: es) k k'

def FirstUip (x : Explainers) (s : Engine) (k : Cut) : Prop :=
  Resolves x s (conflictLits x s).2 [] (trailEntries s.ctx) (Cut.empty.adds s.ctx (conflictLits x s).1) k

/-- A first cut whose literals of lower levels a clause holds fits in it as a whole. -/
def CutFits (x : Explainers) (s : Engine) : Prop :=
  ∀ k, FirstUip x s k → k.lower.card ≤ maxClauseLits → k.size ≤ maxClauseLits

structure CutLits (k : Cut) (a : Analysis) : Prop where
  seen : a.seen = k.needs
  length : a.learnt.length = k.lower.card
  room : a.learnt.length ≤ maxClauseLits

/-- Analysis works on the cut. -/
structure IsCut (crossing : Option (ℕ × Bool)) (k : Cut) (a : Analysis) : Prop extends CutLits k a where
  count : a.nAtCurLevel = k.slots.card
  body : ∀ v b, (v,b) ∈ k.lower ↔ (a.bodyPos v b).isSome = true
  force : a.forceSlot = crossing

section Cuts

variable {crossing : Option (ℕ × Bool)} {k : Cut} {s : Engine} {a a' : Analysis} {l : Literal}
variable {x : Explainers} {v : Variable}

theorem IsCut.addSeen (h : IsCut crossing k a) :
    IsCut crossing (if (k.needs l.varId l.isLb).all (litStronger v l) then k.need l else k)
      (Solver.addSeen v a l) := by
  unfold Solver.addSeen
  rw [h.seen]
  cases hold : k.needs l.varId l.isLb with
  | none =>
    have hno : (l.varId,l.isLb) ∉ k.slots := by
      rw [k.mem_slots,hold]
      exact Bool.false_ne_true
    refine ⟨⟨rfl,h.length,h.room⟩,?_,h.body,h.force⟩
    exact (congrArg (·+1) h.count).trans (Finset.card_insert_of_notMem hno).symm
  | some old =>
    have hin : (l.varId,l.isLb) ∈ k.slots := by
      rw [k.mem_slots,hold]
      rfl
    dsimp only [Option.all_some]
    split_ifs
    · refine ⟨⟨rfl,h.length,h.room⟩,?_,h.body,h.force⟩
      exact h.count.trans (congrArg Finset.card (Finset.insert_eq_of_mem hin)).symm
    · exact h

theorem IsCut.addBody (h : IsCut crossing k a) (hb : Solver.addBody v a l = .ok a') :
    IsCut crossing { k with lower := insert (l.varId,l.isLb) k.lower } a' := by
  unfold Solver.addBody at hb
  cases hpos : a.bodyPos l.varId l.isLb with
  | some p =>
    have hin : (l.varId,l.isLb) ∈ k.lower := by
      rw [h.body,hpos]
      rfl
    rw [Finset.insert_eq_of_mem hin]
    rw [hpos] at hb
    dsimp only at hb
    split at hb
    · split_ifs at hb
      · obtain rfl := Except.ok.inj hb
        exact ⟨⟨h.seen,List.length_set.trans h.length,List.length_set.trans_le h.room⟩,h.count,h.body,h.force⟩
      · obtain rfl := Except.ok.inj hb
        exact h
    · obtain rfl := Except.ok.inj hb
      exact h
  | none =>
    have hno : (l.varId,l.isLb) ∉ k.lower := by
      rw [h.body,hpos]
      exact Bool.false_ne_true
    rw [hpos] at hb
    split_ifs at hb with hfull
    obtain rfl := Except.ok.inj hb
    refine ⟨⟨h.seen,?_,?_⟩,h.count,fun w b => ?_,h.force⟩
    · rw [Finset.card_insert_of_notMem hno,← h.length]
      exact List.length_append
    · rw [List.length_append,List.length_singleton]
      omega
    · dsimp only
      rw [Finset.mem_insert,h.body,setSlot_eq,Prod.mk.injEq]
      split_ifs with hvb <;> simp [hvb]

theorem IsCut.addExplLit (h : IsCut crossing k a) (hb : Solver.addExplLit s a l = .ok a') :
    IsCut crossing (k.add s.ctx l) a' := by
  unfold Solver.addExplLit at hb
  unfold Cut.add
  split_ifs at hb
  cases hm : litMaker (s.ctx.vars l.varId)
      (mkIndex s.ctx.nVars (trailEntries s.ctx) l.varId l.isLb) l with
  | none =>
    rw [hm] at hb
    obtain rfl := Except.ok.inj hb
    exact h
  | some m =>
    rw [hm] at hb
    dsimp only at hb ⊢
    rw [if_neg (litMaker_above hm)] at hb
    split_ifs at hb with hcur
    · obtain rfl := Except.ok.inj hb
      rw [if_neg (not_not.mpr hcur)]
      exact h.addSeen
    · rw [if_pos hcur]
      cases hb1 : Solver.addBody (s.ctx.vars l.varId) a l with
      | error a₁ =>
        rw [hb1] at hb
        cases hb
      | ok a₁ =>
        rw [hb1] at hb
        obtain rfl := Except.ok.inj hb
        have h1 := h.addBody hb1
        exact ⟨⟨h1.seen,h1.length,h1.room⟩,h1.count,h1.body,h1.force⟩

theorem IsCut.addExplLits {ls : List Literal} (h : IsCut crossing k a)
    (hb : Solver.addExplLits s a ls = .ok a') : IsCut crossing (k.adds s.ctx ls) a' := by
  induction ls generalizing a k with
  | nil =>
    obtain rfl := Except.ok.inj hb
    exact h
  | cons l ls ih =>
    obtain ⟨a₁,h1,h2⟩ := except_bind_ok hb
    exact ih (h.addExplLit h1) h2

theorem IsCut.unsee {e : TrailEntry} (h : IsCut crossing k a) (hin : (a.seen e.varId e.isLb).isSome = true) :
    IsCut crossing (k.drop e) (a.unsee e) := by
  rw [h.seen,← k.mem_slots] at hin
  refine ⟨⟨congrArg (fun f => setSlot f e.varId e.isLb none) h.seen,h.length,h.room⟩,?_,h.body,h.force⟩
  exact (congrArg (·-1) h.count).trans (Finset.card_erase_of_mem hin).symm

theorem IsCut.rewindBefore (h : IsCut crossing k a) (stop : ℕ) (es : List TrailEntry) :
    IsCut crossing k (Solver.rewindBefore stop es a) := by
  induction es generalizing a with
  | nil => exact ⟨⟨h.seen,h.length,h.room⟩,h.count,h.body,h.force⟩
  | cons t es ih =>
    rw [Solver.rewindBefore]
    split_ifs
    · exact ⟨⟨h.seen,h.length,h.room⟩,h.count,h.body,h.force⟩
    · refine ih ?_
      unfold rewindStep
      split_ifs
      · exact h
      · exact ⟨⟨h.seen,h.length,h.room⟩,h.count,h.body,h.force⟩

theorem IsCut.open_iff (h : IsCut crossing k a) :
    (a.nAtCurLevel > 1 || a.forced) = true ↔ k.Open crossing := by
  rw [Bool.or_eq_true,decide_eq_true_eq,h.count,Cut.Open,Analysis.forced,h.force,h.seen]
  apply or_congr Iff.rfl
  cases crossing with
  | none => simp
  | some p => simp [← k.mem_slots]

theorem seedConflict_cut (h : seedConflict x s (Analysis.start s) = .ok a) :
    IsCut (conflictLits x s).2 (Cut.empty.adds s.ctx (conflictLits x s).1) a := by
  have hstart : IsCut none Cut.empty (Analysis.start s) :=
    ⟨⟨rfl,rfl,Nat.zero_le _⟩,rfl,fun v b => by simp [Cut.empty,Analysis.start],rfl⟩
  unfold seedConflict at h
  split at h
  · rename_i v hv
    have hlits : conflictLits x s = (crossingLits s.ctx v,some (v,!ubCrossed (trailEntries s.ctx) v)) := by
      unfold conflictLits
      rw [hv]
    rw [hlits]
    obtain ⟨a₁,h1,h'⟩ := except_bind_ok h
    obtain ⟨a₂,h2,h3⟩ := except_bind_ok h'
    obtain rfl := needCurrent_ok h2
    obtain rfl := Except.ok.inj h3
    have hk := hstart.addExplLits h1
    exact ⟨⟨hk.seen,hk.length,hk.room⟩,hk.count,hk.body,rfl⟩
  · rename_i hv
    split at h
    · rename_i lits hat
      have hlits : conflictLits x s = (lits.map literalNegate,none) := by
        unfold conflictLits
        rw [hv,hat]
      rw [hlits]
      obtain ⟨a₁,h1,h⟩ := except_bind_ok h
      obtain rfl := needCurrent_ok h
      have hk := hstart.addExplLits h1
      exact ⟨⟨hk.seen,hk.length,hk.room⟩,hk.count,hk.body,hk.force⟩
    · rename_i hat
      split at h
      · rename_i ref href
        have hlits : conflictLits x s =
            (watchLits s.ctx (x.watchedVars ref) ++ guardLit s.ctx ref,none) := by
          unfold conflictLits
          rw [hv,hat,href]
        rw [hlits]
        unfold seedProp at h
        split_ifs at h
        obtain ⟨a₁,h1,h⟩ := except_bind_ok h
        obtain rfl := needCurrent_ok h
        exact hstart.addExplLits h1
      · cases h

end Cuts

section Resolving

variable {C : (ℕ → BitVec 64) → Prop} {s : Engine} {a a' : Analysis} {x : Explainers}

theorem litHoldsNow_negate {vars : ℕ → Variable} {l : Literal}
    (h : literalIsFalse vars l = true) : litHoldsNow vars (literalNegate l) = true := by
  have hfail : litHolds (vars l.varId) l (readBound (vars l.varId) (!l.isLb)) ≠ true := by
    unfold literalIsFalse at h
    unfold litHolds readBound
    split_ifs at h with hl
    · simp [hl,h]
    · simp [hl,h]
  exact litHolds_negate hfail

theorem rewindStep_frame (a : Analysis) (t : TrailEntry) :
    (rewindStep a t).seen = a.seen ∧ (rewindStep a t).learnt = a.learnt ∧
      (rewindStep a t).bodyPos = a.bodyPos := by
  unfold rewindStep
  split_ifs <;> exact ⟨rfl,rfl,rfl⟩

theorem rewindBefore_spec (m w : List TrailEntry) (a : Analysis) :
    (rewindBefore w.length (m ++ w) a).vars = before a.vars m ∧
    (rewindBefore w.length (m ++ w) a).applied = w ∧
    (rewindBefore w.length (m ++ w) a).seen = a.seen ∧
    (rewindBefore w.length (m ++ w) a).learnt = a.learnt ∧
    (rewindBefore w.length (m ++ w) a).bodyPos = a.bodyPos := by
  induction m generalizing a with
  | nil =>
    cases w with
    | nil => exact ⟨rfl,rfl,rfl,rfl,rfl⟩
    | cons t w =>
      rw [List.nil_append,rewindBefore,if_pos rfl]
      exact ⟨rfl,rfl,rfl,rfl,rfl⟩
  | cons t m ih =>
    have hne : ¬(t :: m ++ w).length = w.length := by
      simp only [List.cons_append,List.length_cons,List.length_append]
      omega
    rw [List.cons_append,rewindBefore,if_neg (by simpa using hne)]
    obtain ⟨h1,h2,h3,h4,h5⟩ := ih (rewindStep a t)
    obtain ⟨f1,f2,f3⟩ := rewindStep_frame a t
    refine ⟨?_,h2,h3.trans f1,h4.trans f2,h5.trans f3⟩
    rw [h1,rewindStep_vars]
    rfl

theorem WorkOk.unsee {c : Ctx} (hw : WorkOk c a) (e : TrailEntry) : WorkOk c (a.unsee e) := by
  refine ⟨fun v b l h => ?_,hw.body⟩
  simp only [Analysis.unsee,setSlot_eq] at h
  split_ifs at h
  exact hw.seen v b l h

theorem SeenHold.unsee {vars : ℕ → Variable} (hs : SeenHold vars a) (e : TrailEntry) :
    SeenHold vars (a.unsee e) := by
  intro v b l h
  simp only [Analysis.unsee,setSlot_eq] at h
  split_ifs at h
  exact hs v b l h

theorem Contradicts.unsee {e : TrailEntry} {need : Literal}
    (hc : Contradicts C s a []) (hneed : a.seen e.varId e.isLb = some need)
    (hls : ∀ σ, Solution C s σ → (∀ l ∈ ls, litSat s.ctx.vars σ l) → litSat s.ctx.vars σ need) :
    Contradicts C s (a.unsee e) (ls ++ []) := by
  intro σ hσ hseen hbody hl
  refine hc σ hσ (fun v b l h => ?_) hbody (by simp)
  by_cases hvb : v = e.varId ∧ b = e.isLb
  · rw [hvb.1,hvb.2,hneed,Option.some.injEq] at h
    subst h
    exact hls σ hσ (by simpa using hl)
  · exact hseen v b l (by simp only [Analysis.unsee,setSlot_eq,if_neg hvb,h])

theorem SeenHold.step (ht : TrailOk s.ctx) {pre : List TrailEntry} {e : TrailEntry}
    (he : e ∈ trailEntries s.ctx) (hw : WorkOk s.ctx a) (hs : SeenHold (before s.ctx.vars pre) a)
    (hskip : ∀ l, a.seen e.varId e.isLb = some l → e.kind ≠ .hole →
      litHolds (s.ctx.vars e.varId) l e.oldValue = true) :
    SeenHold (before s.ctx.vars (pre ++ [e])) a := by
  intro v b l h
  obtain ⟨rfl,rfl,_⟩ := hw.seen v b l h
  have hnow := hs _ _ l h
  unfold litHoldsNow at hnow ⊢
  rw [(before_shape _ _ _).litHolds] at hnow ⊢
  rw [readBound_snoc ht pre he]
  split_ifs with hat
  · obtain ⟨h1,h2,h3⟩ := TrailEntry.at_iff.mp hat
    rw [← h1]
    exact hskip l (by rwa [h1,h3]) h2
  · exact hnow

/-- Analysis with the entries `pre` passed: what is left to resolve holds before them. -/
structure WorkAt (C : (ℕ → BitVec 64) → Prop) (s : Engine) (pre rest : List TrailEntry)
    (a : Analysis) : Prop where
  trail : trailEntries s.ctx = pre ++ rest
  work : WorkOk s.ctx a
  rewound : ∃ u mid, pre = u ++ mid ∧ Rewound s.ctx u a
  contradicts : Contradicts C s a []
  seenHold : (∃ e ∈ rest, e.decisionLevel = s.ctx.decisionLevel) → SeenHold (before s.ctx.vars pre) a

section Steps

variable {pre es : List TrailEntry} {e : TrailEntry}

theorem WorkAt.snoc_trail (h : WorkAt C s pre (e :: es) a) :
    trailEntries s.ctx = (pre ++ [e]) ++ es := by rw [h.trail]; simp

theorem WorkAt.mem (h : WorkAt C s pre (e :: es) a) : e ∈ trailEntries s.ctx := by
  rw [h.trail]
  simp

theorem WorkAt.level (ht : TrailOk s.ctx) (h : WorkAt C s pre (e :: es) a)
    (hex : ∃ e' ∈ es, e'.decisionLevel = s.ctx.decisionLevel) :
    e.decisionLevel = s.ctx.decisionLevel := by
  obtain ⟨e',he',hl⟩ := hex
  have hs := ht.sorted
  rw [h.trail,List.pairwise_append] at hs
  have h1 := (List.pairwise_cons.mp hs.2.1).1 e' he'
  have h2 := ht.levels e h.mem
  omega

theorem WorkAt.skip (ht : TrailOk s.ctx) (h : WorkAt C s pre (e :: es) a)
    (hno : ∀ l, a.seen e.varId e.isLb = some l → e.decisionLevel = s.ctx.decisionLevel →
      e.kind ≠ .hole → litHolds (s.ctx.vars e.varId) l e.oldValue = true) :
    WorkAt C s (pre ++ [e]) es a := by
  obtain ⟨u,mid,hpre,hr⟩ := h.rewound
  refine ⟨h.snoc_trail,h.work,⟨u,mid ++ [e],by rw [hpre,List.append_assoc],hr⟩,h.contradicts,
    fun hex => ?_⟩
  have hlev := h.level ht hex
  exact (h.seenHold ⟨e,by simp,hlev⟩).step ht h.mem h.work fun l hl hk => hno l hl hlev hk

theorem WorkAt.unsee_hold (ht : TrailOk s.ctx) (h : WorkAt C s pre (e :: es) a)
    (hlev : e.decisionLevel = s.ctx.decisionLevel) :
    SeenHold (before s.ctx.vars (pre ++ [e])) (a.unsee e) := by
  refine ((h.seenHold ⟨e,by simp,hlev⟩).unsee e).step ht h.mem (h.work.unsee e) fun l hl _ => ?_
  simp [Analysis.unsee] at hl

theorem WorkAt.clause (ht : TrailOk s.ctx) (hreasons : ReasonsOk C x s) {need : Literal}
    (h : WorkAt C s pre (e :: es) a) (hneed : a.seen e.varId e.isLb = some need)
    (hlev : e.decisionLevel = s.ctx.decisionLevel) (hk : e.kind ≠ .hole)
    (hfrom : e.fromClause = true) (h1 : resolveClause s e (a.unsee e) = .ok a') :
    WorkAt C s (pre ++ [e]) es a' := by
  obtain ⟨u,mid,hpre,hr⟩ := h.rewound
  unfold resolveClause at h1
  split at h1
  · cases h1
  rename_i lits hlits
  obtain ⟨ci,hci,hat⟩ := Option.bind_eq_some_iff.mp hlits
  have hreason := hreasons.clause pre e es ci lits h.trail hk hfrom hci hat
  have hr1 : Rewound s.ctx u (a.unsee e) := hr.frame rfl rfl
  obtain ⟨_,hr2,hadd⟩ := addExplLits_added (C := C) ht (h.work.unsee e) hr1 h1
  refine ⟨h.snoc_trail,hadd.work,⟨u,mid ++ [e],by rw [hpre,List.append_assoc],hr2⟩,
    hadd.contradicts [] (h.contradicts.unsee hneed fun σ hσ hl => ?_),
    fun _ => hadd.seenHold _ (h.unsee_hold ht hlev) fun l hl => ?_⟩
  · obtain ⟨hnv,hnb,_⟩ := h.work.seen _ _ _ hneed
    have hnow := h.seenHold ⟨e,by simp,hlev⟩ _ _ _ hneed
    obtain ⟨l,hmem,hsat⟩ := hσ.2.1 ci lits hat
    have hl' := hreason l hmem
    split_ifs at hl' with hslot
    · unfold litSat at hsat ⊢
      unfold litHoldsNow at hnow
      rw [(before_shape _ _ _).litHolds] at hnow
      rw [hslot.1] at hsat
      rw [hnv] at hnow ⊢
      simp only [litHolds_iff,hnb,hslot.2] at hsat hl' hnow ⊢
      split_ifs at hsat hl' hnow ⊢ <;> omega
    · obtain ⟨y,hy⟩ := literalIsFalse_fails hl'
      rw [(before_shape _ _ _).litHolds] at hy
      refine absurd hsat (not_litHolds_of_negate hy (hl _ ?_))
      refine List.mem_map.mpr ⟨l,mem_filter.mpr ⟨hmem,?_⟩,rfl⟩
      rw [not_and_or] at hslot
      simpa using hslot
  · obtain ⟨l',hl',rfl⟩ := List.mem_map.mp hl
    obtain ⟨hmem,hslot⟩ := mem_filter.mp hl'
    have hf := hreason l' hmem
    rw [if_neg (by rw [not_and_or]; simpa using hslot)] at hf
    exact litHoldsNow_negate hf

/-- Rewound to an entry of the current level, the bounds are those before it. -/
theorem WorkAt.rewound_step (ht : TrailOk s.ctx) (h : WorkAt C s pre (e :: es) a) (hcur : 0 < s.ctx.decisionLevel)
    (hlev : e.decisionLevel = s.ctx.decisionLevel) :
    (rewindBefore es.length a.applied (a.unsee e)).seen = (a.unsee e).seen ∧
    (rewindBefore es.length a.applied (a.unsee e)).learnt = (a.unsee e).learnt ∧
    (rewindBefore es.length a.applied (a.unsee e)).bodyPos = (a.unsee e).bodyPos ∧
      Rewound s.ctx (pre ++ [e]) (rewindBefore es.length a.applied (a.unsee e)) := by
  obtain ⟨u,mid,hpre,hr⟩ := h.rewound
  have hpre' : pre ++ [e] = u ++ (mid ++ [e]) := by rw [hpre,List.append_assoc]
  have happ : a.applied = (mid ++ [e]) ++ es := by
    have := hr.trail
    rw [h.snoc_trail,hpre',List.append_assoc] at this
    exact (List.append_cancel_left this).symm
  obtain ⟨r1,r2,r3,r4,r5⟩ := rewindBefore_spec (mid ++ [e]) es (a.unsee e)
  rw [← happ] at r1 r2 r3 r4 r5
  have hvars : (rewindBefore es.length a.applied (a.unsee e)).vars =
      before s.ctx.vars (pre ++ [e]) := by
    rw [r1,hpre',before_append s.ctx.vars u,← hr.vars]
    rfl
  refine ⟨r3,r4,r5,by rw [r2,h.snoc_trail],hvars,fun e' he' => ?_⟩
  rcases mem_append.mp he' with he' | he'
  · have hs := ht.sorted
    rw [h.trail,List.pairwise_append] at hs
    have := hs.2.2 e' he' e (by simp)
    omega
  · obtain rfl : e' = e := by simpa using he'
    omega

theorem WorkAt.explanation (ht : TrailOk s.ctx) (hreasons : ReasonsOk C x s) {need : Literal}
    {ref : ℕ} (h : WorkAt C s pre (e :: es) a) (hcur : 0 < s.ctx.decisionLevel)
    (hneed : a.seen e.varId e.isLb = some need) (hlev : e.decisionLevel = s.ctx.decisionLevel)
    (hk : e.kind ≠ .hole) (hold : litHolds (s.ctx.vars e.varId) need e.oldValue = false)
    (hfrom : e.fromClause = false) (href : e.propRef = some ref)
    (h1 : resolveProp x s es.length e need ref (a.unsee e) = .ok a') :
    WorkAt C s (pre ++ [e]) es a' := by
  obtain ⟨r3,r4,r5,hr1⟩ := h.rewound_step ht hcur hlev
  have hvars := hr1.vars
  unfold resolveProp at h1
  split at h1
  · cases h1
  rename_i f hf
  have hw1 : WorkOk s.ctx (rewindBefore es.length a.applied (a.unsee e)) :=
    ⟨fun v b l hl => (h.work.unsee e).seen v b l (by rwa [r3] at hl),fun v b p hp => by
      rw [r4]
      exact (h.work.unsee e).body v b p (by rwa [r5] at hp)⟩
  simp only at h1
  split at h1
  · cases h1
  rename_i lits hlits
  obtain ⟨hnow1,hr2,hadd⟩ := addExplLits_added (C := C) ht hw1 hr1 h1
  have hc1 : Contradicts C s (rewindBefore es.length a.applied (a.unsee e))
      (lits ++ guardLit s.ctx ref ++ ownLit x ref e ++ []) := by
    obtain ⟨hnv,hnb,_⟩ := h.work.seen _ _ _ hneed
    have hnow := h.seenHold ⟨e,by simp,hlev⟩ _ _ _ hneed
    unfold Contradicts
    rw [r3,r4]
    refine h.contradicts.unsee hneed fun σ hσ hl => ?_
    refine hreasons.explain pre e es ref f need lits h.trail hk hfrom href hf hnv hnb hnow hold ?_
      σ hσ.1 hl
    rw [← hvars]
    exact hlits
  refine ⟨h.snoc_trail,hadd.work,⟨pre ++ [e],[],(List.append_nil _).symm,hr2⟩,
    hadd.contradicts [] hc1,fun _ => hadd.seenHold _ ?_ fun l hl => ?_⟩
  · intro v b l hl
    rw [r3] at hl
    exact h.unsee_hold ht hlev v b l hl
  · have := hnow1 l hl
    rwa [hvars] at this

end Steps

theorem resolveClause_cut {crossing : Option (ℕ × Bool)} {k : Cut} {e : TrailEntry} (hk : IsCut crossing k a)
    (hseen : (a.seen e.varId e.isLb).isSome = true) (h : resolveClause s e (a.unsee e) = .ok a') :
    ∃ lits, e.propRef.bind (clauseAt s) = some lits ∧
      IsCut crossing ((k.drop e).adds s.ctx (othersNegated e lits)) a' := by
  unfold resolveClause at h
  split at h
  · cases h
  rename_i lits hlits
  exact ⟨lits,hlits,(hk.unsee hseen).addExplLits h⟩

theorem WorkAt.explanation_cut (ht : TrailOk s.ctx) {crossing : Option (ℕ × Bool)} {k : Cut}
    {pre es : List TrailEntry} {e : TrailEntry} {need : Literal} {ref : ℕ}
    (h : WorkAt C s pre (e :: es) a) (hk : IsCut crossing k a) (hcur : 0 < s.ctx.decisionLevel)
    (hlev : e.decisionLevel = s.ctx.decisionLevel) (hseen : (a.seen e.varId e.isLb).isSome = true)
    (h1 : resolveProp x s es.length e need ref (a.unsee e) = .ok a') :
    ∃ f lits, x.explain ref = some f ∧
      f { s.ctx with vars := before s.ctx.vars (pre ++ [e]) } e.varId e.isLb need.bound = some lits ∧
      IsCut crossing ((k.drop e).adds s.ctx (lits ++ guardLit s.ctx ref ++ ownLit x ref e)) a' := by
  obtain ⟨-,-,-,hr⟩ := h.rewound_step ht hcur hlev
  unfold resolveProp at h1
  split at h1
  · cases h1
  rename_i f hf
  simp only at h1
  split at h1
  · cases h1
  rename_i lits hlits
  refine ⟨f,lits,hf,?_,((hk.unsee hseen).rewindBefore _ _).addExplLits h1⟩
  rw [← hr.vars]
  exact hlits

theorem resolve_contradicts (ht : TrailOk s.ctx) (hreasons : ReasonsOk C x s)
    (hcur : 0 < s.ctx.decisionLevel) {rest : List TrailEntry} (pre : List TrailEntry)
    {crossing : Option (ℕ × Bool)} {k : Cut} (hw : WorkAt C s pre rest a) (hk : IsCut crossing k a)
    (h : resolve x s rest a = .ok a') :
    WorkOk s.ctx a' ∧ Contradicts C s a' [] ∧
      ∃ k', Resolves x s crossing pre rest k k' ∧ CutLits k' a' := by
  induction rest generalizing a pre k with
  | nil =>
    obtain rfl := Except.ok.inj h
    exact ⟨hw.work,hw.contradicts,k,.last,hk.toCutLits⟩
  | cons e es ih =>
    rw [resolve] at h
    split at h
    · rename_i hclosed
      obtain rfl := Except.ok.inj h
      refine ⟨hw.work,hw.contradicts,k,.closed fun ho => ?_,hk.toCutLits⟩
      rw [hk.open_iff.mpr ho] at hclosed
      exact absurd hclosed (by decide)
    · rename_i hopen
      have ho : k.Open crossing := by
        rw [← hk.open_iff]
        by_contra hno
        rw [Bool.not_eq_true] at hno
        rw [hno] at hopen
        exact hopen rfl
      have hpass : (∀ need, a.seen e.varId e.isLb = some need → ¬Makes s.ctx e need) →
          resolve x s es a = .ok a' → WorkOk s.ctx a' ∧ Contradicts C s a' [] ∧
            ∃ k', Resolves x s crossing pre (e :: es) k k' ∧ CutLits k' a' := by
        intro hno h
        obtain ⟨h1,h2,k',h3,h4⟩ := ih _ (hw.skip ht fun l hl hlev hk => by
          by_contra hold
          exact hno l hl ⟨hlev,hk,by simpa using hold⟩) hk h
        exact ⟨h1,h2,k',.pass ho (fun need hn => hno need (by rw [hk.seen,hn])) h3,h4⟩
      split at h
      · rename_i hnone
        exact hpass (fun l hl => by simp [hnone] at hl) h
      · rename_i need hneed
        have hseen : (a.seen e.varId e.isLb).isSome = true := by rw [hneed]; rfl
        have hn : k.needs e.varId e.isLb = some need := by rw [← hk.seen,hneed]
        split at h
        · rename_i hcond
          refine hpass (fun l hl hm => ?_) h
          rw [hneed,Option.some.injEq] at hl
          subst hl
          rcases hcond with hcond | hcond | hcond
          · exact hcond hm.1
          · exact hm.2.1 hcond
          · rw [hm.2.2] at hcond
            exact absurd hcond (by decide)
        · rename_i hcond
          simp only [not_or,ne_eq,not_not,Bool.not_eq_true] at hcond
          obtain ⟨hlev,hkind,hold⟩ := hcond
          have hm : Makes s.ctx e need := ⟨hlev,hkind,hold⟩
          split at h
          · rename_i hfrom
            obtain ⟨a₁,h1,h2⟩ := except_bind_ok h
            obtain ⟨lits,hl,hk1⟩ := resolveClause_cut hk hseen h1
            obtain ⟨h3,h4,k',h5,h6⟩ := ih _ (hw.clause ht hreasons hneed hlev hkind hfrom h1) hk1 h2
            exact ⟨h3,h4,k',.clause ho hn hm hfrom hl h5,h6⟩
          · rename_i hfrom
            rw [Bool.not_eq_true] at hfrom
            split at h
            · rename_i href
              obtain rfl := Except.ok.inj h
              exact ⟨⟨hw.work.seen,hw.work.body⟩,hw.contradicts,k,.decision ho hn hm hfrom href,
                ⟨hk.seen,hk.length,hk.room⟩⟩
            · rename_i ref href
              obtain ⟨a₁,h1,h2⟩ := except_bind_ok h
              obtain ⟨f,lits,hf,hl,hk1⟩ := hw.explanation_cut ht hk hcur hlev hseen h1
              obtain ⟨h3,h4,k',h5,h6⟩ :=
                ih _ (hw.explanation ht hreasons hcur hneed hlev hkind hold hfrom href h1) hk1 h2
              exact ⟨h3,h4,k',.prop ho hn hm hfrom href hf hl h5,h6⟩

end Resolving

def emitFits (cur : ℕ) : List TrailEntry → (ℕ → Bool → Option Literal) → ℕ → Bool
  | [], _, _ => true
  | e :: es, seen, n =>
    if e.decisionLevel ≠ cur then emitFits cur es seen n
    else
      match seen e.varId e.isLb with
      | none => emitFits cur es seen n
      | some _ => n < maxClauseLits && emitFits cur es (setSlot seen e.varId e.isLb none) (n+1)

theorem mem_emit {cur : ℕ} {es : List TrailEntry} (uipSet : Bool)
    {seen : ℕ → Bool → Option Literal} {learnt : List Literal} (h : emitFits cur es seen learnt.length = true) :
    (∀ n ∈ learnt, n ∈ emit cur es uipSet seen learnt) ∧
      ∀ e ∈ es, e.decisionLevel = cur → ∀ l, seen e.varId e.isLb = some l →
        literalNegate l ∈ emit cur es uipSet seen learnt := by
  induction es generalizing uipSet seen learnt with
  | nil => exact ⟨fun n hn => hn,by simp⟩
  | cons e es ih =>
    rw [emitFits] at h
    rw [emit]
    by_cases hlev : e.decisionLevel ≠ cur
    · rw [if_pos hlev] at h ⊢
      obtain ⟨h1,h2⟩ := ih uipSet h
      refine ⟨h1,fun e' he' hl l hs => ?_⟩
      rcases mem_cons.mp he' with rfl | he'
      · exact absurd hl hlev
      · exact h2 e' he' hl l hs
    · rw [if_neg hlev] at h ⊢
      cases hseen : seen e.varId e.isLb with
      | none =>
        rw [hseen] at h
        obtain ⟨h1,h2⟩ := ih uipSet h
        refine ⟨h1,fun e' he' hl l hs => ?_⟩
        rcases mem_cons.mp he' with rfl | he'
        · simp [hseen] at hs
        · exact h2 e' he' hl l hs
      | some l₀ =>
        rw [hseen] at h
        simp only [Bool.and_eq_true,decide_eq_true_eq] at h
        obtain ⟨hlt,hfit⟩ := h
        dsimp only
        rw [if_pos hlt]
        obtain ⟨learnt',hl'⟩ : ∃ learnt', learnt' =
            if uipSet = true then learnt ++ [literalNegate l₀] else literalNegate l₀ :: learnt :=
          ⟨_,rfl⟩
        rw [← hl']
        have hlen : learnt'.length = learnt.length+1 := by
          rw [hl']
          split_ifs <;> simp
        have hmem : ∀ n, n ∈ learnt' ↔ n ∈ learnt ∨ n = literalNegate l₀ := by
          intro n
          rw [hl']
          split_ifs <;> simp [or_comm]
        rw [← hlen] at hfit
        obtain ⟨h1,h2⟩ := ih true hfit
        refine ⟨fun n hn => h1 n ((hmem n).mpr (Or.inl hn)),fun e' he' hl l hs => ?_⟩
        by_cases hslot : e'.varId = e.varId ∧ e'.isLb = e.isLb
        · rw [hslot.1,hslot.2,hseen,Option.some.injEq] at hs
          subst hs
          exact h1 _ ((hmem _).mpr (Or.inr rfl))
        · rcases mem_cons.mp he' with rfl | he'
          · exact absurd ⟨rfl,rfl⟩ hslot
          · exact h2 e' he' hl l (by rw [setSlot_ne _ _ _ _ hslot,hs])

/-- There is room for the literals left when there is for their slots. -/
theorem emitFits_of_slots {cur : ℕ} {es : List TrailEntry} {seen : ℕ → Bool → Option Literal} {n : ℕ}
    {S : Finset (ℕ × Bool)} (hS : ∀ v b, (seen v b).isSome = true → (v,b) ∈ S)
    (hn : n+S.card ≤ maxClauseLits) : emitFits cur es seen n = true := by
  induction es generalizing seen n S with
  | nil => rfl
  | cons e es ih =>
    rw [emitFits]
    split_ifs
    · exact ih hS hn
    · cases hseen : seen e.varId e.isLb with
      | none => exact ih hS hn
      | some l =>
        have hin : (e.varId,e.isLb) ∈ S := hS _ _ (by rw [hseen]; rfl)
        have hpos := Finset.card_pos.mpr ⟨_,hin⟩
        have hcard := Finset.card_erase_of_mem hin
        rw [Bool.and_eq_true,decide_eq_true_eq]
        refine ⟨by omega,ih (S := S.erase (e.varId,e.isLb)) (fun v b hv => ?_) (by omega)⟩
        rw [setSlot_eq] at hv
        split_ifs at hv with hvb
        · exact absurd hv (by decide)
        · exact Finset.mem_erase.mpr ⟨fun heq => hvb (Prod.mk.inj heq),hS v b hv⟩

/-- When no literal is dropped for want of room, every solution satisfies the clause that
analysis returns. -/
theorem lcgAnalyzeConflict_implied {C : (ℕ → BitVec 64) → Prop} {x : Explainers} {s : Engine}
    (hlevel : 0 < s.ctx.decisionLevel) (ht : TrailOk s.ctx) (hc : ConflictOk C x s)
    (hr : ReasonsOk C x s) {clause : LearntClause} (hclause : (lcgAnalyzeConflict x s).1 = some clause)
    (hfits : CutFits x s) (hσ : Solution C s σ) :
    ∃ l ∈ clause.lits, litSat s.ctx.vars σ l := by
  unfold lcgAnalyzeConflict analyze at hclause
  split at hclause
  · cases hclause
  rw [if_neg (by omega)] at hclause
  cases hres : resolved x s with
  | error a =>
    rw [hres] at hclause
    cases hclause
  | ok a =>
    rw [hres] at hclause
    simp only [bind,Except.bind,emitClause] at hclause
    split_ifs at hclause
    obtain rfl := Option.some.inj hclause
    obtain ⟨a₁,h1,h2⟩ := except_bind_ok hres
    obtain ⟨a₂,h3,h4⟩ := except_bind_ok h2
    obtain rfl := needCurrent_ok h4
    have hseed := seedConflict_seeded (C := C) ht hc h1
    obtain ⟨hw,hcon,k,hk,hcut⟩ := resolve_contradicts ht hr hlevel [] ⟨rfl,hseed.work,
      ⟨[],[],rfl,hseed.rewound⟩,hseed.contradicts,fun _ => hseed.seenHold⟩ (seedConflict_cut h1) h3
    have hsize := hfits k hk (hcut.length ▸ hcut.room)
    have hroom : emitFits s.ctx.decisionLevel (trailEntries s.ctx) a.seen a.learnt.length = true := by
      apply emitFits_of_slots (S := k.slots)
      · intro v b hv
        rwa [k.mem_slots,← hcut.seen]
      · rw [hcut.length]
        exact hsize
    obtain ⟨hbody,hseen⟩ := mem_emit false hroom
    by_contra hno
    simp only [not_exists,not_and] at hno
    -- An assignment that fails the clause satisfies the whole working set.
    have hneg : ∀ n ∈ emit s.ctx.decisionLevel (trailEntries s.ctx) false a.seen a.learnt,
        litSat s.ctx.vars σ (literalNegate n) := fun n hn => litHolds_negate (hno n hn)
    refine hcon σ hσ (fun v b l hl => ?_) (fun n hn => hneg n (hbody n hn)) (by simp)
    obtain ⟨rfl,rfl,e,he,hlev,hv,hb⟩ := hw.seen v b l hl
    have := hneg _ (hseen e he hlev l (by rwa [hv,hb]))
    rwa [literalNegate_negate] at this

end Solver
end DvSolve
