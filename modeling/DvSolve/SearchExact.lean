import DvSolve.DistRun
import DvSolve.PickHoles

/-! The answers of the search, over an engine that loses no solution.
A solution is in the current domains, or some level has put off the part of its domains that
holds it; every failed level leaves that part to the search. -/
namespace DvSolve
namespace Dist

open Solver Pick
open Bool (false_eq_true not_eq_true')
open Function (update update_self)
open List (mem_cons)

variable {p : Problem} {vars : ℕ → Variable} {d d' d₀ : Dom} {a : ℕ → BitVec 64} {x : ℕ}
  {b lo hi : BitVec 64}

theorem rank_succ {v : Variable} {y : BitVec 64} (h : rank v b < rank v y) :
    rank v (b+1#64) ≤ rank v y := by
  have heq := rank_eq_add h.le
  refine (rank_between h.le ?_).2
  bv_omega

theorem rank_pred {v : Variable} {y : BitVec 64} (h : rank v y < rank v b) :
    rank v y ≤ rank v (b-1#64) := by
  have heq := rank_eq_add h.le
  refine (rank_between h.le ?_).1
  bv_omega

namespace Dom

/-- The values of an assignment lie within the bounds. -/
def Has (p : Problem) (d : Dom) (a : ℕ → BitVec 64) : Prop :=
  ∀ x < p.nVars, Between (p.vars x) (d x).1 (d x).2 (a x)

/-- The same of the variables that are not merged into another. -/
def Roots (p : Problem) (d : Dom) (a : ℕ → BitVec 64) : Prop :=
  ∀ x < p.nVars, p.resolve x = x → Between (p.vars x) (d x).1 (d x).2 (a x)

theorem Has.roots (h : d.Has p a) : d.Roots p a := fun x hx _ => h x hx

/-- Every root lies in the declared domains of the variables merged into it. -/
def Fits (p : Problem) (d : Dom) : Prop :=
  ∀ v < p.nVars, rank (p.vars (p.resolve v)) (varLo64 (p.vars v)) ≤
      rank (p.vars (p.resolve v)) (d (p.resolve v)).1 ∧
    rank (p.vars (p.resolve v)) (d (p.resolve v)).2 ≤ rank (p.vars (p.resolve v)) (varHi64 (p.vars v))

theorem Fits.within (h : d.Fits p) (hw : d'.Within p.vars d) : d'.Fits p := fun v hv =>
  ⟨(h v hv).1.trans (hw.le _).1,(hw.le _).2.trans (h v hv).2⟩

/-- Every variable that is not merged into another has one value. -/
def Fixed (p : Problem) (d : Dom) : Prop := ∀ x < p.nVars, p.resolve x = x → d.Single x

def read (p : Problem) (d : Dom) : ℕ → BitVec 64 := fun v => (d (p.resolve v)).1

variable {q : BitVec 64 × BitVec 64}

theorem Has.update (h : d.Has p a)
    (hq : Between (p.vars x) q.1 q.2 (a x)) : Has p (update d x q) a := by
  intro y hy
  by_cases hxy : y = x
  · subst hxy
    rwa [update_self]
  · rw [Function.update_of_ne hxy]
    exact h y hy

theorem Has.tightenLb (h : d.Has p a) (hx : x < p.nVars) (ht : InRepr (p.vars x) (a x))
    (hb : rank (p.vars x) b ≤ rank (p.vars x) (a x)) : ∃ d', d.tightenLb p.vars x b = some d' ∧ d'.Has p a := by
  unfold Dom.tightenLb
  have htop := varBGt_eq_false.mpr (hb.trans ht.2)
  have hhi := varBGt_eq_false.mpr (hb.trans (h x hx).2)
  simp only [htop,hhi,false_eq_true,if_false]
  split_ifs
  · exact ⟨d,rfl,h⟩
  · exact ⟨_,rfl,h.update ⟨hb,(h x hx).2⟩⟩

theorem Has.tightenUb (h : d.Has p a) (hx : x < p.nVars) (ht : InRepr (p.vars x) (a x))
    (hb : rank (p.vars x) (a x) ≤ rank (p.vars x) b) : ∃ d', d.tightenUb p.vars x b = some d' ∧ d'.Has p a := by
  unfold Dom.tightenUb
  have hbot := varBLt_eq_false.mpr (ht.1.trans hb)
  have hlo := varBGt_eq_false.mpr ((h x hx).1.trans hb)
  simp only [hbot,hlo,false_eq_true,if_false]
  split_ifs
  · exact ⟨d,rfl,h⟩
  · exact ⟨_,rfl,h.update ⟨(h x hx).1,hb⟩⟩

theorem tightenLb_cases (h : d.tightenLb vars x b = some d') :
    d' = d ∧ rank (vars x) b ≤ rank (vars x) (d x).1 ∨
      d' = Function.update d x (b,(d x).2) ∧ rank (vars x) (d x).1 < rank (vars x) b ∧
        rank (vars x) b ≤ rank (vars x) (d x).2 := by
  unfold Dom.tightenLb at h
  split_ifs at h with hle htop hhi
  · exact .inl ⟨(Option.some.inj h).symm,by rwa [Bool.not_eq_true',varBGt_eq_false] at hle⟩
  · rw [Bool.not_eq_true',varBGt_eq_false,not_le] at hle
    rw [Bool.not_eq_true,varBGt_eq_false] at hhi
    exact .inr ⟨(Option.some.inj h).symm,hle,hhi⟩

theorem tightenUb_cases (h : d.tightenUb vars x b = some d') :
    d' = d ∧ rank (vars x) (d x).2 ≤ rank (vars x) b ∨
      d' = Function.update d x ((d x).1,b) ∧ rank (vars x) b < rank (vars x) (d x).2 ∧
        rank (vars x) (d x).1 ≤ rank (vars x) b := by
  unfold Dom.tightenUb at h
  split_ifs at h with hle hbot hlo
  · exact .inl ⟨(Option.some.inj h).symm,by rwa [Bool.not_eq_true',varBLt_eq_false] at hle⟩
  · rw [Bool.not_eq_true',varBLt_eq_false,not_le] at hle
    rw [Bool.not_eq_true,varBGt_eq_false] at hlo
    exact .inr ⟨(Option.some.inj h).symm,hle,hlo⟩

theorem Within.refl (d : Dom) : d.Within vars d := fun _ =>
  ⟨varBLt_eq_false.mpr le_rfl,varBGt_eq_false.mpr le_rfl⟩

theorem Within.trans {d'' : Dom} (h : d''.Within vars d') (h' : d'.Within vars d) :
    d''.Within vars d := fun x =>
  ⟨varBLt_eq_false.mpr ((h'.le x).1.trans (h.le x).1),varBGt_eq_false.mpr ((h.le x).2.trans (h'.le x).2)⟩

theorem Within.update (h1 : rank (vars x) (d x).1 ≤ rank (vars x) q.1)
    (h2 : rank (vars x) q.2 ≤ rank (vars x) (d x).2) : Within vars (Function.update d x q) d := by
  intro y
  by_cases hy : y = x
  · subst hy
    rw [update_self]
    exact ⟨varBLt_eq_false.mpr h1,varBGt_eq_false.mpr h2⟩
  · rw [Function.update_of_ne hy]
    exact Within.refl d y

theorem tightenLb_within (h : d.tightenLb vars x b = some d') :
    d'.Within vars d ∧ rank (vars x) b ≤ rank (vars x) (d' x).1 := by
  obtain ⟨rfl,hle⟩ | ⟨rfl,hlt,-⟩ := tightenLb_cases h
  · exact ⟨.refl d',hle⟩
  · exact ⟨.update hlt.le le_rfl,by rw [update_self]⟩

theorem tightenUb_within (h : d.tightenUb vars x b = some d') :
    d'.Within vars d ∧ rank (vars x) (d' x).2 ≤ rank (vars x) b := by
  obtain ⟨rfl,hle⟩ | ⟨rfl,hlt,-⟩ := tightenUb_cases h
  · exact ⟨.refl d',hle⟩
  · exact ⟨.update le_rfl hlt.le,by rw [update_self]⟩

end Dom

/-- A variable that is merged orders its values like its root. -/
def Problem.Alike (p : Problem) : Prop :=
  ∀ v < p.nVars, rank (p.vars (p.resolve v)) = rank (p.vars v)

def Solved (p : Problem) (d : Dom) : Prop := d.Fixed p → p.holds (d.read p)

/-- A call that narrows domains, keeps every solution in them unless it is stopped, and fixes
them only at a solution. -/
structure Right {σ : Type*} (E : Engine p σ) (f : σ → Dom → σ × Option Dom) : Prop where
  within : ∀ {s d d'}, (f s d).2 = some d' → d'.Within p.vars d
  keeps : ∀ {s d d' a}, p.holds a → d.Roots p a → (f s d).2 = some d' → ∀ x < p.nVars,
    Between (p.vars x) (d x).1 (d x).2 (a x) → Between (p.vars x) (d' x).1 (d' x).2 (a x)
  stopped : ∀ {s d a}, p.holds a → d.Roots p a → (f s d).2 = none → E.stop (f s d).1 = true
  solved : ∀ {s d d'}, Solved p d → (f s d).2 = some d' → Solved p d'

/-- What the search relies on; the states of the engine are those whose learnt clauses are
implied and whose queue holds every propagator that is not at its fixpoint. Variables are
merged for a constraint that says they are equal. -/
structure Sound {σ : Type*} (E : Engine p σ) : Prop where
  typed : ∀ {a}, p.holds a → ∀ x < p.nVars, InRepr (p.vars x) (a x)
  merged : ∀ {a}, p.holds a → ∀ x < p.nVars, a (p.resolve x) = a x
  propagate : Right E E.propagate
  fixpoint : ∀ {s d d'}, (E.propagate s d).2 = some d' → Solved p d'
  shave : Right E E.shave
  assertLearnt : Right E E.assertLearnt
  solution : ∀ {s b d rng d'}, (E.sample s b d rng).2 = .solution d' →
    p.holds (d'.read p) ∧ d'.Within p.vars d
  unsat : ∀ {s d rng a}, (E.sample s false d rng).2 = .unsat → p.holds a → ¬d.Has p a
  accept : ∀ {s x r rng}, E.stop s = true → E.stop (E.accept s x r rng).1.1 = true
  select : ∀ {s d rng x}, (E.select s d rng).1 = some x → x < p.nVars
  draw : ∀ {s x rng lo hi}, rank (p.vars x) lo ≤ rank (p.vars x) hi →
    Between (p.vars x) lo hi (E.drawOther s x rng lo hi).1
  holes : ∀ s x, Sorted (E.holes s x)

structure Checked (p : Problem) (d : Dom) : Prop where
  fits : d.Fits p
  solved : Solved p d

theorem Right.checked {σ : Type*} {E : Engine p σ} {f : σ → Dom → σ × Option Dom} (h : Right E f)
    {s : σ} (hd : Checked p d) (hf : (f s d).2 = some d') : Checked p d' :=
  ⟨hd.fits.within (h.within hf),h.solved hd.solved hf⟩

def Level.Left (p : Problem) (l : Level) (a : ℕ → BitVec 64) : Prop :=
  let r := rank (p.vars l.decision.varId)
  let v := a l.decision.varId
  match l.decision.bound with
  | .upper => r l.decision.tried < r v
  | .lower => r v < r l.decision.tried
  | .value =>
    if l.decision.isSplit then
      l.decision.secondPhase = false ∧
        if l.decision.upperFirst then r v < r l.decision.tried else r l.decision.tried < r v
    else v ≠ l.decision.tried

structure Level.Fit (p : Problem) (l : Level) : Prop where
  lt : l.decision.varId < p.nVars
  checked : Checked p l.saved
  tried : l.decision.bound = .value → l.decision.isSplit = false →
    ∀ a, l.saved.Has p a → Between (p.vars l.decision.varId) (l.saved l.decision.varId).1
      (l.saved l.decision.varId).2 l.decision.tried

/-- The solution is in the domains, and in those of every level. -/
def Inside (p : Problem) (a : ℕ → BitVec 64) (d : Dom) (ls : List Level) : Prop :=
  d.Has p a ∧ ∀ l ∈ ls, l.saved.Has p a

def Pending (p : Problem) (a : ℕ → BitVec 64) : List Level → Prop
  | [] => False
  | l :: ls => l.Left p a ∧ Inside p a l.saved ls ∨ Pending p a ls

/-- Going back to a level has the solution in its domains or leaves it put off. -/
theorem Pending.drop {ls rest : List Level} {l : Level} (h : Pending p a ls) {k : ℕ}
    (hk : ls.drop k = l :: rest) : Inside p a l.saved rest ∨ Pending p a rest := by
  induction ls generalizing k with
  | nil => cases h
  | cons m ls ih =>
    cases k with
    | zero =>
      obtain ⟨rfl,rfl⟩ := List.cons.inj hk
      exact h.imp_left And.right
    | succ k =>
      rcases h with ⟨-,h⟩ | h
      · have hmem : ∀ n ∈ l :: rest, n ∈ ls := fun n hn => List.mem_of_mem_drop (hk ▸ hn)
        exact .inl ⟨h.2 l (hmem l (by simp)),fun n hn => h.2 n (hmem n (by simp [hn]))⟩
      · exact ih h hk

namespace Search

variable {σ : Type*} {E : Engine p σ} {o : Opts} {s : Search σ} {v : BitVec 64}

structure Deciding (p : Problem) (d₀ d : Dom) (ls : List Level) : Prop where
  checked : Checked p d
  fit : ∀ l ∈ ls, l.Fit p
  cover : ∀ {a}, p.holds a → d₀.Has p a → Inside p a d ls ∨ Pending p a ls

structure Failing (p : Problem) (d₀ : Dom) (ls : List Level) : Prop where
  fit : ∀ l ∈ ls, l.Fit p
  cover : ∀ {a}, p.holds a → d₀.Has p a → Pending p a ls

def Inv (E : Engine p σ) (d₀ : Dom) (s : Search σ) : Prop :=
  match s.pc with
  | .root => s.levels = [] ∧ s.dom = d₀ ∧ d₀.Fits p
  | .decide => Deciding p d₀ s.dom s.levels
  | .conflict _ => E.stop s.eng = true ∨ Failing p d₀ s.levels
  | .done .ok => s.dom.Fits p ∧ s.dom.Fixed p ∧ p.holds (s.dom.read p)
  | .done .unsat => ∀ a, p.holds a → ¬d₀.Has p a
  | .done .timeout => True

theorem Inv.frame {s' : Search σ} (h : Inv E d₀ s) (hf : Frame s s') (hpc : s'.pc = s.pc) :
    Inv E d₀ s' := by
  unfold Inv
  rw [hpc,hf.dom,hf.levels,hf.eng]
  exact h

section Calls

variable {ls : List Level} {r : σ × Option Dom}

structure Called (E : Engine p σ) (d₀ : Dom) (ls : List Level) (r : σ × Option Dom) : Prop where
  fit : ∀ l ∈ ls, l.Fit p
  checked : ∀ {d}, r.2 = some d → Checked p d
  cover : ∀ {a}, p.holds a → d₀.Has p a →
    (∃ d, r.2 = some d ∧ Inside p a d ls) ∨ r.2 = none ∧ E.stop r.1 = true ∨ Pending p a ls

theorem Called.some (h : Called E d₀ ls r) (hr : r.2 = some d) : Deciding p d₀ d ls := by
  refine ⟨h.checked hr,h.fit,fun ha h₀ => ?_⟩
  rcases h.cover ha h₀ with ⟨_,hd,hi⟩ | ⟨hn,-⟩ | hp
  · exact .inl (Option.some.inj (hd.symm.trans hr) ▸ hi)
  · cases hn.symm.trans hr
  · exact .inr hp

theorem Called.none (h : Called E d₀ ls r) (hr : r.2 = none) (hstop : ¬E.stop r.1 = true) :
    Failing p d₀ ls := by
  refine ⟨h.fit,fun ha h₀ => ?_⟩
  rcases h.cover ha h₀ with ⟨_,hd,-⟩ | ⟨-,hs⟩ | hp
  · cases hr.symm.trans hd
  · exact absurd hs hstop
  · exact hp

theorem Deciding.call {f : σ → Dom → σ × Option Dom} (h : Deciding p d₀ d ls) (hf : Right E f) (eng : σ) :
    Called E d₀ ls (f eng d) := by
  refine ⟨h.fit,hf.checked h.checked,fun ha h₀ => ?_⟩
  rcases h.cover ha h₀ with hi | hp
  · cases hr : (f eng d).2 with
    | none => exact .inr (.inl ⟨rfl,hf.stopped ha hi.1.roots hr⟩)
    | some d' =>
      exact .inl ⟨d',rfl,fun x hx => hf.keeps ha hi.1.roots hr x hx (hi.1 x hx),hi.2⟩
  · exact .inr (.inr hp)

theorem propagate_called (hE : Sound E) (hf : ∀ l ∈ ls, l.Fit p) {od : Option Dom}
    (hfits : ∀ d, od = some d → d.Fits p)
    (hc : ∀ {a}, p.holds a → d₀.Has p a → (∃ d, od = some d ∧ Inside p a d ls) ∨ Pending p a ls)
    (eng : σ) : Called E d₀ ls (propagate E eng od) := by
  cases od with
  | none =>
    refine ⟨hf,nofun,fun ha h₀ => .inr (.inr ((hc ha h₀).resolve_left ?_))⟩
    rintro ⟨_,h,-⟩
    cases h
  | some d =>
    refine ⟨hf,fun hr => ⟨(hfits d rfl).within (hE.propagate.within hr),hE.fixpoint hr⟩,fun ha h₀ => ?_⟩
    rcases hc ha h₀ with ⟨_,h,hi⟩ | hp
    · obtain rfl := Option.some.inj h
      change (∃ d', (E.propagate eng d).2 = _ ∧ _) ∨ (E.propagate eng d).2 = _ ∧ _ ∨ _
      cases hr : (E.propagate eng d).2 with
      | none => exact .inr (.inl ⟨rfl,hE.propagate.stopped ha hi.1.roots hr⟩)
      | some d' =>
        exact .inl
          ⟨d',rfl,fun x hx => hE.propagate.keeps ha hi.1.roots hr x hx (hi.1 x hx),hi.2⟩
    · exact .inr (.inr hp)

theorem Called.resume (h : Called E d₀ s.levels r) (fresh : Bool) : Inv E d₀ (resume s fresh r) := by
  obtain ⟨eng,d⟩ := r
  cases d with
  | none =>
    by_cases hstop : E.stop eng = true
    · exact .inl hstop
    · exact .inr (h.none rfl hstop)
  | some d => exact h.some rfl

end Calls

theorem pickValue_between (hE : Sound E)
    (hle : rank (p.vars x) (s.dom x).1 ≤ rank (p.vars x) (s.dom x).2) :
    Between (p.vars x) (s.dom x).1 (s.dom x).2 (pickValue E o s x).1 := by
  have hfeas : ∀ {v}, feasible E s x v = true → Between (p.vars x) (s.dom x).1 (s.dom x).2 v := by
    intro v hf
    simp only [feasible,Bool.and_eq_true,not_eq_true',varBLt_eq_false,varBGt_eq_false] at hf
    exact hf.1
  have hdraw : Between (p.vars x) (s.dom x).1 (s.dom x).2 (newDraw E s x).1 := by
    refine pickAvoidingHoles_mem (hE.holes s.eng x) hle _ ?_
    split
    · exact pickValueDist_between _ _ hle
    · exact hE.draw hle
  unfold pickValue
  split_ifs with hphase
  · exact hfeas hphase.2.2
  · split
    · split_ifs with hf
      · exact hfeas hf
      · exact hdraw
    · exact hdraw

theorem assign_has (hE : Sound E) (ha : p.holds a) (hd : d.Has p a) (hx : x < p.nVars) (b : Bound) :
    (∃ d', assign p.vars d x v b = some d' ∧ d'.Has p a) ∨
      Level.Left p ⟨⟨x,v,false,false,false,b⟩,d⟩ a := by
  have ht := hE.typed ha x hx
  cases b with
  | upper =>
    by_cases hv : rank (p.vars x) (a x) ≤ rank (p.vars x) v
    · exact .inl (hd.tightenUb hx ht hv)
    · exact .inr (not_le.mp hv)
  | lower =>
    by_cases hv : rank (p.vars x) v ≤ rank (p.vars x) (a x)
    · exact .inl (hd.tightenLb hx ht hv)
    · exact .inr (not_le.mp hv)
  | value =>
    by_cases hv : a x = v
    · subst hv
      obtain ⟨d₁,h₁,hd₁⟩ := hd.tightenLb hx ht le_rfl
      obtain ⟨d₂,h₂,hd₂⟩ := hd₁.tightenUb hx ht le_rfl
      exact .inl ⟨d₂,by simp [assign,h₁,h₂],hd₂⟩
    · exact .inr hv

theorem assign_within {bd : Bound} (h : assign vars d x v bd = some d') : d'.Within vars d := by
  cases bd with
  | upper => exact (Dom.tightenUb_within h).1
  | lower => exact (Dom.tightenLb_within h).1
  | value =>
    obtain ⟨d₁,h₁,h₂⟩ := Option.bind_eq_some_iff.mp h
    exact (Dom.tightenUb_within h₂).1.trans (Dom.tightenLb_within h₁).1

theorem decideValue_inv (hE : Sound E) (h : Deciding p d₀ s.dom s.levels) (hx : x < p.nVars)
    (hv : ∀ a, s.dom.Has p a → Between (p.vars x) (s.dom x).1 (s.dom x).2 v) :
    Inv E d₀ (decideValue E o s x v) := by
  unfold decideValue
  extract_lets b r c s₁ s₂ s₃
  have hr : Called E d₀ s₂.levels r := by
    refine propagate_called hE (fun l hl => ?_)
      (fun d hd => h.checked.fits.within (assign_within hd)) (fun {a} ha h₀ => ?_) s.eng
    · rcases List.mem_cons.mp hl with rfl | hl
      · exact ⟨hx,h.checked,fun _ _ => hv⟩
      · exact h.fit l hl
    · rcases h.cover ha h₀ with hi | hp
      · rcases assign_has (v:=v) hE ha hi.1 hx b.1 with ⟨d₁,h₁,hd₁⟩ | hleft
        · refine .inl ⟨d₁,h₁,hd₁,fun l hl => ?_⟩
          rcases List.mem_cons.mp hl with rfl | hl
          · exact hi.1
          · exact hi.2 l hl
        · exact .inr (.inl ⟨hleft,hi⟩)
      · exact .inr (.inr hp)
  split
  case isTrue =>
    exact Inv.frame (s:={ s₁ with pc := .decide }) h (setKeep_frame _ x .dead) (setKeep_pc _ _ _)
  case isFalse =>
    split
    case h_1 d' hd' => exact hr.some hd'
    case h_2 hnone =>
      have hstop : E.stop r.1 = true → E.stop c.1.1 = true := by
        intro hs
        unfold c
        split_ifs
        · exact hE.accept hs
        · exact hs
      have hf := setKeep_frame s₂ x .dead
      have hconf : Inv E d₀ { setKeep s₂ x .dead with pc := .conflict true } := by
        refine Inv.frame (s:={ s₂ with pc := .conflict true }) ?_
          ⟨hf.dom,hf.levels,hf.keepOn,hf.fails,hf.eng⟩ rfl
        by_cases hs : E.stop r.1 = true
        · exact .inl (hstop hs)
        · exact .inr (hr.none hnone hs)
      split
      · exact hconf
      · exact hconf

theorem trySample_spec (E : Engine p σ) (o : Opts) (b : Bool) (s : Search σ) :
    (trySample E o b s).1 = { s with eng := (trySample E o b s).1.eng, rng := (trySample E o b s).1.rng } ∧
      ((trySample E o b s).2 = .none ∨ (trySample E o b s).2 = (E.sample s.eng b s.dom s.rng).2) := by
  unfold trySample
  split_ifs
  · exact ⟨rfl,.inr rfl⟩
  · exact ⟨rfl,.inl rfl⟩

theorem trySample_holds (hE : Sound E) {b : Bool} (hf : s.dom.Fits p)
    (h : (trySample E o b s).2 = .solution d) :
    d.Fits p ∧ d.Fixed p ∧ p.holds (d.read p) := by
  rcases (trySample_spec E o b s).2 with heq | heq
  · cases heq.symm.trans h
  · have hsol := heq.symm.trans h
    exact ⟨hf.within (hE.solution hsol).2,E.sample_single _ _ _ _ _ hsol,(hE.solution hsol).1⟩

theorem decideStep_inv (hE : Sound E) (h : Deciding p d₀ s.dom s.levels) :
    Inv E d₀ (decideStep E o s) := by
  unfold decideStep
  split_ifs
  · trivial
  · extract_lets q t r
    split
    case h_1 hnone =>
      have hfixed : s.dom.Fixed p := E.select_none _ _ _ hnone
      exact ⟨h.checked.fits,hfixed,h.checked.solved hfixed⟩
    case h_2 x hx =>
      split
      case h_1 d' hd' => exact trySample_holds (s:=t) hE h.checked.fits hd'
      case h_2 =>
        have hf := pickValue_frame E o r.1 x
        have hr : r.1 = { s with eng := r.1.eng, rng := r.1.rng } := (trySample_spec E o true t).1
        unfold decideVar
        extract_lets q
        split_ifs
        · trivial
        · refine decideValue_inv hE ?_ (hE.select hx) fun a ha => ?_
          · rw [hf.dom,hf.levels,hr]
            exact h
          · rw [hf.dom] at ha ⊢
            have hb := ha x (hE.select hx)
            exact pickValue_between hE (hb.1.trans hb.2)

theorem tierResult_inv (hE : Sound E) {t : Search σ} (h : Deciding p d₀ t.dom t.levels)
    (hl : t.levels = []) : Inv E d₀ (tierResult (trySample E o false t)) := by
  obtain ⟨hfst,hsnd⟩ := trySample_spec E o false t
  have hsol := fun d => trySample_holds (s:=t) (d:=d) (o:=o) (b:=false) hE h.checked.fits
  generalize trySample E o false t = q at hfst hsnd hsol
  obtain ⟨t',res⟩ := q
  cases res with
  | solution d' => exact hsol d' rfl
  | unsat =>
    rcases hsnd with heq | heq
    · cases heq
    · intro a ha h₀
      rw [hl] at h
      rcases h.cover ha h₀ with hi | hp
      · exact hE.unsat heq.symm ha hi.1
      · cases hp
  | none =>
    change t' = _ at hfst
    unfold Inv tierResult
    rw [hfst]
    exact h

theorem shaveStep_inv (hE : Sound E) (h : Deciding p d₀ s.dom s.levels) (hl : s.levels = []) :
    Inv E d₀ (shaveStep E o s) := by
  unfold shaveStep
  extract_lets r
  have hr : Called E d₀ s.levels r := by
    unfold r
    split_ifs
    · exact h.call hE.shave s.eng
    · refine ⟨h.fit,fun hd => Option.some.inj hd ▸ h.checked,fun ha h₀ => ?_⟩
      rcases h.cover ha h₀ with hi | hp
      · exact .inl ⟨_,rfl,hi⟩
      · exact .inr (.inr hp)
  split_ifs with hstop
  · trivial
  · split
    case h_1 hnone =>
      intro a ha h₀
      have hp := (hr.none hnone hstop).cover ha h₀
      rw [hl] at hp
      exact hp
    case h_2 d' hd' => exact tierResult_inv (t:={ s with eng := r.1, dom := d' }) hE (hr.some hd') hl

theorem rootStep_inv (hE : Sound E) (hl : s.levels = []) (hd : s.dom = d₀) (hfits : d₀.Fits p) :
    Inv E d₀ (rootStep E o s) := by
  unfold rootStep
  extract_lets r
  have hr : Called E d₀ s.levels r := by
    refine propagate_called hE (by simp [hl]) (fun d h => ?_) (fun ha h₀ => .inl ⟨_,rfl,?_⟩) s.eng
    · rwa [← Option.some.inj h,hd]
    rw [hl,hd]
    exact ⟨h₀,by simp⟩
  rw [hl] at hr
  split
  case h_1 hnone =>
    split_ifs with hstop
    · trivial
    · exact fun a ha h₀ => (hr.none hnone hstop).cover ha h₀
  case h_2 d' hd' =>
    have hdec := hr.some hd'
    split_ifs with hany
    · intro a ha h₀
      obtain ⟨x,hx,hgt⟩ := List.any_eq_true.mp hany
      rcases hdec.cover ha h₀ with hi | hp
      · have hb := hi.1 x (List.mem_range.mp hx)
        rw [varBGt_eq_false.mpr (hb.1.trans hb.2)] at hgt
        cases hgt
      · exact hp
    · exact shaveStep_inv hE (by rw [hl]; exact hdec) hl

/-- The level `l` undone below `ls`: what it put off is in the domains of `r`, or put off
again. -/
structure Undone (p : Problem) (l : Level) (ls : List Level) (r : Search σ × Option Dom) : Prop where
  fit : ∀ m ∈ r.1.levels, m.Fit p
  cover : ∀ {a}, p.holds a → Pending p a (l :: ls) →
    (∃ d, r.2 = some d ∧ Inside p a d r.1.levels) ∨ Pending p a r.1.levels

section Undone

variable {l : Level} {r : Search σ × Option Dom}

theorem undone_of_same (hf : ∀ m ∈ s.levels, m.Fit p) (hl : r.1.levels = s.levels)
    (hc : ∀ {a}, p.holds a → l.saved.Has p a → l.Left p a → ∃ d, r.2 = some d ∧ d.Has p a) :
    Undone p l s.levels r := by
  refine ⟨by rwa [hl],fun ha h => ?_⟩
  rw [hl]
  rcases h with ⟨hleft,hi⟩ | hp
  · obtain ⟨d,hd,hhas⟩ := hc ha hi.1 hleft
    exact .inl ⟨d,hd,hhas,hi.2⟩
  · exact .inr hp

theorem undone_of_push (hf : ∀ m ∈ s.levels, m.Fit p) {e : Decision}
    (hl : r.1.levels = ⟨e,l.saved⟩ :: s.levels) (he : Level.Fit p ⟨e,l.saved⟩)
    (hc : ∀ {a}, p.holds a → l.saved.Has p a → l.Left p a →
      (∃ d, r.2 = some d ∧ d.Has p a) ∨ Level.Left p ⟨e,l.saved⟩ a) : Undone p l s.levels r := by
  constructor <;> rw [hl]
  · intro m hm
    rcases List.mem_cons.mp hm with rfl | hm
    · exact he
    · exact hf m hm
  · rintro a ha (⟨hleft,hi⟩ | hp)
    · rcases hc ha hi.1 hleft with ⟨d,hd,hhas⟩ | hleft
      · refine .inl ⟨d,hd,hhas,fun m hm => ?_⟩
        rcases List.mem_cons.mp hm with rfl | hm
        · exact hi.1
        · exact hi.2 m hm
      · exact .inr (.inl ⟨hleft,hi⟩)
    · exact .inr (.inr hp)

theorem bisect_within (o : Opts) (p : Problem) (s : Search σ) (e : Decision) (counted : Bool)
    (h : (bisect o p s e counted).2 = some d) : d.Within p.vars s.dom := by
  unfold bisect at h
  extract_lets lo hi r u e' at h
  split at h
  case h_1 => exact (Dom.tightenLb_within h).1
  case h_2 => exact (Dom.tightenUb_within h).1
  case h_3 =>
    split_ifs at h
    · exact (Dom.tightenUb_within h).1
    · exact (Dom.tightenLb_within h).1
    · exact (Dom.tightenLb_within h).1
    · exact (Dom.tightenUb_within h).1
    · rw [← Option.some.inj h]
      exact .refl _
    · exact (Dom.tightenLb_within h).1
    · exact (Dom.tightenUb_within h).1

theorem bisect_dom (o : Opts) (p : Problem) (s : Search σ) (e : Decision) (counted : Bool) :
    (bisect o p s e counted).1.dom = s.dom := by
  have hr : (redraw o s e.varId counted).2.dom = s.dom := by
    unfold redraw
    extract_lets fails
    split_ifs
    · rfl
    · rfl
    · exact (setKeep_frame _ _ _).dom
  unfold bisect
  extract_lets lo hi r u d
  split
  case h_1 => rfl
  case h_2 => rfl
  case h_3 => split_ifs <;> first | rfl | exact hr

theorem bisect_undone (hE : Sound E) (hl : l.Fit p) (hdom : s.dom = l.saved)
    (hf : ∀ m ∈ s.levels, m.Fit p) (counted : Bool) :
    Undone p l s.levels (bisect o p s l.decision counted) := by
  obtain ⟨⟨y,v,split,upper,second,bound⟩,d⟩ := l
  have hr := (redraw_keeps o s y counted).2
  have hlb : ∀ {a b}, p.holds a → d.Has p a → rank (p.vars y) b < rank (p.vars y) (a y) →
      ∃ d', d.tightenLb p.vars y (b+1#64) = some d' ∧ d'.Has p a := fun ha hd h =>
    hd.tightenLb hl.lt (hE.typed ha y hl.lt) (rank_succ h)
  have hub : ∀ {a b}, p.holds a → d.Has p a → rank (p.vars y) (a y) < rank (p.vars y) b →
      ∃ d', d.tightenUb p.vars y (b-1#64) = some d' ∧ d'.Has p a := fun ha hd h =>
    hd.tightenUb hl.lt (hE.typed ha y hl.lt) (rank_pred h)
  have hfit : ∀ up second, Level.Fit p ⟨⟨y,v,true,up,second,.value⟩,d⟩ := fun _ _ =>
    ⟨hl.lt,hl.checked,fun _ h => Bool.noConfusion h⟩
  unfold bisect
  rw [hdom]
  cases bound with
  | upper => exact undone_of_same hf rfl hlb
  | lower => exact undone_of_same hf rfl hub
  | value =>
    cases split with
    | true =>
      simp only [if_true]
      cases second with
      | true => exact undone_of_same hf rfl fun _ _ hleft => Bool.noConfusion hleft.1
      | false =>
        cases upper with
        | true =>
          simp only [Bool.false_eq_true,if_true,if_false]
          exact undone_of_push hf rfl (hfit _ _) fun ha hd hleft => .inl (hub ha hd hleft.2)
        | false =>
          simp only [Bool.false_eq_true,if_false]
          exact undone_of_push hf rfl (hfit _ _) fun ha hd hleft => .inl (hlb ha hd hleft.2)
    | false =>
      have hin := hl.tried rfl rfl
      have hne : ∀ {a : ℕ → BitVec 64}, a y ≠ v → rank (p.vars y) (a y) ≠ rank (p.vars y) v :=
        fun hleft heq => hleft (rank_injective heq)
      simp only [Bool.false_eq_true,if_false]
      split_ifs with hempty hlow hhigh hagain hup
      · refine undone_of_same hf rfl fun _ hd _ => ?_
        have hb := hd y hl.lt
        rw [varBGt_eq_false.mpr (hb.1.trans hb.2)] at hempty
        cases hempty
      · rw [Bool.not_eq_true',varBGt_eq_false] at hlow
        refine undone_of_same hf rfl fun {a} ha hd hleft => hlb ha hd ?_
        refine lt_of_le_of_ne (hd y hl.lt).1 fun h => hne hleft (h.symm.trans ?_)
        exact (hin a hd).1.antisymm hlow
      · rw [Bool.not_eq_true',varBLt_eq_false] at hhigh
        refine undone_of_same hf rfl fun {a} ha hd hleft => hub ha hd ?_
        refine lt_of_le_of_ne (hd y hl.lt).2 fun h => hne hleft (h.trans ?_)
        exact hhigh.antisymm (hin a hd).2
      · exact undone_of_same hf hr fun _ hd _ => ⟨d,rfl,hd⟩
      · refine undone_of_push hf rfl (hfit _ _) fun ha hd hleft => ?_
        rcases lt_or_gt_of_ne (hne hleft) with h | h
        · exact .inr ⟨rfl,(if_pos hup).mpr h⟩
        · exact .inl (hlb ha hd h)
      · refine undone_of_push hf rfl (hfit _ _) fun ha hd hleft => ?_
        rcases lt_or_gt_of_ne (hne hleft) with h | h
        · exact .inl (hub ha hd h)
        · exact .inr ⟨rfl,(if_neg hup).mpr h⟩

end Undone

theorem chronological_inv (hE : Sound E) (h : Failing p d₀ s.levels) (fresh : Bool) :
    Inv E d₀ (chronological E o s fresh) := by
  unfold chronological
  split
  case h_1 hnil =>
    intro a ha h₀
    have hp := h.cover ha h₀
    rw [hnil] at hp
    exact hp
  case h_2 l rest hcons =>
    extract_lets b r
    have hback := (backtrack_top (E:=E) hcons).2
    rw [hcons] at h
    have hu : Undone p l rest b := by
      have hfit : ∀ m ∈ (backtrack E s (s.levels.length-1)).levels, m.Fit p := by
        rw [hback.2]
        exact fun m hm => h.fit m (List.mem_cons_of_mem _ hm)
      have := bisect_undone (o:=o) hE (h.fit l List.mem_cons_self) hback.1 hfit fresh
      rwa [hback.2] at this
    have hfits : ∀ d, b.2 = some d → d.Fits p := fun d hd => by
      have hw := bisect_within o p _ _ _ hd
      rw [hback.1] at hw
      exact (h.fit l List.mem_cons_self).checked.fits.within hw
    have hr : Called E d₀ b.1.levels r :=
      propagate_called hE hu.fit hfits (fun ha h₀ => hu.cover ha (h.cover ha h₀)) b.1.eng
    split_ifs
    · unfold savePhase
      split_ifs
      · exact Called.resume (s:={ b.1 with phase := Function.update b.1.phase _ _ }) hr false
      · exact hr.resume false
    · exact hr.resume false

theorem backtrack_spec' {n : ℕ} (hn : n < s.levels.length) (h : Failing p d₀ s.levels) :
    (backtrack E s n).levels.length = n ∧
      Deciding p d₀ (backtrack E s n).dom (backtrack E s n).levels := by
  have hlen : (s.levels.drop (s.levels.length-n-1)).length = n+1 := by
    rw [List.length_drop]
    omega
  unfold backtrack
  split
  case h_1 hnil =>
    rw [hnil] at hlen
    cases hlen
  case h_2 l rest hdrop =>
    have hfit : ∀ m ∈ l :: rest, m.Fit p := fun m hm => h.fit m (List.mem_of_mem_drop (hdrop ▸ hm))
    rw [hdrop] at hlen
    rw [if_neg (not_le.mpr hn)]
    exact ⟨Nat.succ.inj hlen,(hfit l List.mem_cons_self).checked,fun m hm =>
      hfit m (List.mem_cons_of_mem _ hm),fun ha h₀ => (h.cover ha h₀).drop hdrop⟩

theorem restart_inv (hE : Sound E) (hne : 0 < s.levels.length) (h : Failing p d₀ s.levels) :
    Inv E d₀ (restart E o s) := by
  obtain ⟨hlen,hd⟩ := backtrack_spec' (E:=E) hne h
  rw [List.length_eq_zero_iff] at hlen
  have hr := hd.call hE.propagate (backtrack E s 0).eng
  unfold restart
  extract_lets t u r
  split
  case isTrue => trivial
  case isFalse =>
    split
    case h_1 hnone =>
      split_ifs with hstop
      · trivial
      · rw [hlen] at hr
        exact fun a ha h₀ => (hr.none hnone hstop).cover ha h₀
    case h_2 d' hd' => exact hr.some hd'

theorem conflictStep_inv (hE : Sound E) (h : E.stop s.eng = true ∨ Failing p d₀ s.levels) (fresh : Bool) :
    Inv E d₀ (conflictStep E o s fresh) := by
  unfold conflictStep
  split_ifs with hstop
  · trivial
  · replace h := h.resolve_left hstop
    extract_lets t r
    split_ifs with hlen
    · intro a ha h₀
      have hp := h.cover ha h₀
      rw [List.length_eq_zero_iff.mp hlen] at hp
      exact hp
    · exact restart_inv (s:=t) hE (Nat.pos_of_ne_zero hlen) h
    · split
      case h_1 bt _ =>
        have hn : min bt (s.levels.length-1) < s.levels.length :=
          (Nat.min_le_right _ _).trans_lt (Nat.sub_one_lt hlen)
        obtain ⟨-,hd⟩ := backtrack_spec' (E:=E) (s:={ t with eng := r.1 }) hn h
        exact (hd.call hE.assertLearnt _).resume false
      case h_2 => exact chronological_inv (s:={ t with eng := r.1 }) hE h fresh

theorem Inv.step (hE : Sound E) (h : Inv E d₀ s) : Inv E d₀ (step E o s) := by
  unfold Search.step
  cases hpc : s.pc with
  | root =>
    simp only [Inv,hpc] at h
    exact rootStep_inv hE h.1 h.2.1 h.2.2
  | decide =>
    simp only [Inv,hpc] at h
    exact decideStep_inv hE h
  | conflict fresh =>
    simp only [Inv,hpc] at h
    exact conflictStep_inv hE h fresh
  | done v => exact h

section Merge

def mergeOne (p : Problem) (d : Dom) (i : ℕ) : Option Dom :=
  if p.resolve i = i then some d
  else (d.tightenLb p.vars (p.resolve i) (varLo64 (p.vars i))).bind fun d =>
    d.tightenUb p.vars (p.resolve i) (varHi64 (p.vars i))

theorem mergeDomains_eq (p : Problem) : mergeDomains p = (List.range p.nVars).foldlM (mergeOne p)
    fun x => (varLo64 (p.vars x),varHi64 (p.vars x)) := rfl

theorem mergeOne_within {i : ℕ} (h : mergeOne p d i = some d') : d'.Within p.vars d ∧
    (p.resolve i ≠ i → rank (p.vars (p.resolve i)) (varLo64 (p.vars i)) ≤
        rank (p.vars (p.resolve i)) (d' (p.resolve i)).1 ∧
      rank (p.vars (p.resolve i)) (d' (p.resolve i)).2 ≤
        rank (p.vars (p.resolve i)) (varHi64 (p.vars i))) := by
  unfold mergeOne at h
  split_ifs at h with hi
  · exact ⟨Option.some.inj h ▸ .refl _,fun hne => absurd hi hne⟩
  · obtain ⟨d₁,h₁,h₂⟩ := Option.bind_eq_some_iff.mp h
    obtain ⟨hw₁,hlo⟩ := Dom.tightenLb_within h₁
    obtain ⟨hw₂,hhi⟩ := Dom.tightenUb_within h₂
    exact ⟨hw₂.trans hw₁,fun _ => ⟨hlo.trans (hw₂.le _).1,hhi⟩⟩

theorem mergeAll_within {l : List ℕ} (h : l.foldlM (mergeOne p) d = some d') : d'.Within p.vars d ∧
    ∀ i ∈ l, p.resolve i ≠ i → rank (p.vars (p.resolve i)) (varLo64 (p.vars i)) ≤
        rank (p.vars (p.resolve i)) (d' (p.resolve i)).1 ∧
      rank (p.vars (p.resolve i)) (d' (p.resolve i)).2 ≤
        rank (p.vars (p.resolve i)) (varHi64 (p.vars i)) := by
  induction l generalizing d with
  | nil => exact ⟨Option.some.inj h ▸ .refl _,by simp⟩
  | cons i l ih =>
    rw [List.foldlM_cons] at h
    obtain ⟨d₁,h₁,h₂⟩ := Option.bind_eq_some_iff.mp h
    obtain ⟨hw,hall⟩ := ih h₂
    obtain ⟨hw₁,hone⟩ := mergeOne_within h₁
    refine ⟨hw.trans hw₁,fun j hj hne => ?_⟩
    rcases mem_cons.mp hj with rfl | hj
    · exact ⟨(hone hne).1.trans (hw.le _).1,(hw.le _).2.trans (hone hne).2⟩
    · exact hall j hj hne

theorem mergeDomains_fits (h : mergeDomains p = some d) : d.Fits p := by
  rw [mergeDomains_eq] at h
  obtain ⟨hw,hall⟩ := mergeAll_within h
  intro v hv
  by_cases hr : p.resolve v = v
  · rw [hr]
    exact hw.le v
  · exact hall v (List.mem_range.mpr hv) hr

theorem mergeDomains_has {E : Engine p σ} (hE : Sound E) (ht : p.Alike) (ha : p.Solves a) :
    ∃ d, mergeDomains p = some d ∧ d.Has p a := by
  have hdom : ∀ v < p.nVars, Between (p.vars v) (varLo64 (p.vars v)) (varHi64 (p.vars v)) (a v) :=
    fun v hv => ⟨varBLt_eq_false.mp (ha.domain v hv).1,varBGt_eq_false.mp (ha.domain v hv).2⟩
  have hfold : ∀ (l : List ℕ) (d : Dom), (∀ i ∈ l, i < p.nVars) → d.Has p a →
      ∃ d', l.foldlM (mergeOne p) d = some d' ∧ d'.Has p a := by
    intro l
    induction l with
    | nil => exact fun d _ hd => ⟨d,rfl,hd⟩
    | cons i l ih =>
      intro d hl hd
      have hi := hl i List.mem_cons_self
      have hone : ∃ d₁, mergeOne p d i = some d₁ ∧ d₁.Has p a := by
        unfold mergeOne
        split_ifs with hr
        · exact ⟨d,rfl,hd⟩
        · have hlt := (p.resolve_le i).trans_lt hi
          have htype := hE.typed ha.holds _ hlt
          have hb := hdom i hi
          unfold Pick.Between at hb
          rw [← hE.merged ha.holds i hi,← ht i hi] at hb
          obtain ⟨d₁,h₁,hd₁⟩ := hd.tightenLb hlt htype hb.1
          obtain ⟨d₂,h₂,hd₂⟩ := hd₁.tightenUb hlt htype hb.2
          exact ⟨d₂,by rw [h₁]; exact h₂,hd₂⟩
      obtain ⟨d₁,h₁,hd₁⟩ := hone
      obtain ⟨d',h',hd'⟩ := ih d₁ (fun j hj => hl j (List.mem_cons_of_mem _ hj)) hd₁
      exact ⟨d',by rw [List.foldlM_cons,h₁]; exact h',hd'⟩
  exact hfold _ _ (fun i hi => List.mem_range.mp hi) hdom

end Merge

/-- Every answer of a run is right: `OK` gives a solution, and `UNSAT` says that there is none. -/
theorem run_answers (hE : Sound E) (ht : p.Alike) (o : Opts) (rng : BitVec 64) (eng : σ) (n : ℕ) :
    SearchExact p (run E o rng eng n) := by
  cases hm : mergeDomains p with
  | none =>
    have hpc := run_unmerged E o rng eng hm n
    refine ⟨fun h => absurd (hpc.symm.trans h) (by decide),fun _ a ha => ?_⟩
    obtain ⟨d,hd,-⟩ := mergeDomains_has hE ht ha
    rw [hm] at hd
    cases hd
  | some d₀ =>
    have hinv : Inv E d₀ (run E o rng eng n) := by
      induction n with
      | zero =>
        change Inv E d₀ (start o p rng eng)
        simp [Inv,start,hm,mergeDomains_fits hm]
      | succ n ih =>
        have hsucc : run E o rng eng (n+1) = Search.step E o (run E o rng eng n) :=
          Function.iterate_succ_apply' _ _ _
        rw [hsucc]
        exact ih.step hE
    unfold Inv at hinv
    constructor <;> intro hpc <;> rw [hpc] at hinv
    · obtain ⟨hfits,hfixed,hholds⟩ := hinv
      refine ⟨fun v hv => ?_,hholds⟩
      have hr := hfixed _ ((p.resolve_le v).trans_lt hv) (p.resolve_resolve v)
      have hb := hfits v hv
      rw [ht v hv] at hb
      unfold Dom.Single at hr
      rw [← hr] at hb
      exact ⟨varBLt_eq_false.mpr hb.1,varBGt_eq_false.mpr hb.2⟩
    · intro a ha
      obtain ⟨d,hd,hhas⟩ := mergeDomains_has hE ht ha
      obtain rfl : d₀ = d := Option.some.inj (hm.symm.trans hd)
      exact hinv a ha.holds hhas

/-- Propagation that only tests the value of a variable that is fixed. -/
def trial (P : BitVec 64 → Bool) (d : Dom) : Option Dom :=
  if (d 0).1 = (d 0).2 ∧ P (d 0).1 = false then none else some d

theorem trial_some {P : BitVec 64 → Bool} (h : trial P d = some d') :
    d' = d ∧ ((d 0).1 = (d 0).2 → P (d 0).1 = true) := by
  unfold trial at h
  split_ifs at h with ht
  exact ⟨(Option.some.inj h).symm,fun heq => by simpa [heq] using ht⟩

def trying (hi : BitVec 32) (P : BitVec 64 → Bool) :
    Engine (oneDist hi fun a => P (a 0) = true) Unit :=
  oneVar hi (fun a => P (a 0) = true) (trial P) fun d _ h => (trial_some h).1.symm ▸ .refl d

theorem trying_right {hi : BitVec 32} {P : BitVec 64 → Bool}
    (hP : ∀ v, P v = true → InRepr (byte hi) v) : Sound (trying hi P) := by
  have hsame : Right (trying hi P) fun s d => (s,some d) :=
    ⟨fun h => Option.some.inj h ▸ .refl _,fun _ _ h _ _ hb => Option.some.inj h ▸ hb,by simp,
      fun hd h => Option.some.inj h ▸ hd⟩
  have hzero : ∀ {x}, x < (oneDist hi fun a => P (a 0) = true).nVars → x = 0 := fun {x} hx => by
    simpa [oneDist] using hx
  refine ⟨fun ha x hx => (hzero hx).symm ▸ hP _ ha,fun _ _ _ => rfl,⟨fun h => ?_,fun _ _ h x _ hb => ?_,
    fun {s d a} ha hd h => ?_,fun hd h => ?_⟩,fun h hf => ?_,hsame,hsame,by simp [trying,oneVar],
    by simp [trying,oneVar],by simp [trying,oneVar],fun {s d rng x} h => ?_,fun h => ⟨le_rfl,h⟩,
    by simp [trying,oneVar,Sorted]⟩
  · exact (trial_some h).1.symm ▸ .refl _
  · exact (trial_some h).1.symm ▸ hb
  · have hb := hd 0 Nat.one_pos rfl
    change trial P d = none at h
    unfold trial at h
    split_ifs at h with hbad
    rw [← hbad.1] at hb
    have heq : a 0 = (d 0).1 := rank_injective (le_antisymm hb.2 hb.1)
    have hpa : P (a 0) = true := ha
    rw [heq,hbad.2] at hpa
    cases hpa
  · exact (trial_some h).1.symm ▸ hd
  · obtain ⟨rfl,ht⟩ := trial_some h
    exact ht (hf 0 Nat.one_pos rfl)
  · simp only [trying,oneVar] at h
    split_ifs at h
    exact Option.some.inj h ▸ Nat.one_pos

def restless : Opts := ⟨1#64,false,false,false,3,10000,0,300,true,true⟩

/-- Looking for `x == 5` in `[0,7]`, and for a value that there is not in `[0,3]`: either search
splits domains and starts again twice. -/
theorem run_answers_restless :
    let s := run (trying 7#32 (· == 5#64)) restless 0#64 () 21
    let t := run (trying 3#32 fun _ => false) restless 0#64 () 16
    let p := oneDist 7#32 fun a => (a 0 == 5#64) = true
    (s.pc = .done .ok ∧ s.restarts = 2 ∧ s.levels.length = 2 ∧ p.Solves (value p s)) ∧
    (t.pc = .done .unsat ∧ t.restarts = 2 ∧ ∀ a, ¬(oneDist 3#32 fun _ => false = true).Solves a) := by
  have hfive : ∀ v : BitVec 64, (v == 5#64) = true → InRepr (byte 7#32) v := fun v hv => by
    rw [eq_of_beq hv]
    exact ⟨by decide,by decide⟩
  have hok := run_answers (trying_right hfive) (fun _ _ => rfl) restless 0#64 () 21
  have hno := run_answers (@trying_right 3#32 (fun _ => false) (by simp)) (fun _ _ => rfl)
    restless 0#64 () 16
  exact ⟨⟨by decide,by decide,by decide,hok.ok (by decide)⟩,by decide,by decide,hno.unsat (by decide)⟩

end Search

end Dist
end DvSolve
