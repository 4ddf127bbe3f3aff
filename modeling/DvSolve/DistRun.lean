import DvSolve.DistSearch
import DvSolve.DistSem

/-! Runs of the search on a problem with distributions. -/
namespace DvSolve
namespace Dist

open Solver

theorem aliasUnion_idem {find : ℕ → ℕ} (h : ∀ i, find (find i) = find i) (x : ℕ × ℕ) (i : ℕ) :
    aliasUnion find x (aliasUnion find x i) = aliasUnion find x i := by
  unfold aliasUnion
  split_ifs with heq hlt
  · exact h i
  · by_cases hi : find i = find x.2
    · simp [hi,h,heq]
    · simp [hi,h]
  · by_cases hi : find i = find x.1
    · simp [hi,h,Ne.symm heq]
    · simp [hi,h]

theorem foldl_aliasUnion_idem (l : List (ℕ × ℕ)) {find : ℕ → ℕ}
    (h : ∀ i, find (find i) = find i) (i : ℕ) :
    l.foldl aliasUnion find (l.foldl aliasUnion find i) = l.foldl aliasUnion find i := by
  induction l generalizing find with
  | nil => exact h i
  | cons x l ih => exact ih (aliasUnion_idem h x)

theorem Problem.resolve_resolve (p : Problem) (i : ℕ) : p.resolve (p.resolve i) = p.resolve i :=
  foldl_aliasUnion_idem p.merged (fun _ => rfl) i

theorem aliasUnion_le {find : ℕ → ℕ} (h : ∀ i, find i ≤ i) (x : ℕ × ℕ) (i : ℕ) :
    aliasUnion find x i ≤ i := by
  have := h i
  unfold aliasUnion
  split_ifs with heq hlt
  · exact this
  · dsimp only
    split_ifs with hi
    · omega
    · exact this
  · dsimp only
    split_ifs with hi
    · omega
    · exact this

theorem Problem.resolve_le (p : Problem) (i : ℕ) : p.resolve i ≤ i := by
  unfold resolve
  have hkeep : ∀ (l : List (ℕ × ℕ)) (find : ℕ → ℕ), (∀ j, find j ≤ j) →
      l.foldl aliasUnion find i ≤ i := by
    intro l
    induction l with
    | nil => exact fun find h => h i
    | cons x l ih => exact fun find h => ih _ (aliasUnion_le h x)
  exact hkeep _ _ fun _ => le_rfl

namespace Dom

variable {vars : ℕ → Variable} {d d' d'' : Dom} {x : ℕ} {v : BitVec 64}

theorem Within.le (h : d'.Within vars d) (x : ℕ) :
    rank (vars x) (d x).1 ≤ rank (vars x) (d' x).1 ∧ rank (vars x) (d' x).2 ≤ rank (vars x) (d x).2 :=
  ⟨varBLt_eq_false.mp (h x).1,varBGt_eq_false.mp (h x).2⟩

end Dom

namespace Search

variable {p : Problem} {σ : Type*} {E : Engine p σ} {o : Opts} {s : Search σ} {x y : ℕ}
  {v w : BitVec 64}

/-- A pick keeps the rest of the search. -/
structure Frame (s s' : Search σ) : Prop where
  dom : s'.dom = s.dom
  levels : s'.levels = s.levels
  keepOn : s'.keepOn = s.keepOn
  fails : s'.fails = s.fails
  eng : s'.eng = s.eng

theorem Frame.refl (s : Search σ) : Frame s s := ⟨rfl,rfl,rfl,rfl,rfl⟩

theorem newDraw_frame (E : Engine p σ) (s : Search σ) (x : ℕ) : Frame s (newDraw E s x).2 :=
  ⟨rfl,rfl,rfl,rfl,rfl⟩

theorem pickValue_cases (E : Engine p σ) (o : Opts) (s : Search σ) (x : ℕ) :
    (o.usePhaseSave = true ∧ o.seed = 0#64) ∧ pickValue E o s x = (s.phase x,s) ∨
    (∃ v, s.keep x = .set v ∧ feasible E s x v = true ∧ pickValue E o s x = (v,s)) ∨
    pickValue E o s x = newDraw E s x := by
  unfold pickValue
  split_ifs with hphase
  · exact .inl ⟨⟨hphase.1,hphase.2.1⟩,rfl⟩
  · right
    split
    case h_1 v hon hset =>
      split_ifs with hf
      · exact .inl ⟨v,hset,hf,rfl⟩
      · exact .inr rfl
    case h_2 => exact .inr rfl

theorem pickValue_frame (E : Engine p σ) (o : Opts) (s : Search σ) (x : ℕ) :
    Frame s (pickValue E o s x).2 := by
  rcases pickValue_cases E o s x with ⟨-,h⟩ | ⟨v,-,-,h⟩ | h
  · rw [h]
    exact .refl s
  · rw [h]
    exact .refl s
  · rw [h]
    exact newDraw_frame E s x

theorem pickValue_keep (h : (pickValue E o s x).2.keep y = .set w) :
    s.keep y = .set w ∨ y = x ∧ w = (pickValue E o s x).1 := by
  rcases pickValue_cases E o s x with ⟨-,hp⟩ | ⟨v,-,-,hp⟩ | hp
  · rw [hp] at h
    exact .inl h
  · rw [hp] at h
    exact .inl h
  · rw [hp] at h ⊢
    simp only [newDraw] at h ⊢
    split_ifs at h
    · rw [Function.update_apply] at h
      split_ifs at h with hy
      · exact .inr ⟨hy,(Keep.set.inj h).symm⟩
      · exact .inl h
    · exact .inl h

theorem setKeep_frame (s : Search σ) (x : ℕ) (k : Keep) : Frame s (setKeep s x k) := by
  unfold setKeep
  split_ifs
  · exact ⟨rfl,rfl,rfl,rfl,rfl⟩
  · exact .refl s

theorem setKeep_dead (t : Search σ) (ht : t.keep = s.keep)
    (h : (setKeep t x .dead).keep y = .set w) : s.keep y = .set w := by
  rw [← ht]
  unfold setKeep at h
  split_ifs at h
  · simp only [Function.update_apply] at h
    split_ifs at h
    exact h
  · exact h

/-- The kept values and the levels stay. -/
structure Quiet (s s' : Search σ) : Prop where
  keep : s'.keep = s.keep
  levels : s'.levels = s.levels

theorem Quiet.trans {s₁ s₂ s₃ : Search σ} (h : Quiet s₁ s₂) (h' : Quiet s₂ s₃) : Quiet s₁ s₃ :=
  ⟨h'.keep.trans h.keep,h'.levels.trans h.levels⟩

theorem trySample_quiet (E : Engine p σ) (o : Opts) (b : Bool) (s : Search σ) :
    Quiet s (trySample E o b s).1 ∧ (trySample E o b s).1.dom = s.dom := by
  unfold trySample
  split_ifs <;> exact ⟨⟨rfl,rfl⟩,rfl⟩

theorem trySample_closed {b : Bool} (h : tierOpen E s.dom = false) :
    trySample E o b s = (s,.none) := by
  simp [trySample,h]

theorem tierResult_quiet (r : Search σ × Sampled) : Quiet r.1 (tierResult r) := by
  obtain ⟨s,a⟩ := r
  cases a <;> exact ⟨rfl,rfl⟩

theorem shaveStep_quiet (E : Engine p σ) (o : Opts) (s : Search σ) :
    Quiet s (shaveStep E o s) := by
  unfold shaveStep
  extract_lets r
  split_ifs
  · exact ⟨rfl,rfl⟩
  · split
    case h_1 => exact ⟨rfl,rfl⟩
    case h_2 =>
      have h : ∀ t : Search σ, Quiet s t → Quiet s (tierResult (trySample E o false t)) :=
        fun t ht => ht.trans ((trySample_quiet E o false t).1.trans (tierResult_quiet _))
      exact h _ ⟨rfl,rfl⟩

theorem rootStep_quiet (E : Engine p σ) (o : Opts) (s : Search σ) : Quiet s (rootStep E o s) := by
  unfold rootStep
  extract_lets r
  split
  case h_1 => exact ⟨rfl,rfl⟩
  case h_2 =>
    split_ifs
    · exact ⟨rfl,rfl⟩
    · have h : ∀ t : Search σ, Quiet s t → Quiet s (shaveStep E o t) :=
        fun t ht => ht.trans (shaveStep_quiet E o t)
      exact h _ ⟨rfl,rfl⟩

/-- No value becomes kept, and a new level splits one that there was. -/
structure Keeps (s s' : Search σ) : Prop where
  keep : ∀ y w, s'.keep y = .set w → s.keep y = .set w
  levels : ∀ l ∈ s'.levels, l ∈ s.levels ∨ ∃ l' ∈ s.levels, l.saved = l'.saved ∧
    l.decision.varId = l'.decision.varId ∧ l.decision.isSplit = true

theorem Quiet.keeps {s' : Search σ} (h : Quiet s s') : Keeps s s' :=
  ⟨fun _ _ hy => h.keep ▸ hy,fun _ hl => .inl (h.levels ▸ hl)⟩

theorem Keeps.quiet {s₁ s₂ s₃ : Search σ} (h : Keeps s₁ s₂) (h' : Quiet s₂ s₃) : Keeps s₁ s₃ :=
  ⟨fun y w hy => h.keep y w (h'.keep ▸ hy),fun l hl => h.levels l (h'.levels ▸ hl)⟩

theorem resume_quiet (s : Search σ) (fresh : Bool) (r : σ × Option Dom) :
    Quiet s (resume s fresh r) := by
  obtain ⟨eng,d⟩ := r
  cases d <;> exact ⟨rfl,rfl⟩

theorem backtrack_keeps (E : Engine p σ) (s : Search σ) (n : ℕ) : Keeps s (backtrack E s n) := by
  unfold backtrack
  split
  case h_1 => exact ⟨fun _ _ h => h,fun _ h => .inl h⟩
  case h_2 l rest hdrop =>
    split_ifs
    · exact ⟨fun _ _ h => h,fun _ h => .inl h⟩
    · exact ⟨fun _ _ h => h,fun _ h =>
        .inl (List.mem_of_mem_drop (hdrop ▸ List.mem_cons_of_mem _ h))⟩

theorem backtrack_top {l : Level} {rest : List Level} (h : s.levels = l :: rest) :
    (backtrack E s (s.levels.length-1)).keep = s.keep ∧
      (backtrack E s (s.levels.length-1)).dom = l.saved ∧
      (backtrack E s (s.levels.length-1)).levels = rest := by
  unfold backtrack
  rw [h]
  simp

theorem redraw_keeps (o : Opts) (s : Search σ) (x : ℕ) (counted : Bool) :
    (∀ y w, (redraw o s x counted).2.keep y = .set w → s.keep y = .set w) ∧
      (redraw o s x counted).2.levels = s.levels := by
  unfold redraw
  extract_lets fails
  split_ifs
  · exact ⟨fun _ _ hy => hy,rfl⟩
  · exact ⟨fun _ _ hy => hy,rfl⟩
  · exact ⟨fun _ _ hy => setKeep_dead { s with fails := fails } rfl hy, (setKeep_frame _ x .dead).levels⟩

/-- A bisection pushes at most one level, at the domains it starts from. -/
theorem bisect_keeps (o : Opts) (p : Problem) (s : Search σ) (d : Decision) (counted : Bool) :
    (∀ y w, (bisect o p s d counted).1.keep y = .set w → s.keep y = .set w) ∧
      ∀ l ∈ (bisect o p s d counted).1.levels, (l.saved = s.dom ∧
        l.decision.varId = d.varId ∧ l.decision.isSplit = true) ∨ l ∈ s.levels := by
  have hsame : (∀ y w, s.keep y = .set w → s.keep y = .set w) ∧
      ∀ l ∈ s.levels, (l.saved = s.dom ∧ l.decision.varId = d.varId ∧
        l.decision.isSplit = true) ∨ l ∈ s.levels := ⟨fun _ _ h => h,fun _ h => .inr h⟩
  have hpush : ∀ d' : Decision, d'.varId = d.varId → d'.isSplit = true →
      ∀ l ∈ (⟨d',s.dom⟩ :: s.levels : List Level), (l.saved = s.dom ∧
        l.decision.varId = d.varId ∧ l.decision.isSplit = true) ∨ l ∈ s.levels := by
    intro d' hv hs l hl
    rcases List.mem_cons.mp hl with rfl | hl
    · exact .inl ⟨rfl,hv,hs⟩
    · exact .inr hl
  have hr := redraw_keeps o s d.varId counted
  unfold bisect
  extract_lets lo hi r u d'
  split
  case h_1 => exact hsame
  case h_2 => exact hsame
  case h_3 =>
    split_ifs
    all_goals
      first
      | exact hsame
      | exact ⟨fun _ _ h => h,hpush _ rfl ‹_›⟩
      | exact ⟨hr.1,fun l hl => .inr (hr.2 ▸ hl)⟩
      | exact ⟨hr.1,hpush _ rfl rfl⟩

theorem savePhase_quiet (o : Opts) (s : Search σ) (x : ℕ) (v : BitVec 64) :
    Quiet s (savePhase o s x v) := by
  unfold savePhase
  split_ifs <;> exact ⟨rfl,rfl⟩

theorem restart_keeps (E : Engine p σ) (o : Opts) (s : Search σ) : Keeps s (restart E o s) := by
  unfold restart
  extract_lets t r
  have ht : Keeps s t := (backtrack_keeps E s 0).quiet ⟨rfl,rfl⟩
  split
  case isTrue => exact ht.quiet ⟨rfl,rfl⟩
  case isFalse => split <;> exact ht.quiet ⟨rfl,rfl⟩

theorem chronological_keeps (E : Engine p σ) (o : Opts) (s : Search σ) (fresh : Bool) :
    Keeps s (chronological E o s fresh) := by
  unfold chronological
  split
  case h_1 => exact Quiet.keeps ⟨rfl,rfl⟩
  case h_2 l rest hcons =>
    extract_lets b r
    obtain ⟨hkeep,hdom,hlevels⟩ := backtrack_top (E:=E) hcons
    obtain ⟨hk,hl⟩ := bisect_keeps o p (backtrack E s (s.levels.length-1)) l.decision fresh
    have hb : Keeps s b.1 := by
      refine ⟨fun y w hy => hkeep ▸ hk y w hy,fun m hm => ?_⟩
      rcases hl m hm with ⟨hsaved,hvar,hsplit⟩ | hm
      · exact .inr ⟨l,hcons ▸ List.mem_cons_self,hsaved.trans hdom,hvar,hsplit⟩
      · rw [hlevels] at hm
        exact .inl (hcons ▸ List.mem_cons_of_mem _ hm)
    refine Keeps.quiet ?_ (resume_quiet _ _ _)
    split_ifs
    · exact hb.quiet (savePhase_quiet o _ _ _)
    · exact hb

theorem conflictStep_keeps (E : Engine p σ) (o : Opts) (s : Search σ) (fresh : Bool) :
    Keeps s (conflictStep E o s fresh) := by
  have hcongr : ∀ {t s' : Search σ}, t.keep = s.keep → t.levels = s.levels →
      Keeps t s' → Keeps s s' := fun hk hl h =>
    ⟨fun y w hy => hk ▸ h.keep y w hy,fun l hm => hl ▸ h.levels l hm⟩
  unfold conflictStep
  extract_lets t r
  split_ifs
  · exact Quiet.keeps ⟨rfl,rfl⟩
  · exact Quiet.keeps ⟨rfl,rfl⟩
  · exact hcongr (t:=t) rfl rfl (restart_keeps E o t)
  · split
    case h_1 bt _ =>
      refine hcongr rfl rfl (t:={ t with eng := r.1 }) ?_
      exact (backtrack_keeps E _ _).quiet (resume_quiet _ _ _)
    case h_2 =>
      exact hcongr (t:={ t with eng := r.1 }) rfl rfl (chronological_keeps E o _ fresh)

/-- What a decision on `x` may do: it kills kept values, pushes a level, and propagates
the value. -/
structure DecidesTo (E : Engine p σ) (o : Opts) (s : Search σ) (x : ℕ) (v : BitVec 64)
    (s' : Search σ) : Prop where
  keep : ∀ y w, s'.keep y = .set w → s.keep y = .set w
  levels : ∀ l ∈ s'.levels, l = ⟨⟨x,v,false,false,false,(boundDecision E o s x v).1⟩,s.dom⟩ ∨ l ∈ s.levels
  dom : s'.dom = s.dom ∨ ∃ d, assign p.vars s.dom x v (boundDecision E o s x v).1 = some d ∧
    (E.propagate s.eng d).2 = some s'.dom

theorem propagate_some {eng : σ} {d : Option Dom} {d' : Dom}
    (h : (propagate E eng d).2 = some d') :
    ∃ d₁, d = some d₁ ∧ (E.propagate eng d₁).2 = some d' := by
  cases d with
  | none => simp [propagate] at h
  | some d₁ => exact ⟨d₁,rfl,h⟩

theorem decideValue_spec (E : Engine p σ) (o : Opts) (s : Search σ) (x : ℕ) (v : BitVec 64) :
    DecidesTo E o s x v (decideValue E o s x v) := by
  unfold decideValue
  extract_lets b r a s₁ s₂ s₃
  have hpush : ∀ l ∈ s₂.levels, l = ⟨⟨x,v,false,false,false,b.1⟩,s.dom⟩ ∨ l ∈ s.levels :=
    fun l hl => List.mem_cons.mp hl
  split
  case isTrue =>
    have hf := setKeep_frame { s₁ with pc := .decide } x .dead
    exact ⟨fun _ _ hy => setKeep_dead { s₁ with pc := .decide } rfl hy,
      fun l hl => .inr (hf.levels ▸ hl),.inl hf.dom⟩
  case isFalse =>
    split
    case h_1 d hd => exact ⟨fun _ _ hy => hy,hpush,.inr (propagate_some hd)⟩
    case h_2 =>
      have hf := setKeep_frame s₂ x .dead
      split <;>
        exact ⟨fun _ _ hy => setKeep_dead s₂ rfl hy,fun l hl => hpush l (hf.levels ▸ hl), .inl hf.dom⟩

theorem decideVar_spec (E : Engine p σ) (o : Opts) (s : Search σ) (x : ℕ) :
    DecidesTo E o (pickValue E o s x).2 x (pickValue E o s x).1 (decideVar E o s x) := by
  unfold decideVar
  split
  case isTrue => exact ⟨fun _ _ hy => hy,fun _ hl => .inr hl,.inl rfl⟩
  case isFalse => exact decideValue_spec E o _ x _

def Decides (E : Engine p σ) (s : Search σ) (x : ℕ) : Prop :=
  s.pc = .decide ∧ E.stop s.eng = false ∧ (E.select s.eng s.dom s.rng).1 = some x

theorem setKeep_pc (s : Search σ) (x : ℕ) (k : Keep) : (setKeep s x k).pc = s.pc := by
  unfold setKeep
  split_ifs <;> rfl

theorem run_unmerged (E : Engine p σ) (o : Opts) (rng : BitVec 64) (eng : σ)
    (h : mergeDomains p = none) (n : ℕ) : (run E o rng eng n).pc = .done .unsat := by
  induction n with
  | zero => simp [Search.run,Search.start,h]
  | succ n ih =>
    simp only [Search.run,Function.iterate_succ_apply'] at ih ⊢
    rw [Search.step,ih]
    exact ih

end Search

namespace Problem

/-- Every distribution that meets its declared domain has its value in a range with a
weight. -/
def Respects (p : Problem) (a : ℕ → BitVec 64) : Prop :=
  ∀ d ∈ p.dists, Overlaps (p.vars d.varId) d.entries → InDist (p.vars d.varId) d.entries (a d.varId)

/-- A distribution is on a declared variable. -/
def WellFormed (p : Problem) : Prop :=
  ∀ d ∈ p.dists, d.varId < p.nVars ∧ Declared (p.vars d.varId)

end Problem

/-- `dvs_bb_result_t`, with the model. -/
inductive BbAnswer
  | sat (a : ℕ → BitVec 64)
  | unsat
  | unknown

structure SearchExact {σ : Type*} (p : Problem) (s : Search σ) : Prop where
  ok : s.pc = .done .ok → p.Solves (Search.value p s)
  unsat : s.pc = .done .unsat → ∀ a, ¬ p.Solves a

/-- Both engines respect the distributions, and one finds no solution exactly when the
other does. -/
structure Agree {σ : Type*} (p : Problem) (s : Search σ) (b : BbAnswer) : Prop where
  ok : s.pc = .done .ok → p.Respects (Search.value p s)
  sat : ∀ a, b = .sat a → p.Respects a
  unsat : s.pc = .done .ok ∨ s.pc = .done .unsat → b ≠ .unknown → (s.pc = .done .unsat ↔ b = .unsat)

variable {p : Problem}

def byte (hi : BitVec 32) : Variable := ⟨0#32,hi,(0#64,0#64),8,false,false,false,false⟩

def oneDist (hi : BitVec 32) (holds : (ℕ → BitVec 64) → Prop) : Problem where
  nVars := 1
  vars := fun _ => byte hi
  merged := []
  dists := [⟨0,[⟨1#64,3#64,1#32,true⟩]⟩]
  holds := holds

/-- An engine for one variable, with the given propagation. -/
def oneVar (hi : BitVec 32) (holds : (ℕ → BitVec 64) → Prop) (prop : Dom → Option Dom)
    (h : ∀ d d', prop d = some d' → d'.Within (oneDist hi holds).vars d) :
    Engine (oneDist hi holds) Unit where
  propagate := fun s d => (s,prop d)
  shave := fun s d => (s,some d)
  assertLearnt := fun s d => (s,some d)
  analyze := fun s _ => (s,none)
  undo := fun s _ => s
  select := fun _ d rng => (if d.Single 0 then none else some 0,rng)
  active := fun _ _ => false
  accept := fun s _ _ rng => ((s,rng),true)
  drawOther := fun _ _ rng lo _ => (lo,rng)
  sample := fun s _ _ rng => ((s,rng),.none)
  boxSkip := fun _ => false
  holes := fun _ _ => []
  stop := fun _ => false
  propagate_within := fun s d s' d' hp => h d d' (Prod.mk.inj hp).2
  select_none := by
    intro _ d _ hd x hx _
    have : x = 0 := by simpa [oneDist] using hx
    split_ifs at hd with hs
    rwa [this]
  sample_single := by simp

def plain : Opts := ⟨1#64,false,false,false,100,10000,0,300,true,true⟩

def pin (d : Dom) : Option Dom :=
  if !varBLt (byte 255#32) 47#64 (d 0).1 && !varBGt (byte 255#32) 47#64 (d 0).2 then
    some (Function.update d 0 (47#64,47#64))
  else none

end Dist
end DvSolve
