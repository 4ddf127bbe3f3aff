import DvSolve.CheckpointSem
import DvSolve.ClauseNotify
import DvSolve.CompileCmp

/-! A notification leaves no learnt clause false or unit.
Each bound change queues the clauses it may have made false or unit, so a clause that is
neither satisfied nor open twice is either still to be looked at or queued. A domain
shrinks with every clause that propagates, so the queue runs empty. -/
namespace DvSolve
namespace Solver
namespace Notify

open Function

variable {n id : ℕ} {t : Tighten} {b : BitVec 64} {vars vars' : ℕ → Variable} {l : Literal}
  {lits : List Literal} {db : ClauseDb} {s s' : Engine}
variable {u : Literal} {r : PropResult}

/-- A literal on one of the `n` variables that no number of its domain meets. -/
def Fails (n : ℕ) (vars : ℕ → Variable) (l : Literal) : Prop :=
  l.varId < n ∧ literalIsFalse vars l = true

/-- A literal that some numbers of its domain meet and others do not. -/
def Undecided (n : ℕ) (vars : ℕ → Variable) (l : Literal) : Prop :=
  l.varId < n ∧ literalIsFalse vars l = false ∧ literalIsTrue vars l = false

def AllFalse (n : ℕ) (vars : ℕ → Variable) (lits : List Literal) : Prop :=
  ∀ l ∈ lits, Fails n vars l

def UnitLeft (n : ℕ) (vars : ℕ → Variable) (lits : List Literal) : Prop :=
  ∃ l₁ l l₂, lits = l₁ ++ l :: l₂ ∧ Undecided n vars l ∧ ∀ m ∈ l₁ ++ l₂, Fails n vars m

def Calm (n : ℕ) (vars : ℕ → Variable) (lits : List Literal) : Prop :=
  ¬AllFalse n vars lits ∧ ¬UnitLeft n vars lits

/-- No clause is false and no unit clause is left unenforced. -/
def Quiescent (db : ClauseDb) (s : Engine) : Prop :=
  ∀ ci lits, db.clauses ci = some lits → Calm s.ctx.nVars s.ctx.vars lits

/-- The variables of the clauses have domains that are not empty. -/
def Standing (db : ClauseDb) (vars : ℕ → Variable) : Prop :=
  ∀ ci lits, db.clauses ci = some lits → ∀ l ∈ lits,
    (vars l.varId).Ok ∧ (vars l.varId).least ≤ (vars l.varId).most

theorem literalIsTrue_iff : literalIsTrue vars l = true ↔
    if l.isLb then varOrd (vars l.varId) l.bound ≤ (vars l.varId).least
    else (vars l.varId).most ≤ varOrd (vars l.varId) l.bound := by
  unfold literalIsTrue
  split_ifs
  · rw [Bool.not_eq_true',← Bool.not_eq_true,Solver.varBLt_iff,not_lt]
    rfl
  · rw [Bool.not_eq_true',← Bool.not_eq_true,varBGt_iff,not_lt]
    rfl

theorem literalIsFalse_iff : literalIsFalse vars l = true ↔
    if l.isLb then (vars l.varId).most < varOrd (vars l.varId) l.bound
    else varOrd (vars l.varId) l.bound < (vars l.varId).least := by
  unfold literalIsFalse
  split_ifs
  · exact Solver.varBLt_iff _ _ _
  · exact varBGt_iff _ _ _

theorem not_false_of_true (h : (vars l.varId).least ≤ (vars l.varId).most)
    (ht : literalIsTrue vars l = true) : literalIsFalse vars l = false := by
  rw [← Bool.not_eq_true,literalIsFalse_iff]
  rw [literalIsTrue_iff] at ht
  split_ifs at ht ⊢ <;> omega

theorem calm_of_met (hl : l ∈ lits) (h : (vars l.varId).least ≤ (vars l.varId).most)
    (hmet : n ≤ l.varId ∨ literalIsTrue vars l = true) : Calm n vars lits := by
  have hnot : ¬Fails n vars l := fun hf => by
    rcases hmet with hmet | hmet
    · exact absurd hf.1 (not_lt.mpr hmet)
    · exact absurd hf.2 (by simp [not_false_of_true h hmet])
  refine ⟨fun hall => hnot (hall l hl),?_⟩
  rintro ⟨l₁,u,l₂,rfl,hu,hrest⟩
  have hmem : l = u ∨ l ∈ l₁ ++ l₂ := by
    simp only [List.mem_append,List.mem_cons] at hl ⊢
    tauto
  rcases hmem with rfl | hmem
  · rcases hmet with hmet | hmet
    · exact absurd hu.1 (not_lt.mpr hmet)
    · exact absurd hu.2.2 (by simp [hmet])
  · exact hnot (hrest l hmem)

theorem calm_of_two (h : 2 ≤ (lits.filter fun l => !literalIsFalse vars l).length) :
    Calm n vars lits := by
  have hnil : ∀ ls : List Literal, (∀ m ∈ ls, Fails n vars m) →
      ls.filter (fun l => !literalIsFalse vars l) = [] := fun ls hls =>
    List.filter_eq_nil_iff.mpr fun m hm => by simp [(hls m hm).2]
  refine ⟨fun hall => ?_,?_⟩
  · rw [hnil lits hall] at h
    simp at h
  · rintro ⟨l₁,u,l₂,rfl,hu,hrest⟩
    rw [List.filter_append,List.filter_cons_of_pos (by simp [hu.2.1]),
      hnil l₁ fun m hm => hrest m (by simp [hm]),hnil l₂ fun m hm => hrest m (by simp [hm])] at h
    simp at h

/-- Domains of the same types that only shrank. -/
structure Narrower (vars vars' : ℕ → Variable) : Prop where
  same : ∀ v, SameType (vars v) (vars' v)
  least : ∀ v, (vars v).least ≤ (vars' v).least
  most : ∀ v, (vars' v).most ≤ (vars v).most

theorem Narrower.isTrue (h : Narrower vars vars') (ht : literalIsTrue vars l = true) :
    literalIsTrue vars' l = true := by
  have h1 := h.least l.varId
  have h2 := h.most l.varId
  rw [literalIsTrue_iff] at ht ⊢
  rw [(h.same _).varOrd]
  split_ifs at ht ⊢ <;> omega

theorem Narrower.isFalse (h : Narrower vars vars') (ht : literalIsFalse vars l = true) :
    literalIsFalse vars' l = true := by
  have h1 := h.least l.varId
  have h2 := h.most l.varId
  rw [literalIsFalse_iff] at ht ⊢
  rw [(h.same _).varOrd]
  split_ifs at ht ⊢ <;> omega

/-- A clause none of whose literals became false stays calm. -/
theorem Calm.narrow (h : Calm n vars lits) (hn : Narrower vars vars')
    (hkeep : ∀ l ∈ lits, literalIsFalse vars' l = true → literalIsFalse vars l = true) :
    Calm n vars' lits := by
  have hfails : ∀ l ∈ lits, Fails n vars' l → Fails n vars l := fun l hl hf =>
    ⟨hf.1,hkeep l hl hf.2⟩
  refine ⟨fun hall => h.1 fun l hl => hfails l hl (hall l hl),?_⟩
  rintro ⟨l₁,u,l₂,rfl,hu,hrest⟩
  refine h.2 ⟨l₁,u,l₂,rfl,⟨hu.1,?_,?_⟩,fun m hm => hfails m ?_ (hrest m hm)⟩
  · have hu := hu.2.1
    rw [← Bool.not_eq_true] at hu ⊢
    exact fun hf => hu (hn.isFalse hf)
  · have hu := hu.2.2
    rw [← Bool.not_eq_true] at hu ⊢
    exact fun hf => hu (hn.isTrue hf)
  · simp only [List.mem_append,List.mem_cons] at hm ⊢
    tauto

/-- How many numbers the domains of the first `n` variables hold. -/
def slack (n : ℕ) (vars : ℕ → Variable) : ℕ :=
  ∑ v ∈ Finset.range n, ((vars v).most-(vars v).least+1).toNat

theorem Narrower.slack_lt (h : Narrower vars vars') {v : ℕ} (hv : v < n)
    (hlive : (vars v).least ≤ (vars v).most)
    (hlt : (vars v).least < (vars' v).least ∨ (vars' v).most < (vars v).most) :
    slack n vars' < slack n vars := by
  refine Finset.sum_lt_sum (fun i _ => ?_) ⟨v,Finset.mem_range.mpr hv,?_⟩
  · have := h.least i
    have := h.most i
    omega
  · have := h.least v
    have := h.most v
    omega

theorem narrower_tightened (h : Tightened t id b vars .ok vars') : Narrower vars vars' := by
  cases h with
  | ok v' same ok least most live =>
    refine ⟨fun v => ?_,fun v => ?_,fun v => ?_⟩ <;> by_cases hv : v = id
    · subst hv
      rwa [update_self]
    · rw [update_of_ne hv]
      exact .refl _
    · subst hv
      rw [update_self,least]
      exact Tighten.least_le _ _ _
    · rw [update_of_ne hv]
    · subst hv
      rw [update_self,most]
      exact Tighten.le_most _ _ _
    · rw [update_of_ne hv]

theorem false_tightened (h : Tightened t id b vars .ok vars') (hl : ¬(l.varId = id ∧ l.isLb = t.isUb))
    (hf : literalIsFalse vars' l = true) : literalIsFalse vars l = true := by
  have hn := narrower_tightened h
  rw [literalIsFalse_iff,(hn.same _).varOrd] at hf
  rw [literalIsFalse_iff]
  cases h with
  | ok v' same ok least most live =>
    by_cases hid : l.varId = id
    · subst hid
      rw [update_self,least,most,Tighten.least,Tighten.most] at hf
      split_ifs at hf ⊢ <;> simp_all
    · rwa [update_of_ne hid] at hf

theorem standing_tightened (h : Tightened t id b vars .ok vars') (hs : Standing db vars) :
    Standing db vars' := by
  intro ci lits hc l hl
  obtain ⟨hok,hlive⟩ := hs ci lits hc l hl
  cases h with
  | ok v' same ok least most live =>
    by_cases hid : l.varId = id
    · subst hid
      rw [update_self]
      exact ⟨ok,live.elim (fun h => h ▸ hlive) fun h => h⟩
    · rw [update_of_ne hid]
      exact ⟨hok,hlive⟩

theorem ctxTighten_still (h : moves t (s.ctx.vars id) b = false) :
    ctxTighten t s.ctx id b = (.ok,s.ctx) := by
  unfold moves at h
  cases t <;>
    simp only [ctxTighten,ctxTightenLb32,ctxTightenUb32,ctxTightenLb64,ctxTightenUb64] at h ⊢ <;>
    simp_all

theorem tightenHeld_still (h : moves t (s.ctx.vars id) b = false) :
    tightenHeld s t id b = (.ok,s) := by
  unfold tightenHeld
  rw [ctxTighten_still h]
  simp [h]

theorem tightenHeld_nVars (s : Engine) (t : Tighten) (id : ℕ) (b : BitVec 64) :
    (tightenHeld s t id b).2.ctx.nVars = s.ctx.nVars := by
  rw [tightenHeld_ctx]
  exact (Op.run_tables (c:=s.ctx) (.tighten t id b)).nVars

/-- A clause that a tightening may have made false or unit is in the list of its event. -/
theorem watching_or_calm (hw : db.Watched) {ci : ℕ} (hc : db.clauses ci = some lits)
    (h : Calm n vars lits) (ht : Tightened t id b vars .ok vars') :
    (id < db.nWatchVars ∧ ci ∈ db.watching (id,t.isUb)) ∨ Calm n vars' lits := by
  by_cases hex : ∃ l ∈ lits, l.varId = id ∧ l.isLb = t.isUb
  · obtain ⟨l,hl,rfl,hub⟩ := hex
    rw [← hub]
    exact .inl ⟨hw.var ci lits hc l hl,hw.mem ci lits hc l hl⟩
  · exact .inr (h.narrow (narrower_tightened ht) fun l hl =>
      false_tightened ht fun he => hex ⟨l,hl,he⟩)

def queueing (db : ClauseDb) (p : List (ℕ × Bool)) (o : Bool) : ClauseDb :=
  { db with inNotify := true, pend := p, pendOver := o }

def Due (db : ClauseDb) (p : List (ℕ × Bool)) (o : Bool) (ci : ℕ) : Prop :=
  o = true ∨ ∃ e ∈ p, ci ∈ db.watching e

/-- A notification that runs, with the clauses `l` still to be looked at: every other
clause is calm or due. -/
structure Running (db : ClauseDb) (l : List ℕ) (p : List (ℕ × Bool)) (o : Bool) (s : Engine) :
    Prop where
  held : s.db = some (queueing db p o)
  standing : Standing db s.ctx.vars
  owed : ∀ ci lits, db.clauses ci = some lits → ci ∈ l ∨ Calm s.ctx.nVars s.ctx.vars lits ∨ Due db p o ci

theorem notifyHeld_db {p : List (ℕ × Bool)} {o ub : Bool} (h : s.db = some (queueing db p o)) :
    ∃ p' o', (notifyHeld s id ub).db = some (queueing db p' o') ∧ (o = true → o' = true) ∧
      p ⊆ p' ∧ (id < db.nWatchVars → o' = true ∨ (id,ub) ∈ p') := by
  unfold notifyHeld
  rw [h]
  dsimp only
  split_ifs with h1 h2
  · exact ⟨p,o,h,fun h => h,fun _ h => h,fun hid => absurd hid (not_lt.mpr h1)⟩
  · exact ⟨(id,ub) :: p,o,rfl,fun h => h,fun _ h => List.mem_cons_of_mem _ h,fun _ => .inr (by simp)⟩
  · exact ⟨p,true,rfl,fun _ => rfl,fun _ h => h,fun _ => .inl rfl⟩

theorem Due.mono {p p' : List (ℕ × Bool)} {o o' : Bool} {ci : ℕ} (h : Due db p o ci)
    (ho : o = true → o' = true) (hp : p ⊆ p') : Due db p' o' ci :=
  h.imp ho fun ⟨e,he,hci⟩ => ⟨e,hp he,hci⟩

theorem Running.tighten (hw : db.Watched) {l : List ℕ} {p : List (ℕ × Bool)} {o : Bool}
    (h : Running db l p o s) (hv : (s.ctx.vars id).Ok) (ht : t.Fits (s.ctx.vars id))
    (hr : (tightenHeld s t id b).1 = .ok) : ∃ p' o', Running db l p' o' (tightenHeld s t id b).2 := by
  cases hm : moves t (s.ctx.vars id) b
  · rw [tightenHeld_still hm]
    exact ⟨p,o,h⟩
  · have htight := tightenHeld_tightened (s:=s) t b hv ht
    rw [hr] at htight
    have hnv := tightenHeld_nVars s t id b
    have hdb : ∃ p' o', (tightenHeld s t id b).2.db = some (queueing db p' o') ∧
        (o = true → o' = true) ∧ p ⊆ p' ∧ (id < db.nWatchVars → o' = true ∨ (id,t.isUb) ∈ p') := by
      rw [tightenHeld_fst] at hr
      unfold tightenHeld
      rw [if_pos ⟨hm,hr⟩]
      exact notifyHeld_db h.held
    obtain ⟨p',o',hdb,ho,hp,hid⟩ := hdb
    refine ⟨p',o',hdb,standing_tightened htight h.standing,fun ci lits hc => ?_⟩
    rw [hnv]
    rcases h.owed ci lits hc with hci | hcalm | hdue
    · exact .inl hci
    · right
      rcases watching_or_calm hw hc hcalm htight with ⟨hlt,hmem⟩ | hcalm
      · exact .inr ((hid hlt).imp_right fun he => ⟨_,he,hmem⟩)
      · exact .inl hcalm
    · exact .inr (.inr (hdue.mono ho hp))

section Steps

variable {l : List ℕ} {p : List (ℕ × Bool)} {o : Bool} {ci : ℕ}

def room (s : Engine) : ℕ := slack s.ctx.nVars s.ctx.vars

structure Refuted (db : ClauseDb) (s : Engine) : Prop where
  held : ∃ p o, s.db = some (queueing db p o)
  clause : ∃ ci lits, db.clauses ci = some lits ∧ AllFalse s.ctx.nVars s.ctx.vars lits

/-- What a step of a notification with queue `p` leads to: it changed nothing, it shrank a
domain, or it met a false clause. -/
inductive Goes (db : ClauseDb) (l : List ℕ) (p : List (ℕ × Bool)) (o : Bool) (s : Engine) :
    PropResult → Engine → Prop
  | still (h : Running db l p o s) : Goes db l p o s .ok s
  | shrunk {p' : List (ℕ × Bool)} {o' : Bool} {s' : Engine} (h : Running db l p' o' s')
      (lt : room s' < room s) : Goes db l p o s .ok s'
  | refuted {s' : Engine} (h : Refuted db s') : Goes db l p o s .conflict s'

theorem Running.pass (h : Running db (ci :: l) p o s)
    (hcalm : ∀ lits, db.clauses ci = some lits → Calm s.ctx.nVars s.ctx.vars lits) :
    Running db l p o s where
  held := h.held
  standing := h.standing
  owed cj lits hc := by
    rcases h.owed cj lits hc with hci | hrest
    · rcases List.mem_cons.mp hci with rfl | hci
      · exact .inr (.inl (hcalm lits hc))
      · exact .inl hci
    · exact .inr hrest

theorem undecided_between (hu : Undecided n vars u) :
    if u.isLb then (vars u.varId).least < varOrd (vars u.varId) u.bound ∧
      varOrd (vars u.varId) u.bound ≤ (vars u.varId).most
    else varOrd (vars u.varId) u.bound < (vars u.varId).most ∧
      (vars u.varId).least ≤ varOrd (vars u.varId) u.bound := by
  have hf := hu.2.1
  have ht := hu.2.2
  rw [← Bool.not_eq_true,literalIsFalse_iff] at hf
  rw [← Bool.not_eq_true,literalIsTrue_iff] at ht
  split_ifs at hf ht ⊢ <;> omega

theorem enforced_tightened (ht : t = if u.isLb then .lb64 else .ub64) (hu : Undecided n vars u)
    (h : Tightened t u.varId u.bound vars r vars') :
    r = .ok ∧ literalIsTrue vars' u = true ∧ ((vars u.varId).least < (vars' u.varId).least ∨
      (vars' u.varId).most < (vars u.varId).most) := by
  have hb := undecided_between hu
  subst ht
  cases h with
  | ok v' same ok least most live =>
    refine ⟨rfl,?_⟩
    rw [literalIsTrue_iff,update_self,same.varOrd,least,most]
    cases hub : u.isLb <;>
      simp only [hub,Bool.false_eq_true,if_true,if_false,Tighten.least,Tighten.most,Tighten.isUb,
        Tighten.num] at hb ⊢ <;> omega
  | conflict _ out =>
    cases hub : u.isLb <;>
      simp only [hub,Bool.false_eq_true,if_true,if_false,Tighten.isUb,Tighten.num] at hb out <;> omega

theorem enforceUnit_goes (hw : db.Watched) (h : Running db (ci :: l) p o s)
    (hc : db.clauses ci = some lits) (hu : u ∈ lits) (hund : Undecided s.ctx.nVars s.ctx.vars u) :
    Goes db l p o s (enforceUnit s ci u).1 (enforceUnit s ci u).2.2 := by
  have htight : alreadyTight s.ctx.vars u = false := hund.2.2
  obtain ⟨t,ht⟩ : ∃ t, t = if u.isLb then Tighten.lb64 else Tighten.ub64 := ⟨_,rfl⟩
  unfold enforceUnit
  rw [htight,← ht]
  rw [if_neg (by simp)]
  set s₁ := s.withReason (some ci) (s.ctx.currentFlags ||| flagFromClause) with hs₁
  have h₁ : Running db (ci :: l) p o s₁ := ⟨h.held,h.standing,h.owed⟩
  obtain ⟨hok,hlive⟩ := h.standing ci lits hc u hu
  have hfits : t.Fits (s₁.ctx.vars u.varId) := by
    rw [ht]
    cases u.isLb <;> exact trivial
  have htd := tightenHeld_tightened (s:=s₁) t u.bound hok hfits
  obtain ⟨hr,htrue,hlt⟩ := enforced_tightened ht hund htd
  obtain ⟨p',o',h₂⟩ := h₁.tighten hw hok hfits hr
  have hnv := tightenHeld_nVars s₁ t u.varId u.bound
  set r := tightenHeld s₁ t u.varId u.bound with hr'
  rw [hr] at htd ⊢
  have h₃ : Running db l p' o' r.2 := h₂.pass fun lits' hc' => by
    obtain rfl : lits = lits' := Option.some.inj (hc.symm.trans hc')
    exact calm_of_met hu (h₂.standing ci lits hc u hu).2 (.inr htrue)
  have h₄ : Running db l p' o' (r.2.withReason s.ctx.currentPropRef s.ctx.currentFlags) :=
    ⟨h₃.held,h₃.standing,h₃.owed⟩
  refine .shrunk h₄ ?_
  change slack r.2.ctx.nVars r.2.ctx.vars < slack s.ctx.nVars s.ctx.vars
  rw [hnv]
  exact (narrower_tightened htd).slack_lt hund.1 hlive hlt

theorem visitClause_goes (hw : db.Watched) (h : Running db (ci :: l) p o s) :
    Goes db l p o s (visitClause s ci).1 (visitClause s ci).2.2 := by
  have hbind : (s.db.bind fun db => db.clauses ci) = db.clauses ci := by
    rw [h.held]
    rfl
  unfold visitClause
  rw [hbind]
  cases hc : db.clauses ci with
  | none => exact .still (h.pass fun lits hl => by simp [hc] at hl)
  | some lits =>
    have hpass : Calm s.ctx.nVars s.ctx.vars lits → Running db l p o s := fun hcalm =>
      h.pass fun lits' hl => by
        obtain rfl : lits = lits' := Option.some.inj (hc.symm.trans hl)
        exact hcalm
    dsimp only
    rw [if_neg (hw.ne ci lits hc)]
    split_ifs with hmet
    · simp only [List.any_eq_true,Bool.or_eq_true,decide_eq_true_eq] at hmet
      obtain ⟨m,hm,hmet⟩ := hmet
      exact .still (hpass (calm_of_met hm (h.standing ci lits hc m hm).2 hmet))
    · simp only [List.any_eq_true,Bool.or_eq_true,decide_eq_true_eq,not_exists,not_and,not_or,
        not_le,Bool.not_eq_true] at hmet
      split
      · rename_i hnil
        have hfalse : ∀ m ∈ lits, literalIsFalse s.ctx.vars m = true := fun m hm => by
          simpa using List.filter_eq_nil_iff.mp hnil m hm
        exact .refuted ⟨⟨p,o,h.held⟩,ci,lits,hc,fun m hm => ⟨(hmet m hm).1,hfalse m hm⟩⟩
      · rename_i u hone
        have hu : u ∈ lits.filter fun l => !literalIsFalse s.ctx.vars l := by simp [hone]
        rw [List.mem_filter] at hu
        exact enforceUnit_goes hw h hc hu.1 ⟨(hmet u hu.1).1,by simpa using hu.2,(hmet u hu.1).2⟩
      · rename_i hnil hone
        refine .still (hpass (calm_of_two ?_))
        match hl : lits.filter fun l => !literalIsFalse s.ctx.vars l with
        | [] => exact absurd hl hnil
        | [u] => exact absurd hl (hone u)
        | _ :: _ :: _ => simp

theorem Running.widen (h : Running db [] p o s) (l : List ℕ) : Running db l p o s where
  held := h.held
  standing := h.standing
  owed ci lits hc := .inr ((h.owed ci lits hc).resolve_left (by simp))

theorem Goes.after {p' : List (ℕ × Bool)} {o' : Bool} {s'' : Engine} (h : Goes db l p' o' s' r s'')
    (hlt : room s' < room s) : Goes db l p o s r s'' := by
  cases h with
  | still h => exact .shrunk h hlt
  | shrunk h lt => exact .shrunk h (lt.trans hlt)
  | refuted h => exact .refuted h

theorem checkWatch_goes (hw : db.Watched) (h : Running db l p o s) :
    Goes db [] p o s (checkWatch l s).1 (checkWatch l s).2 := by
  induction l generalizing p o s with
  | nil => exact .still h
  | cons ci l ih =>
    have hv := visitClause_goes hw h
    unfold checkWatch checkClause
    generalize visitClause s ci = r at hv ⊢
    obtain ⟨res,flag,s'⟩ := r
    cases hv with
    | still h' => exact ih h'
    | shrunk h' lt => exact (ih h').after lt
    | refuted h' => exact .refuted h'

theorem scanClauses_goes (hw : db.Watched) (changed : Bool) (h : Running db l p o s) :
    Goes db [] p o s (scanClauses l changed s).1 (scanClauses l changed s).2.2 := by
  induction l generalizing p o s changed with
  | nil => exact .still h
  | cons ci l ih =>
    have hv := visitClause_goes hw h
    unfold scanClauses
    generalize visitClause s ci = r at hv ⊢
    obtain ⟨res,flag,s'⟩ := r
    cases hv with
    | still h' => exact ih _ h'
    | shrunk h' lt => exact (ih _ h').after lt
    | refuted h' => exact .refuted h'

theorem pass_goes (hw : db.Watched) {k : ℕ}
    (hk : ∀ {p o s}, Running db [] p o s →
      Goes db [] p o s (clausePropagate k s).1 (clausePropagate k s).2)
    (h : Running db (List.range db.nClauses) p o s) :
    Goes db [] p o s (clausePropagate (k+1) s).1 (clausePropagate (k+1) s).2 := by
  have hn : s.nClauses = db.nClauses := by
    unfold Engine.nClauses
    rw [h.held]
    rfl
  have hscan := scanClauses_goes hw false h
  unfold clausePropagate
  rw [hn]
  generalize scanClauses (List.range db.nClauses) false s = r at hscan ⊢
  obtain ⟨res,flag,s'⟩ := r
  cases hscan with
  | still h' =>
    cases flag
    · exact .still h'
    · exact hk h'
  | shrunk h' lt =>
    cases flag
    · exact .shrunk h' lt
    · exact (hk h').after lt
  | refuted h' => exact .refuted h'

theorem clausePropagate_goes (hw : db.Watched) (k : ℕ) (h : Running db [] p o s) :
    Goes db [] p o s (clausePropagate k s).1 (clausePropagate k s).2 := by
  induction k generalizing p o s with
  | zero => exact .still h
  | succ k ih => exact pass_goes hw ih (h.widen _)

/-- How a notification ends: the queue is empty, and no clause is false or unit unless it
conflicts, which it does on a false clause. -/
structure Ended (db : ClauseDb) (r : PropResult) (s : Engine) : Prop where
  released : s.db = some db
  conflict : r = .conflict → ∃ ci lits, db.clauses ci = some lits ∧ AllFalse s.ctx.nVars s.ctx.vars lits
  calm : r ≠ .conflict → Standing db s.ctx.vars ∧ Quiescent db s

theorem endNotify_released (hi : db.Idle) (h : s.db = some (queueing db p o)) :
    endNotify s = { s with db := some db } := by
  obtain ⟨h1,h2,h3⟩ := hi
  cases db
  subst h1 h2 h3
  unfold endNotify
  rw [h]
  rfl

theorem drain_refuted (hi : db.Idle) (h : Refuted db s) (k : ℕ) :
    drain (k+1) .conflict s = some (.conflict,endNotify s) ∧ Ended db .conflict (endNotify s) := by
  obtain ⟨⟨p,o,hdb⟩,hfalse⟩ := h
  constructor
  · unfold drain
    rw [hdb]
    simp
  · rw [endNotify_released hi hdb]
    exact ⟨rfl,fun _ => hfalse,fun h => absurd rfl h⟩

theorem drain_pop {v k : ℕ} {ub : Bool} (h : s.db = some (queueing db ((v,ub) :: p) o)) :
    drain (k+1) .ok s = drain k
      (checkWatch (db.watching (v,ub)) { s with db := some (queueing db p o) }).1
      (checkWatch (db.watching (v,ub)) { s with db := some (queueing db p o) }).2 := by
  conv_lhs => unfold drain
  rw [h]
  rfl

theorem drain_rescan {k : ℕ} (h : s.db = some (queueing db [] true)) :
    drain (k+1) .ok s = drain k
      (clausePropagate maxIters { s with db := some (queueing db [] false) }).1
      (clausePropagate maxIters { s with db := some (queueing db [] false) }).2 := by
  conv_lhs => unfold drain
  rw [h]
  rfl

theorem drain_empty {k : ℕ} (h : s.db = some (queueing db [] false)) :
    drain (k+1) .ok s = some (.ok,endNotify s) := by
  unfold drain
  rw [h]
  rfl

def Drains (db : ClauseDb) (res : PropResult) (s : Engine) : Prop :=
  ∃ N r s', (∀ k ≥ N, drain k res s = some (r,s')) ∧ Ended db r s'

theorem Drains.step {res res' : PropResult} (h : Drains db res' s')
    (hs : ∀ k, drain (k+1) res s = drain k res' s') : Drains db res s := by
  obtain ⟨N,r,s'',hr,hend⟩ := h
  refine ⟨N+1,r,s'',fun k hk => ?_,hend⟩
  obtain ⟨k,rfl⟩ : ∃ k', k = k'+1 := ⟨k-1,by omega⟩
  rw [hs k]
  exact hr k (by omega)

theorem Refuted.drains (hi : db.Idle) (h : Refuted db s) : Drains db .conflict s :=
  ⟨1,_,_,fun k hk => by
    obtain ⟨k,rfl⟩ : ∃ k', k = k'+1 := ⟨k-1,by omega⟩
    exact (drain_refuted hi h k).1,(drain_refuted hi h 0).2⟩

theorem Running.drains (hw : db.Watched) (hi : db.Idle) (h : Running db [] p o s) :
    Drains db .ok s := by
  -- the domains shrink, or the queue does
  induction hm : room s using Nat.strong_induction_on generalizing p o s with
  | _ m ihm =>
  induction hq : p.length+o.toNat using Nat.strong_induction_on generalizing p o s with
  | _ q ihq =>
  have hgo : ∀ {p' o' s₁ r s₂}, Goes db [] p' o' s₁ r s₂ → room s₁ = room s →
      p'.length+o'.toNat < q → Drains db r s₂ := by
    intro p' o' s₁ r s₂ hg hroom hlt
    cases hg with
    | still h' => exact ihq _ hlt h' (hroom.trans hm) rfl
    | shrunk h' lt => exact ihm _ (by omega) h' rfl
    | refuted h' => exact h'.drains hi
  match hp : p,ho : o with
  | (v,ub) :: rest,o =>
    have hrun : Running db (db.watching (v,ub)) rest o { s with db := some (queueing db rest o) } := by
      refine ⟨rfl,h.standing,fun ci lits hc => ?_⟩
      rcases h.owed ci lits hc with hci | hcalm | ho | ⟨e,he,hci⟩
      · simp at hci
      · exact .inr (.inl hcalm)
      · exact .inr (.inr (.inl ho))
      · rcases List.mem_cons.mp he with rfl | he
        · exact .inl hci
        · exact .inr (.inr (.inr ⟨e,he,hci⟩))
    refine (hgo (checkWatch_goes hw hrun) rfl ?_).step fun k => drain_pop h.held
    simp [← hq]
  | [],true =>
    have hrun : Running db (List.range db.nClauses) [] false
        { s with db := some (queueing db [] false) } :=
      ⟨rfl,h.standing,fun ci lits hc => .inl (List.mem_range.mpr (hw.lt ci lits hc))⟩
    refine (hgo (pass_goes hw (clausePropagate_goes hw _) hrun) rfl ?_).step fun k =>
      drain_rescan h.held
    simp [← hq]
  | [],false =>
    refine ⟨1,.ok,endNotify s,fun k hk => ?_,?_⟩
    · obtain ⟨k,rfl⟩ : ∃ k', k = k'+1 := ⟨k-1,by omega⟩
      exact drain_empty h.held
    · rw [endNotify_released hi h.held]
      refine ⟨rfl,by simp,fun _ => ⟨h.standing,fun ci lits hc => ?_⟩⟩
      rcases h.owed ci lits hc with hci | hcalm | ho | ⟨e,he,hci⟩
      · simp at hci
      · exact hcalm
      · simp at ho
      · simp at he

/-- A call that ends, on `db` as it was: it conflicts only on a false clause or for
another reason, and leaves no clause false or unit otherwise. -/
def Settles (db : ClauseDb) (reason : Prop) (run : ℕ → Option (PropResult × Engine)) : Prop :=
  ∃ N r s', (∀ k ≥ N, run k = some (r,s')) ∧ s'.db = some db ∧
    (r = .conflict → reason ∨ ∃ ci lits, db.clauses ci = some lits ∧
      AllFalse s'.ctx.nVars s'.ctx.vars lits) ∧
    (r ≠ .conflict → Standing db s'.ctx.vars ∧ Quiescent db s')

theorem Drains.settles {res : PropResult} (h : Drains db res s) (reason : Prop) :
    Settles db reason fun k => drain k res s := by
  obtain ⟨N,r,s',hr,hend⟩ := h
  exact ⟨N,r,s',hr,hend.released,fun hc => .inr (hend.conflict hc),hend.calm⟩

theorem Goes.drains (hw : db.Watched) (hi : db.Idle) (h : Goes db [] p o s r s') :
    Drains db r s' := by
  cases h with
  | still h => exact h.drains hw hi
  | shrunk h _ => exact h.drains hw hi
  | refuted h => exact h.drains hi

theorem queueing_idle (hi : db.Idle) : { db with inNotify := true } = queueing db [] false := by
  obtain ⟨h1,h2,h3⟩ := hi
  cases db
  subst h2 h3
  rfl

theorem ctxTightenNotify_settles (hb : Built db) (hdb : s.db = some db)
    (hs : Standing db s.ctx.vars) (hq : Quiescent db s) (hv : (s.ctx.vars id).Ok)
    (ht : t.Fits (s.ctx.vars id)) :
    Settles db (∀ x ∈ (s.ctx.vars id).dom, ¬t.Asks (t.num (s.ctx.vars id) b) x)
      fun k => ctxTightenNotify k s t id b := by
  have hw := hb.watched
  have hi := hb.idle
  have htight := tightenHeld_tightened (s:=s) t b hv ht
  have hnv := tightenHeld_nVars s t id b
  rw [tightenHeld_fst,tightenHeld_ctx] at htight
  rw [tightenHeld_ctx] at hnv
  unfold ctxTightenNotify
  cases hm : moves t (s.ctx.vars id) b
  · rw [ctxTighten_still hm]
    exact ⟨0,_,_,fun k _ => if_neg (by simp),hdb,by simp,fun _ => ⟨hs,hq⟩⟩
  generalize hr : ctxTighten t s.ctx id b = r at htight hnv ⊢
  obtain ⟨res,c⟩ := r
  cases res with
  | conflict =>
    exact ⟨0,_,_,fun k _ => if_neg (by simp),hdb,fun _ => .inl (htight.dom.1 rfl),by simp⟩
  | entailed => cases htight
  | ok =>
    have hs' : Standing db c.vars := standing_tightened htight hs
    have hcalm : ∀ ci lits, db.clauses ci = some lits →
        (id < db.nWatchVars ∧ ci ∈ db.watching (id,t.isUb)) ∨ Calm c.nVars c.vars lits := by
      intro ci lits hc
      rw [hnv]
      exact watching_or_calm hw hc (hq ci lits hc) htight
    simp only [and_self,if_true,clauseNotify,hdb,hi.inNotify,Bool.false_eq_true,if_false]
    by_cases hid : id ≥ db.nWatchVars
    · simp only [hid,if_true]
      refine ⟨0,_,_,fun k _ => rfl,rfl,by simp,fun _ => ⟨hs',fun ci lits hc => ?_⟩⟩
      exact (hcalm ci lits hc).resolve_left fun h => absurd h.1 (not_lt.mpr hid)
    · simp only [hid,if_false]
      rw [queueing_idle hi]
      have hrun : Running db (db.watching (id,t.isUb)) [] false
          { s with ctx := c, db := some (queueing db [] false) } :=
        ⟨rfl,hs',fun ci lits hc => (hcalm ci lits hc).imp And.right .inl⟩
      exact ((checkWatch_goes hw hrun).drains hw hi).settles _

theorem Running.fire (hw : db.Watched) {W : ℕ → Prop} {f : Fire} (h : Running db [] p o s)
    (hf : f.Within W) (hwp : f.wp (fun _ _ => True) s.ctx.vars) :
    (∃ p' o', (f.run s).2.db = some (queueing db p' o')) ∧
      ((f.run s).1 ≠ .conflict → ∃ p' o', Running db [] p' o' (f.run s).2) := by
  induction f generalizing p o s with
  | done r => exact ⟨⟨p,o,h.held⟩,fun _ => ⟨p,o,h⟩⟩
  | read v k ih => exact ih _ h (hf.2 _) hwp
  | tighten t v b k ih =>
    obtain ⟨_,hk,hf⟩ := hf
    obtain ⟨hv,ht,hwp⟩ := hwp
    have htight := tightenHeld_tightened (s:=s) t b hv ht
    unfold Fire.run
    cases hr : (tightenHeld s t v b).1 with
    | ok =>
      obtain ⟨p',o',h'⟩ := h.tighten hw hv ht hr
      exact ih _ h' (hf _) (hwp _ _ (hr ▸ htight))
    | entailed =>
      rw [hr] at htight
      cases htight
    | conflict =>
      rw [hk]
      refine ⟨⟨p,o,?_⟩,by simp [Fire.run]⟩
      rw [tightenHeld_fst] at hr
      simp only [Fire.run,tightenHeld,hr]
      simpa using h.held

def fired (s : Engine) (ref : ℕ) : PropResult × Engine :=
  (s.ctx.props ref).fire.run ((clauseNotifyHold s).2.setReason (some ref))

theorem fireHeld_settles (hb : Built db) (hdb : s.db = some db) (hs : Standing db s.ctx.vars)
    (hq : Quiescent db s) {W : ℕ → Prop} {ref : ℕ} (hf : (s.ctx.props ref).fire.Within W)
    (hwp : (s.ctx.props ref).fire.wp (fun _ _ => True) s.ctx.vars) :
    Settles db ((fired s ref).1 = .conflict) fun k => fireHeld k s ref := by
  have hw := hb.watched
  have hi := hb.idle
  have hhold : clauseNotifyHold s = (true,{ s with db := some (queueing db [] false) }) := by
    unfold clauseNotifyHold
    simp only [hdb,hi.inNotify,Bool.false_eq_true,if_false]
    rw [queueing_idle hi]
  unfold fireHeld fired
  rw [hhold]
  dsimp only
  set s₁ := Engine.setReason { s with db := some (queueing db [] false) } (some ref) with hs₁
  have h₁ : Running db [] [] false s₁ := ⟨rfl,hs,fun ci lits hc => .inr (.inl (hq ci lits hc))⟩
  obtain ⟨⟨p,o,hheld⟩,hrun⟩ := h₁.fire hw hf hwp
  generalize (s.ctx.props ref).fire.run s₁ = r at hheld hrun ⊢
  obtain ⟨res,s₂⟩ := r
  by_cases hres : res = .conflict
  · subst hres
    refine ⟨0,.conflict,endNotify (s₂.setReason none),fun k _ => by simp [clauseNotifyRelease],?_,
      fun _ => .inl rfl,by simp⟩
    rw [endNotify_released (s:=s₂.setReason none) hi hheld]
  · obtain ⟨p',o',h₂⟩ := hrun hres
    have h₃ : Running db [] p' o' (s₂.setReason none) := ⟨h₂.held,h₂.standing,h₂.owed⟩
    obtain ⟨N,r,s',hr,hend⟩ := h₃.drains hw hi
    refine ⟨N,if r = .conflict then .conflict else res,s',fun k hk => ?_,hend.released,
      fun hc => .inr (hend.conflict ?_),fun hc => hend.calm fun h => hc (if_pos h)⟩
    · simp [clauseNotifyRelease,hres,hr k hk]
    · by_contra h
      rw [if_neg h] at hc
      exact hres hc

end Steps

/-- Notifications of learnt clauses, for a bound change outside a fire and for the changes
of a fire that is held: whatever clauses propagate in turn, the call ends, it conflicts
only where a domain becomes empty, the fire conflicts or a clause is false, and after it no
clause is false and no unit clause is left. -/
theorem notification_settles {db : ClauseDb} {s : Engine} (hb : Built db) (hdb : s.db = some db)
    (hs : Standing db s.ctx.vars) (hq : Quiescent db s) :
    (∀ t id b, (s.ctx.vars id).Ok → t.Fits (s.ctx.vars id) →
      Settles db (∀ x ∈ (s.ctx.vars id).dom, ¬t.Asks (t.num (s.ctx.vars id) b) x)
        fun k => ctxTightenNotify k s t id b) ∧
    (∀ ref (W : ℕ → Prop), (s.ctx.props ref).fire.Within W →
      (s.ctx.props ref).fire.wp (fun _ _ => True) s.ctx.vars →
      Settles db ((fired s ref).1 = .conflict) fun k => fireHeld k s ref) :=
  ⟨fun _ _ _ hv ht => ctxTightenNotify_settles hb hdb hs hq hv ht,
    fun _ _ hf hwp => fireHeld_settles hb hdb hs hq hf hwp⟩

def pairClause : List Literal := [⟨0,false,0#64⟩,⟨1,true,1#64⟩]

def pairDb : ClauseDb := (clauseDbAdd ⟨true,true,fun _ => true⟩ (clauseDbInit 2) pairClause).2

def raiseFire : Fire := .tighten .lb64 0 1#64 fun r => .done r

def pairEngine : Engine where
  ctx := twoProps (0#32,3#32) (0#32,3#32) raiseFire raiseFire fun _ => []
  db := some pairDb
  aborted := false
  conflictProp := none
  conflictClause := none
  fires := 0
  ticks := 0

theorem pairDb_built : Built pairDb :=
  .add (.init 2) _ _ (fun _ _ => rfl) (by decide)

theorem pairDb_clause {ci : ℕ} {lits : List Literal} (h : pairDb.clauses ci = some lits) :
    lits = pairClause := by
  change Function.update (fun _ => none) 0 (some pairClause) ci = some lits at h
  by_cases hci : ci = 0
  · subst hci
    rw [update_self] at h
    exact (Option.some.inj h).symm
  · rw [update_of_ne hci] at h
    cases h

theorem pairEngine_ok (v : ℕ) : (pairEngine.ctx.vars v).Ok ∧
    (pairEngine.ctx.vars v).least ≤ (pairEngine.ctx.vars v).most := by
  by_cases hv : v = 0 <;>
    simp only [pairEngine,twoProps,hv,if_true,if_false] <;>
    exact ⟨⟨by decide,by decide,by decide,by decide,by decide,by decide,by decide⟩,by decide⟩

theorem notification_settles_pair :
    Settles pairDb (∀ x ∈ (pairEngine.ctx.vars 0).dom, ¬Tighten.lb64.Asks
        (Tighten.lb64.num (pairEngine.ctx.vars 0) 1#64) x)
      (fun k => ctxTightenNotify k pairEngine .lb64 0 1#64) ∧
    Settles pairDb ((fired pairEngine 0).1 = .conflict) fun k => fireHeld k pairEngine 0 := by
  have hquiet : Quiescent pairDb pairEngine := fun ci lits hc => by
    rw [pairDb_clause hc]
    exact calm_of_two (by decide)
  have hstand : Standing pairDb pairEngine.ctx.vars := fun _ _ _ l _ => pairEngine_ok l.varId
  have h := notification_settles pairDb_built (s:=pairEngine) rfl hstand hquiet
  exact ⟨h.1 .lb64 0 1#64 (pairEngine_ok 0).1 trivial,h.2 0 (fun _ => True) ⟨trivial,rfl,fun _ => trivial⟩
      ⟨(pairEngine_ok 0).1,trivial,fun _ _ _ => trivial⟩⟩

end Notify
end Solver
end DvSolve
