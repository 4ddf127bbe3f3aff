import DvSolve.ClauseNotifySem
import DvSolve.QueueRun
import DvSolve.TrailRoom

/-! What a propagation leaves behind.
Whatever it ends in, backtracking to a level pushed before it goes on as before. When it does
not conflict it has narrowed domains and emptied none. -/
namespace DvSolve
namespace Solver

variable {c c' : Ctx} {s s' : Engine} {vars vars' : ℕ → Variable}
variable {ref : ℕ} {t : Tighten} {b : BitVec 64} {r : PropResult} {overBudget : Engine → Bool}

/-- Reached from `c₀` by steps that a backtrack undoes, with the fire functions of `c₀`. -/
structure Reached (c₀ c : Ctx) : Prop where
  recovers : ∃ marks, Recovers marks c₀ c
  pool : c.poolTop = c₀.poolTop
  fires : ∀ r, (c.props r).fire = (c₀.props r).fire

namespace Reached

variable {c₀ : Ctx}

theorem refl (h : c₀.Ok) : Reached c₀ c₀ := ⟨⟨[],.refl h⟩,rfl,fun _ => rfl⟩

theorem ok (h : Reached c₀ c) : c.Ok := by
  obtain ⟨_,h⟩ := h.recovers
  exact h.ok

theorem next (h : Reached c₀ c) {marks : List ℕ} (hr : Recovers marks c c')
    (hp : c'.poolTop = c.poolTop) (hf : ∀ r, (c'.props r).fire = (c.props r).fire) :
    Reached c₀ c' := by
  obtain ⟨m,hm⟩ := h.recovers
  exact ⟨⟨_,hm.trans hr⟩,hp.trans h.pool,fun r => (hf r).trans (h.fires r)⟩

theorem quiet (h : Reached c₀ c) (hq : QuietOk c c') (hf : ∀ r, (c'.props r).fire = (c.props r).fire) :
    Reached c₀ c' := by
  refine h.next (.quiet hq) ?_ hf
  rw [hq.1.rest]

theorem propEnqueue (h : Reached c₀ c) (hr : ref < c.poolTop) :
    Reached c₀ (propEnqueue c ref) := by
  obtain ⟨q,hq⟩ := h.ok.queue
  exact h.quiet (propEnqueue_quiet h.ok hr) fun r =>
    (propEnqueue_step hq ref).static.fire r

theorem waking : Waking (Reached c₀) := by
  refine ⟨fun h hk => h.propEnqueue (hk.elim (fun hv => h.ok.watchers _ _ hv.choose_spec) fun hi =>
    h.ok.refs _ _ hi.choose_spec),fun _ _ h => ?_,fun _ h => ?_⟩
  all_goals
    obtain ⟨q,hq⟩ := h.ok.queue
    exact h.quiet (Quiet.ok ⟨rfl,fun _ => rfl⟩ h.ok ⟨q,hq.congr rfl rfl fun _ => ⟨rfl,rfl,rfl⟩⟩)
      fun _ => rfl

theorem ctxTighten (h : Reached c₀ c) (t : Tighten) (id : ℕ) (b : BitVec 64) :
    Reached c₀ (ctxTighten t c id b).2 := by
  refine waking.ctxTighten h (fun k new => ?_) t b
  have hrec := Recovers.trailRecord h.ok k id new
  rcases trailRecord_cases k c id new with hr | ⟨v,e,_,_,hr⟩
  · rwa [hr]
  · exact h.next hrec (by rw [hr]; rfl) fun r => by rw [hr]; rfl

theorem reason (h : Reached c₀ c) (ref : Option ℕ) (flags : ℕ) :
    Reached c₀ { c with currentPropRef := ref, currentFlags := flags } :=
  h.next (.op (o:=.setReason ref flags) h.ok trivial) rfl fun _ => rfl

theorem mark (h : Reached c₀ c) (ref : ℕ) : Reached c₀ (trailMarkEntailed c ref) := by
  refine h.next (.op (o:=.markEntailed ref) h.ok trivial) rfl fun r => ?_
  by_cases hr : r = ref
  · subst hr
    simp [trailMarkEntailed,Ctx.setProp]
  · simp [trailMarkEntailed,Ctx.setProp,hr]

theorem dequeue (h : Reached c₀ c) (hd : dequeue c = some (ref,c')) :
    ref < c₀.poolTop ∧ Reached c₀ c' := by
  have hlist : Enlisted c₀.poolTop c := by
    refine ⟨h.ok.queue,h.pool,?_,?_,?_⟩ <;> rw [← h.pool]
    · exact h.ok.priority
    · exact h.ok.watchers
    · exact h.ok.refs
  obtain ⟨hlt,hok⟩ := hlist.dequeue hd
  obtain ⟨q,hq⟩ := h.ok.queue
  have hmask : c.queue.nonEmptyMask ≠ 0 := by
    intro h0
    have hnone : (List.range nLevels).find? (fun l => c.queue.nonEmptyMask.testBit l) = none := by
      simp [h0]
    simp [Solver.dequeue,hnone] at hd
  obtain ⟨lvl,ref',rest,_,_,hdeq⟩ := dequeue_ok hq hmask
  obtain ⟨rfl,rfl⟩ : ref' = ref ∧ takeHead c lvl ref' = c' := by simpa [hdeq] using hd
  have hstep := takeHead_step c lvl ref'
  exact ⟨hlt,h.quiet (hstep.quiet.ok h.ok hok.queue) fun r => hstep.static.fire r⟩

theorem steady (c₀ : Ctx) : Steady c₀.poolTop (Reached c₀) where
  tighten _ t id b h := h.ctxTighten t id b
  reason _ ref flags h := h.reason ref flags
  mark _ ref _ h := h.mark ref
  enqueue _ _ hr h := h.propEnqueue (h.pool.symm ▸ hr)
  take _ _ _ hd h := h.dequeue hd

end Reached

/-- Bounds, level and trail are those of `c`; the queue may be empty and the mask rebuilt. -/
structure Unwound (c d : Ctx) : Prop where
  ok : d.Ok
  vars : d.vars = c.vars
  level : d.decisionLevel = c.decisionLevel
  dynamic : d.dynamic = c.dynamic
  trailTop : d.trailTop = c.trailTop
  trailCount : d.trailCount = c.trailCount
  entailTop : d.entailTop = c.entailTop
  marks : ∀ l < c.decisionLevel, d.levelMarks l = c.levelMarks l
  fires : ∀ r, (d.props r).fire = (c.props r).fire

theorem Unwound.refl (h : c.Ok) : Unwound c c :=
  ⟨h,rfl,rfl,rfl,rfl,rfl,rfl,fun _ _ => rfl,fun _ => rfl⟩

theorem Unwound.trans {d e : Ctx} (h : Unwound c d) (h' : Unwound d e) : Unwound c e :=
  ⟨h'.ok,h'.vars.trans h.vars,h'.level.trans h.level,h'.dynamic.trans h.dynamic,
    h'.trailTop.trans h.trailTop,h'.trailCount.trans h.trailCount,h'.entailTop.trans h.entailTop,
    fun l hl => (h'.marks l (h.level.symm ▸ hl)).trans (h.marks l hl),fun r =>
    (h'.fires r).trans (h.fires r)⟩

theorem Reached.back (hok : c.Ok) (h : Reached (trailPushLevel c) c') :
    ∃ d, trailBacktrack c' c.decisionLevel = some d ∧ Unwound c d := by
  obtain ⟨m,hm⟩ := h.recovers
  have hev := hm.evolves c [] (Evolves.push c)
  obtain ⟨q,hq⟩ := hm.ok.queue
  refine ⟨_,hev.trailBacktrack hok.tops hq,restored_ok hm.ok hok.tops,rfl,rfl,rfl,rfl,rfl,rfl,
    hev.lower,fun r => ?_⟩
  have hfire := h.fires r
  simp only [restored]
  split_ifs <;> exact hfire

/-- Domains that only shrank and are still in use; one that had a value still has one. -/
structure Shrinks (vars vars' : ℕ → Variable) : Prop extends Notify.Narrower vars vars' where
  ok : ∀ v, (vars' v).Ok
  live : ∀ v, (vars v).least ≤ (vars v).most → (vars' v).least ≤ (vars' v).most

theorem Shrinks.refl (h : ∀ v, (vars v).Ok) : Shrinks vars vars :=
  ⟨⟨fun _ => .refl _,fun _ => le_rfl,fun _ => le_rfl⟩,h,fun _ => id⟩

theorem Shrinks.trans {vars'' : ℕ → Variable} (h : Shrinks vars vars') (h' : Shrinks vars' vars'') :
    Shrinks vars vars'' :=
  ⟨⟨fun v => (h.same v).trans (h'.same v),fun v => (h.least v).trans (h'.least v),fun v =>
    (h'.most v).trans (h.most v)⟩,h'.ok,fun v hv => h'.live v (h.live v hv)⟩

theorem Tightened.shrinks {id : ℕ} (h : ∀ v, (vars v).Ok) (ht : Tightened t id b vars .ok vars') :
    Shrinks vars vars' := by
  refine ⟨Notify.narrower_tightened ht,fun v => ?_,fun v hv => ?_⟩ <;> cases ht with
  | ok v' same ok least most live =>
    by_cases hid : v = id
    · subst hid
      rw [Function.update_self]
      first
        | exact ok
        | exact live.elim (fun he => he ▸ hv) fun hle => hle
    · rw [Function.update_of_ne hid]
      first
        | exact h v
        | exact hv

/-- A fire that narrows domains, of the types they have in `vars₀`, and conflicts when it
empties one. -/
def Fire.Heeds (vars₀ : ℕ → Variable) (f : Fire) : Prop :=
  ∀ vars, (∀ v, (vars v).Ok) → (∀ v, SameType (vars₀ v) (vars v)) →
    f.wp (fun r vars' => r ≠ .conflict → Shrinks vars vars') vars

theorem Fire.Heeds.congr {vars₀ : ℕ → Variable} {f : Fire} (h : f.Heeds vars₀)
    (hs : ∀ v, SameType (vars₀ v) (vars v)) : f.Heeds vars :=
  fun vars' hok hs' => h vars' hok fun v => (hs v).trans (hs' v)

theorem Fire.Within.heeds {W : ℕ → Prop} {vars₀ : ℕ → Variable} {f : Fire} (hf : f.Within W)
    (hsmall : ∀ v, W v → (vars₀ v).tier1 = false) : f.Heeds vars₀ := by
  intro vars hok hsame
  have hall : ∀ vars', Shrinks vars vars' →
      f.wp (fun r vars'' => r ≠ .conflict → Shrinks vars vars'') vars' := by
    induction f with
    | done r => exact fun vars' hs _ => hs
    | read v k ih => exact fun vars' hs => ih _ (hf.2 _) vars' hs
    | tighten t v b k ih =>
      intro vars' hs
      have hfit : t.Fits (vars' v) := by
        have hsmall' := ((hsame v).trans (hs.same v)).tier1.trans (hsmall v hf.1)
        cases t <;> first | exact hsmall' | trivial
      refine ⟨hs.ok v,hfit,fun r vars'' ht => ?_⟩
      cases r with
      | ok => exact ih _ (hf.2.2 _) _ (hs.trans (ht.shrinks hs.ok))
      | conflict =>
        rw [hf.2.1]
        exact fun hne => absurd rfl hne
      | entailed => cases ht
  exact hall vars (.refl hok)

def Heeded (r : PropResult) (s s' : Engine) : Prop :=
  r ≠ .conflict → Shrinks s.ctx.vars s'.ctx.vars

theorem Heeded.stay (h : ∀ v, (s.ctx.vars v).Ok) (he : s'.ctx.vars = s.ctx.vars) :
    Heeded r s s' := fun _ => by
  rw [he]
  exact .refl h

theorem dequeue_vars (hd : dequeue c = some (ref,c')) : c'.vars = c.vars := by
  unfold dequeue at hd
  obtain ⟨lvl,_,hd⟩ := Option.bind_eq_some_iff.mp hd
  obtain ⟨r,_,hd⟩ := Option.bind_eq_some_iff.mp hd
  obtain ⟨rfl,rfl⟩ := Prod.mk.inj (Option.some.inj hd)
  rfl

theorem propEnqueue_vars (c : Ctx) (ref : ℕ) : (propEnqueue c ref).vars = c.vars := by
  unfold propEnqueue
  dsimp only
  split_ifs
  · rfl
  · split <;> rfl

theorem notifyHeld_clauses (s : Engine) (id : ℕ) (ub : Bool) :
    (notifyHeld s id ub).db.map (·.clauses) = s.db.map (·.clauses) := by
  unfold notifyHeld
  split
  · rfl
  · rename_i hdb
    split_ifs <;> simp_all

section Chain

variable {k : ℕ}

theorem tightenHeld_heeded (h : ∀ v, (s.ctx.vars v).Ok) (t : Tighten) (id : ℕ) (b : BitVec 64)
    (ht : t.Fits (s.ctx.vars id)) : Heeded (tightenHeld s t id b).1 s (tightenHeld s t id b).2 := by
  intro hne
  have htight := tightenHeld_tightened t b (h id) ht
  have hres : (tightenHeld s t id b).1 = .ok := by
    cases hr : (tightenHeld s t id b).1 with
    | ok => rfl
    | conflict => exact absurd hr hne
    | entailed =>
      rw [hr] at htight
      cases htight
  rw [hres] at htight
  exact htight.shrinks h

theorem enforceUnit_heeded (h : ∀ v, (s.ctx.vars v).Ok) (ci : ℕ) (unit : Literal) :
    Heeded (enforceUnit s ci unit).1 s (enforceUnit s ci unit).2.2 := by
  have hstep := tightenHeld_heeded (s:=s.withReason (some ci) (s.ctx.currentFlags ||| flagFromClause))
    h (if unit.isLb then .lb64 else .ub64) unit.varId unit.bound (by split_ifs <;> trivial)
  unfold enforceUnit
  by_cases ht : alreadyTight s.ctx.vars unit = true
  · rw [if_pos ht]
    exact .stay h rfl
  · rw [if_neg ht]
    exact hstep

theorem visitClause_heeded (h : ∀ v, (s.ctx.vars v).Ok) (ci : ℕ) :
    Heeded (visitClause s ci).1 s (visitClause s ci).2.2 := by
  unfold visitClause
  split
  · exact .stay h rfl
  · split_ifs
    · exact .stay h rfl
    · exact .stay h rfl
    · split
      · exact .stay h rfl
      · exact enforceUnit_heeded h ci _
      · exact .stay h rfl

theorem After.of_imp {P : Engine → Prop} (h : r ≠ .conflict → P s) : After (fun _ => True) P r s := by
  unfold After
  split_ifs with hr
  · trivial
  · exact h hr

theorem heeded_visit {vars₀ : ℕ → Variable} (hs : Shrinks vars₀ s.ctx.vars) (ci : ℕ) :
    After (fun _ => True) (fun s => Shrinks vars₀ s.ctx.vars) (visitClause s ci).1
      (visitClause s ci).2.2 := .of_imp fun hr => hs.trans (visitClause_heeded hs.ok ci hr)

theorem heeded_walk (vars₀ : ℕ → Variable) : Walk (fun _ => True) fun s => Shrinks vars₀ s.ctx.vars :=
  ⟨fun hs hc _ => hc ▸ hs,fun _ _ _ => trivial,fun ci hs => heeded_visit hs ci⟩

theorem Walk.clauseNotify {C P : Engine → Prop} (hw : Walk C P) (h : P s) {id : ℕ} {ub : Bool}
    (hr : clauseNotify k s id ub = some (r,s')) : After C P r s' := by
  have hok : ∀ {t : Engine}, P t → After C P .ok t := (After.iff (by simp)).mpr
  unfold Solver.clauseNotify at hr
  split at hr
  · obtain ⟨rfl,rfl⟩ := Prod.mk.inj (Option.some.inj hr)
    exact hok h
  · rename_i db hdb
    by_cases hid : id ≥ db.nWatchVars
    · rw [if_pos hid] at hr
      obtain ⟨rfl,rfl⟩ := Prod.mk.inj (Option.some.inj hr)
      exact hok h
    · rw [if_neg hid] at hr
      by_cases hin : db.inNotify = true
      · rw [if_pos hin] at hr
        obtain ⟨rfl,rfl⟩ := Prod.mk.inj (Option.some.inj hr)
        exact hok (hw.plain h (notifyHeld_ctx s id ub) (notifyHeld_clauses s id ub))
      · rw [if_neg hin] at hr
        exact hw.drain (hw.checkWatch _ (hw.plain (t:={ s with db := some { db with inNotify := true } })
          h rfl (by simp [hdb]))) hr

theorem ctxTightenNotify_heeded (h : ∀ v, (s.ctx.vars v).Ok) {id : ℕ} (ht : t.Fits (s.ctx.vars id))
    (hr : ctxTightenNotify k s t id b = some (r,s')) : Heeded r s s' := by
  have hstep : Heeded (ctxTighten t s.ctx id b).1 s { s with ctx := (ctxTighten t s.ctx id b).2 } := by
    have := tightenHeld_heeded h t id b ht
    unfold Heeded at this ⊢
    rwa [tightenHeld_fst,tightenHeld_ctx] at this
  unfold ctxTightenNotify at hr
  dsimp only at hr
  split_ifs at hr with hmoved
  · have hs := hstep (by rw [hmoved.2]; simp)
    exact fun hne => (After.iff hne).mp ((heeded_walk s.ctx.vars).clauseNotify (s:={ s with ctx := _ }) hs hr)
  · obtain ⟨rfl,rfl⟩ := Prod.mk.inj (Option.some.inj hr)
    exact hstep

theorem ctxTightenNotify_reached {c₀ : Ctx} (h : Reached c₀ s.ctx) {id : ℕ}
    (hr : ctxTightenNotify k s t id b = some (r,s')) :
    Reached c₀ s'.ctx := by
  unfold ctxTightenNotify at hr
  dsimp only at hr
  split_ifs at hr
  · exact Steady.after_self.mp ((Reached.steady c₀).round.toWalk.clauseNotify (s:={ s with ctx := _ })
      (h.ctxTighten t id b) hr)
  · obtain ⟨-,rfl⟩ := Prod.mk.inj (Option.some.inj hr)
    exact h.ctxTighten t id b

/-- What depends on the domains and the learnt clauses alone. -/
def OfVars (P : Engine → Prop) : Prop :=
  ∀ {s t : Engine}, P s → t.ctx.vars = s.ctx.vars → t.db.map (·.clauses) = s.db.map (·.clauses) → P t

/-- Steps that keep `J` of the context, with what clauses and fires keep of the domains. -/
theorem round_of_vars {J : Ctx → Prop} {P : Engine → Prop} {C : Prop} {n : ℕ} (hj : Steady n J)
    (hp : OfVars P)
    (hv : ∀ {s : Engine} ci, P s → After (fun _ => C) P (visitClause s ci).1 (visitClause s ci).2.2)
    (hf : ∀ {s : Engine} {ref}, ref < n → P s → J s.ctx → gateOf s.ctx ref = .through →
      After (fun _ => C) P ((s.ctx.props ref).fire.run s).1 ((s.ctx.props ref).fire.run s).2) :
    Round n (fun _ => C) (fun s => P s ∧ J s.ctx) fun _ _ => True := by
  have hand : ∀ {r : PropResult} {s : Engine}, After (fun _ => C) P r s → J s.ctx →
      After (fun _ => C) (fun s => P s ∧ J s.ctx) r s := by
    intro r s h hs
    unfold After at h ⊢
    split_ifs at h ⊢
    · exact h
    · exact ⟨h,hs⟩
  have hwalk : Walk (fun _ => C) fun s => P s ∧ J s.ctx := {
    plain := fun h hc hdb => ⟨hp h.1 (by rw [hc]) hdb,hc ▸ h.2⟩
    plainC := fun h _ _ => h
    visit := fun ci h => hand (hv ci h.1) (hj.visitClause h.2 ci) }
  exact {
    hwalk with
    reason := fun ref flags h => ⟨hp h.1 rfl rfl,hj.withReason h.2 ref flags⟩
    reasonC := fun _ _ h => h
    reasonE := fun _ _ _ => trivial
    entails := fun _ => by simpa using hwalk
    mark := fun ref href h _ => ⟨hp h.1 rfl rfl,hj.mark _ ref href h.2⟩
    shut := fun _ _ => trivial
    enqueue := fun ref href h => ⟨hp h.1 (propEnqueue_vars _ ref) rfl,hj.enqueue _ ref href h.2⟩
    enqueueC := fun _ _ h => h
    take := fun hd h =>
      ⟨(hj.take _ _ _ hd h.2).1,hp h.1 (dequeue_vars hd) rfl,(hj.take _ _ _ hd h.2).2⟩
    fire := fun href h hg => by simpa using hand (hf href h.1 h.2 hg) (hj.fire _ h.2) }

/-- A propagation that does not conflict only narrows domains and empties none. -/
theorem dvsSolverPropagate_heeded {c₀ : Ctx} (h : ∀ v, (s.ctx.vars v).Ok) (hr : Reached c₀ s.ctx)
    (hf : ∀ ref, (c₀.props ref).fire.Heeds s.ctx.vars)
    (hp : dvsSolverPropagate overBudget k s = some (r,s')) : Heeded r s s' := by
  intro hne
  have hround := round_of_vars (Reached.steady c₀) (P:=fun t => Shrinks s.ctx.vars t.ctx.vars) (C:=True)
    (fun hs hv _ => by simpa only [hv] using hs) (fun ci hs => heeded_visit hs ci) fun {t ref} _ ht hreach _ => by
      rw [hreach.fires ref]
      have hrun := Fire.run_of_wp (s:=t) (((hf ref).congr ht.same) t.ctx.vars ht.ok fun _ => .refl _)
      exact .of_imp fun hc => ht.trans (hrun hc)
  exact ((After.iff hne).mp ((hround.propagate ⟨.refl h,hr⟩ hp).resolve_left fun hc => hne hc.1)).1

end Chain

end Solver
end DvSolve
