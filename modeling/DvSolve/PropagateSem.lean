import DvSolve.Propagate
import DvSolve.TrailSem

/-! Propagation ends at a fixpoint.
A successful tightening queues every propagator that watches the variable or is guarded
by it, so at any time a propagator that may fire is queued or would change nothing. -/
namespace DvSolve
namespace Solver

structure GuardsOk (c : Ctx) : Prop where
  guards : ∀ r, isLive c r = true → ∀ v, propGuard c r = some v →
    (c.props r).propId < c.nProps ∧ v < c.nVars
  index : ∀ ix, c.guardIx = some ix → c.guardDirty = false → ix.props = guardedBy c.guardVars ix.nProps

def Ctx.Good (c : Ctx) : Prop := c.Ok ∧ GuardsOk c

def Listens (c : Ctx) (r v : ℕ) : Prop :=
  r ∈ c.watchers v ∨ isLive c r = true ∧ propGuard c r = some v

structure Static (c c' : Ctx) : Prop where
  watchers : c'.watchers = c.watchers
  propRefs : c'.propRefs = c.propRefs
  propCapacity : c'.propCapacity = c.propCapacity
  guardVars : c'.guardVars = c.guardVars
  nVars : c'.nVars = c.nVars
  nProps : c'.nProps = c.nProps
  poolTop : c'.poolTop = c.poolTop
  props : ∀ r, c'.props r =
    { c.props r with queueNext := (c'.props r).queueNext, inQueue := (c'.props r).inQueue }

structure Woken (c c' : Ctx) : Prop where
  kept : ∀ r, (c.props r).inQueue = true → (c'.props r).inQueue = true
  woken : ∀ r v, c'.vars v ≠ c.vars v → Listens c r v → (c.props r).entailed = false →
    (c'.props r).inQueue = true

theorem Static.refl (c : Ctx) : Static c c := ⟨rfl,rfl,rfl,rfl,rfl,rfl,rfl,fun _ => rfl⟩

variable {c'' : Ctx}

theorem Static.trans {c c' : Ctx} (h : Static c c') (h' : Static c' c'') : Static c c'' := by
  refine ⟨?_,?_,?_,?_,?_,?_,?_,fun r => ?_⟩
  · rw [h'.watchers,h.watchers]
  · rw [h'.propRefs,h.propRefs]
  · rw [h'.propCapacity,h.propCapacity]
  · rw [h'.guardVars,h.guardVars]
  · rw [h'.nVars,h.nVars]
  · rw [h'.nProps,h.nProps]
  · rw [h'.poolTop,h.poolTop]
  · rw [h'.props r,h.props r]

section Static

variable {c c' : Ctx}

theorem Static.entailed (h : Static c c') (r : ℕ) :
    (c'.props r).entailed = (c.props r).entailed := by rw [h.props r]

theorem Static.propId (h : Static c c') (r : ℕ) : (c'.props r).propId = (c.props r).propId := by
  rw [h.props r]

theorem Static.fire (h : Static c c') (r : ℕ) : (c'.props r).fire = (c.props r).fire := by
  rw [h.props r]

theorem Static.isLive (h : Static c c') (r : ℕ) : isLive c' r = isLive c r := by
  simp only [Solver.isLive,h.propId,h.propCapacity,h.propRefs]

theorem Static.propGuard (h : Static c c') (r : ℕ) : propGuard c' r = propGuard c r := by
  simp only [Solver.propGuard,h.propId,h.propCapacity,h.guardVars]

theorem Static.listens (h : Static c c') (r v : ℕ) : Listens c' r v ↔ Listens c r v := by
  rw [Listens,Listens,h.watchers,h.isLive,h.propGuard]

theorem Static.guardsOk (h : Static c c') (hg : GuardsOk c) (hix : c'.guardIx = c.guardIx)
    (hd : c'.guardDirty = c.guardDirty) : GuardsOk c' := by
  refine ⟨fun r hr v hv => ?_,fun ix hi hc => ?_⟩
  · rw [h.propId,h.nProps,h.nVars]
    exact hg.guards r (by rwa [h.isLive] at hr) v (by rwa [h.propGuard] at hv)
  · rw [h.guardVars]
    exact hg.index ix (by rw [← hix,hi]) (by rw [← hd,hc])

theorem QueueStep.static (h : QueueStep c c') : Static c c' := by
  refine ⟨?_,?_,?_,?_,?_,?_,?_,h.props⟩ <;> rw [h.rest]

theorem Woken.refl (c : Ctx) : Woken c c := ⟨fun _ h => h,fun _ _ h => absurd rfl h⟩

theorem Woken.trans (hs : Static c c') (h : Woken c c') (h' : Woken c' c'') :
    Woken c c'' := by
  refine ⟨fun r hr => h'.kept r (h.kept r hr),fun r v hv hl he => ?_⟩
  by_cases hv' : c'.vars v = c.vars v
  · exact h'.woken r v (by rwa [hv']) ((hs.listens r v).mpr hl) (by rwa [hs.entailed])
  · exact h'.kept r (h.woken r v hv' hl he)

theorem Woken.unchanged (h : Woken c c') {r : ℕ} (he : (c.props r).entailed = false)
    (hq : (c'.props r).inQueue = false) {v : ℕ} (hl : Listens c r v) : c'.vars v = c.vars v := by
  by_contra hne
  have := h.woken r v hne hl he
  simp [hq] at this

end Static

structure Stepped (r : PropResult) (c c' : Ctx) : Prop where
  good : c'.Good
  static : Static c c'
  woken : r ≠ .conflict → Woken c c'

section Stepped

variable {c c' : Ctx}

theorem Stepped.refl (r : PropResult) (hg : c.Good) : Stepped r c c :=
  ⟨hg,.refl c,fun _ => .refl c⟩

theorem Stepped.trans {r r' : PropResult} (h : Stepped r c c') (hr : r ≠ .conflict)
    (h' : Stepped r' c' c'') : Stepped r' c c'' :=
  ⟨h'.good,h.static.trans h'.static,fun hr' => (h.woken hr).trans h.static (h'.woken hr')⟩

theorem Ctx.Good.reason (hg : c.Good) (ref : Option ℕ) (flags : ℕ) :
    Stepped .ok c { c with currentPropRef := ref, currentFlags := flags } := by
  have hs : Static c { c with currentPropRef := ref, currentFlags := flags } :=
    ⟨rfl,rfl,rfl,rfl,rfl,rfl,rfl,fun _ => rfl⟩
  exact ⟨⟨(Op.setReason ref flags).run_ok hg.1 trivial,hs.guardsOk hg.2 rfl rfl⟩,hs,
    fun _ => ⟨fun _ h => h,fun _ _ h => absurd rfl h⟩⟩

/-- A step that changes the queue only, and takes nothing out of it. -/
structure Enqueued (c c' : Ctx) : Prop where
  good : c'.Good
  static : Static c c'
  vars : c'.vars = c.vars
  kept : ∀ r, (c.props r).inQueue = true → (c'.props r).inQueue = true

theorem Enqueued.refl (hg : c.Good) : Enqueued c c := ⟨hg,.refl c,rfl,fun _ h => h⟩

theorem Enqueued.trans (h : Enqueued c c') (h' : Enqueued c' c'') : Enqueued c c'' :=
  ⟨h'.good,h.static.trans h'.static,h'.vars.trans h.vars,fun r hr => h'.kept r (h.kept r hr)⟩

theorem propEnqueue_enqueued (hg : c.Good) {ref : ℕ} (hr : ref < c.poolTop) :
    Enqueued c (propEnqueue c ref) ∧
      ((c.props ref).entailed = false → ((propEnqueue c ref).props ref).inQueue = true) := by
  obtain ⟨q,hq⟩ := hg.1.queue
  have hstep := propEnqueue_step hq ref
  have hix : (propEnqueue c ref).guardIx = c.guardIx ∧
      (propEnqueue c ref).guardDirty = c.guardDirty ∧ (propEnqueue c ref).vars = c.vars := by
    rw [hstep.rest]
    exact ⟨rfl,rfl,rfl⟩
  have hgood : (propEnqueue c ref).Good :=
    ⟨(propEnqueue_quiet hg.1 hr).2,hstep.static.guardsOk hg.2 hix.1 hix.2.1⟩
  by_cases h1 : (c.props ref).inQueue = true ∨ (c.props ref).entailed = true
  · rw [propEnqueue_skip h1]
    refine ⟨.refl hg,fun he => h1.resolve_right ?_⟩
    simp [he]
  · simp only [not_or,Bool.not_eq_true] at h1
    have hin := propEnqueue_inQueue hq h1.1 h1.2
    refine ⟨⟨hgood,hstep.static,hix.2.2,fun r hr => ?_⟩,fun _ => ?_⟩
    · rw [hin]
      split_ifs
      · rfl
      · exact hr
    · rw [hin,if_pos rfl]

theorem enqueues_foldl {f : Ctx → ℕ → Ctx} (names : Ctx → ℕ → ℕ → Prop)
    (hf : ∀ c a, c.Good → (∀ r, names c a r → r < c.poolTop) → Enqueued c (f c a) ∧
      ∀ r, names c a r → (c.props r).entailed = false → ((f c a).props r).inQueue = true)
    (hn : ∀ c c' a r, Static c c' → (names c' a r ↔ names c a r)) {l : List ℕ} (hg : c.Good)
    (hl : ∀ a ∈ l, ∀ r, names c a r → r < c.poolTop) : Enqueued c (l.foldl f c) ∧
      ∀ a ∈ l, ∀ r, names c a r → (c.props r).entailed = false →
        ((l.foldl f c).props r).inQueue = true := by
  induction l generalizing c with
  | nil => exact ⟨.refl hg,by simp⟩
  | cons a l ih =>
    obtain ⟨h1,h1'⟩ := hf c a hg (hl a (by simp))
    obtain ⟨h2,h2'⟩ := ih h1.good fun b hb r hr => by
      rw [h1.static.poolTop]
      exact hl b (by simp [hb]) r ((hn _ _ _ _ h1.static).mp hr)
    refine ⟨h1.trans h2,fun b hb r hr he => ?_⟩
    rcases List.mem_cons.mp hb with rfl | hb
    · exact h2.kept r (h1' r hr he)
    · exact h2' b hb r ((hn _ _ _ _ h1.static).mpr hr) (by rwa [h1.static.entailed])

theorem wakeId_enqueued (hg : c.Good) (i : ℕ) : Enqueued c (wakeId c i) ∧
    ∀ r, c.propRefs i = some r → (c.props r).entailed = false →
      ((wakeId c i).props r).inQueue = true := by
  unfold wakeId
  cases h : c.propRefs i with
  | none => exact ⟨.refl hg,by simp⟩
  | some ref =>
    obtain ⟨h1,h2⟩ := propEnqueue_enqueued hg (hg.1.refs i ref h)
    refine ⟨h1,fun r hr => ?_⟩
    obtain rfl : ref = r := by simpa using hr
    exact h2

theorem guardIxBuild_enqueued (hg : c.Good) (nv np : ℕ) : Enqueued c (guardIxBuild c nv np) ∧
    (guardIxBuild c nv np).guardIx = some ⟨nv,np,guardedBy c.guardVars np⟩ := by
  have hset : Enqueued c { c with
      guardIx := some ⟨nv,np,guardedBy c.guardVars np⟩, guardDirty := false } := by
    obtain ⟨q,hq⟩ := hg.1.queue
    refine ⟨⟨⟨⟨q,hq.congr rfl rfl fun _ => ⟨rfl,rfl,rfl⟩⟩,⟨hg.1.tops.trail,hg.1.tops.entail⟩,
      hg.1.priority,hg.1.watchers,hg.1.refs⟩,⟨hg.2.guards,fun ix hix _ => ?_⟩⟩,
      ⟨rfl,rfl,rfl,rfl,rfl,rfl,rfl,fun _ => rfl⟩,rfl,fun _ h => h⟩
    obtain rfl : (⟨nv,np,guardedBy c.guardVars np⟩ : GuardIx) = ix := by simpa using hix
    rfl
  unfold guardIxBuild
  split
  · rename_i ix hix
    split_ifs with h
    · obtain ⟨hd,rfl,rfl⟩ := h
      refine ⟨.refl hg,?_⟩
      rw [hix,← hg.2.index ix hix (by simpa using hd)]
    · exact ⟨hset,rfl⟩
  · exact ⟨hset,rfl⟩

theorem wakeIds_enqueued (hg : c.Good) (l : List ℕ) : Enqueued c (l.foldl wakeId c) ∧
    ∀ i ∈ l, ∀ r, c.propRefs i = some r → (c.props r).entailed = false →
      ((l.foldl wakeId c).props r).inQueue = true :=
  enqueues_foldl (fun c i r => c.propRefs i = some r)
    (fun c i h _ => wakeId_enqueued h i) (fun c c' i r h => by rw [h.propRefs]) hg
    fun i _ r hr => hg.1.refs i r hr

theorem GuardsOk.mem_guardedBy (hg : GuardsOk c) {r v : ℕ} (hlive : isLive c r = true)
    (hv : propGuard c r = some v) : (c.props r).propId ∈
      guardedBy c.guardVars (min c.nProps c.propCapacity) v ∧
      c.propRefs (c.props r).propId = some r ∧ v < c.nVars := by
  obtain ⟨hid,hvar⟩ := hg.guards r hlive v hv
  unfold propGuard at hv
  split_ifs at hv with hcap
  refine ⟨List.mem_filter.mpr ⟨List.mem_range.mpr (lt_min hid hcap),by simp [hv]⟩,?_,hvar⟩
  simpa [isLive,hcap] using hlive

theorem wakeVar_enqueued (hg : c.Good) (v : ℕ) : Enqueued c (wakeVar c v) ∧
    ∀ r, Listens c r v → (c.props r).entailed = false → ((wakeVar c v).props r).inQueue = true := by
  obtain ⟨h1,hw⟩ := enqueues_foldl (f := propEnqueue) (fun _ a r => r = a)
    (l := c.watchers v) (fun c a h ha => by
      obtain ⟨h1,h2⟩ := propEnqueue_enqueued h (ha a rfl)
      exact ⟨h1,fun r hr => hr ▸ h2⟩) (fun _ _ _ _ _ => Iff.rfl) hg
    (fun a ha r hr => hr ▸ hg.1.watchers v a ha)
  obtain ⟨m,hm⟩ : ∃ m, m = (c.watchers v).foldl propEnqueue c := ⟨_,rfl⟩
  rw [← hm] at h1 hw
  have hguards : Enqueued m (wakeGuards m v) ∧ ∀ r, isLive m r = true → propGuard m r = some v →
      (m.props r).entailed = false → ((wakeGuards m v).props r).inQueue = true := by
    unfold wakeGuards
    dsimp only
    split_ifs with hgrow
    · obtain ⟨hb,hix⟩ := guardIxBuild_enqueued h1.good m.nVars (min m.nProps m.propCapacity)
      rw [hix]
      dsimp only
      split_ifs with hv
      · refine ⟨hb,fun r hl hgd _ => ?_⟩
        have := (h1.good.2.mem_guardedBy hl hgd).2.2
        omega
      · obtain ⟨hi,hi'⟩ := wakeIds_enqueued hb.good (guardedBy m.guardVars
          (min m.nProps m.propCapacity) v)
        refine ⟨hb.trans hi,fun r hl hgd he => ?_⟩
        obtain ⟨hmem,href,_⟩ := h1.good.2.mem_guardedBy hl hgd
        exact hi' _ hmem r (by rwa [hb.static.propRefs]) (by rwa [hb.static.entailed])
    · obtain ⟨hi,hi'⟩ := wakeIds_enqueued h1.good (guardedBy m.guardVars
        (min m.nProps m.propCapacity) v)
      refine ⟨hi,fun r hl hgd he => ?_⟩
      obtain ⟨hmem,href,_⟩ := h1.good.2.mem_guardedBy hl hgd
      exact hi' _ hmem r href he
  have hwake : wakeVar c v = wakeGuards m v := by rw [hm]; rfl
  rw [hwake]
  refine ⟨h1.trans hguards.1,fun r hl he => ?_⟩
  rcases hl with hl | ⟨hlive,hgd⟩
  · exact hguards.1.kept r (hw r hl r rfl he)
  · exact hguards.2 r (by rwa [h1.static.isLive]) (by rwa [h1.static.propGuard])
      (by rwa [h1.static.entailed])

theorem trailRecord_good (hg : c.Good) (k : TrailKind) (id : ℕ) (new : BitVec 64) :
    (trailRecord k c id new).Good ∧ Static c (trailRecord k c id new) ∧
      (∀ r, ((trailRecord k c id new).props r).inQueue = (c.props r).inQueue) ∧
      ∀ v ≠ id, (trailRecord k c id new).vars v = c.vars v := by
  rcases trailRecord_cases k c id new with h | ⟨v,e,_,_,h⟩
  · rw [h]
    exact ⟨hg,.refl c,fun _ => rfl,fun _ _ => rfl⟩
  · rw [h]
    have hs : Static c (pushEntry (c.setVar id v) e) := ⟨rfl,rfl,rfl,rfl,rfl,rfl,rfl,fun _ => rfl⟩
    refine ⟨⟨pushEntry_ok hg.1 id v e,hs.guardsOk hg.2 rfl rfl⟩,hs,fun _ => rfl,fun w hw => ?_⟩
    simp [pushEntry,Ctx.setVar,hw]

theorem afterTighten_stepped {m : Ctx} {id : ℕ} {empty single : Bool} (hg : m.Good)
    (hs : Static c m) (hq : ∀ r, (m.props r).inQueue = (c.props r).inQueue)
    (hv : ∀ v ≠ id, m.vars v = c.vars v) :
    Stepped (afterTighten m id empty single).1 c (afterTighten m id empty single).2 := by
  obtain ⟨mask,hmask⟩ : ∃ mask, mask = if single = true ∧ id < 64 then
      m.unassignedMask &&& ~~~(1#64 <<< id) else m.unassignedMask := ⟨_,rfl⟩
  have hm : Static m { m with unassignedMask := mask } := ⟨rfl,rfl,rfl,rfl,rfl,rfl,rfl,fun _ => rfl⟩
  have hmg : Ctx.Good { m with unassignedMask := mask } := by
    obtain ⟨q,hq⟩ := hg.1.queue
    exact ⟨⟨⟨q,hq.congr rfl rfl fun _ => ⟨rfl,rfl,rfl⟩⟩,⟨hg.1.tops.trail,hg.1.tops.entail⟩,
      hg.1.priority,hg.1.watchers,hg.1.refs⟩,hm.guardsOk hg.2 rfl rfl⟩
  obtain ⟨hw,hw'⟩ := wakeVar_enqueued hmg id
  have heq : afterTighten m id empty single =
      if empty then (.conflict,m) else (.ok,wakeVar { m with unassignedMask := mask } id) := by
    rw [hmask]
    unfold afterTighten
    split_ifs <;> rfl
  rw [heq]
  split_ifs
  · exact ⟨hg,hs,fun h => absurd rfl h⟩
  · have hs' := (hs.trans hm).trans hw.static
    refine ⟨hw.good,hs',fun _ => ⟨fun r hr => hw.kept r (by rwa [← hq r] at hr), fun r v hne hl he => ?_⟩⟩
    by_cases hid : v = id
    · subst hid
      exact hw' r (((hs.trans hm).listens r v).mpr hl) (by rwa [(hs.trans hm).entailed])
    · rw [hw.vars] at hne
      exact absurd (hv v hid) hne

theorem ctxTighten_stepped (hg : c.Good) (t : Tighten) (id : ℕ) (b : BitVec 64) :
    Stepped (ctxTighten t c id b).1 c (ctxTighten t c id b).2 := by
  have hafter : ∀ k new empty single, Stepped (afterTighten (trailRecord k c id new) id empty single).1 c
        (afterTighten (trailRecord k c id new) id empty single).2 := fun k new _ _ => by
    obtain ⟨h1,h2,h3,h4⟩ := trailRecord_good hg k id new
    exact afterTighten_stepped h1 h2 h3 h4
  cases t
  · simp only [ctxTighten,ctxTightenLb32]
    split_ifs
    · exact .refl _ hg
    · exact hafter _ _ _ _
  · simp only [ctxTighten,ctxTightenUb32]
    split_ifs
    · exact .refl _ hg
    · exact hafter _ _ _ _
  · simp only [ctxTighten,ctxTightenLb64]
    split_ifs
    · exact .refl _ hg
    · exact .refl _ hg
    · exact hafter _ _ _ _
  · simp only [ctxTighten,ctxTightenUb64]
    split_ifs
    · exact .refl _ hg
    · exact .refl _ hg
    · exact hafter _ _ _ _

end Stepped

section Clauses

theorem notifyHeld_ctx (s : Engine) (id : ℕ) (ub : Bool) : (notifyHeld s id ub).ctx = s.ctx := by
  unfold notifyHeld
  split
  · rfl
  · split_ifs <;> rfl

theorem tightenHeld_fst (s : Engine) (t : Tighten) (id : ℕ) (b : BitVec 64) :
    (tightenHeld s t id b).1 = (ctxTighten t s.ctx id b).1 := by
  unfold tightenHeld
  dsimp only
  split_ifs <;> rfl

theorem tightenHeld_ctx (s : Engine) (t : Tighten) (id : ℕ) (b : BitVec 64) :
    (tightenHeld s t id b).2.ctx = (ctxTighten t s.ctx id b).2 := by
  unfold tightenHeld
  dsimp only
  split_ifs
  · rw [notifyHeld_ctx]
  · rfl

variable {s : Engine}

theorem tightenHeld_stepped (hg : s.ctx.Good) (t : Tighten) (id : ℕ) (b : BitVec 64) :
    Stepped (tightenHeld s t id b).1 s.ctx (tightenHeld s t id b).2.ctx := by
  rw [tightenHeld_fst,tightenHeld_ctx]
  exact ctxTighten_stepped hg t id b

theorem withReason_stepped (hg : s.ctx.Good) (ref : Option ℕ) (flags : ℕ) :
    Stepped .ok s.ctx (s.withReason ref flags).ctx := hg.reason ref flags

theorem enforceUnit_stepped (hg : s.ctx.Good) (ci : ℕ) (unit : Literal) :
    Stepped (enforceUnit s ci unit).1 s.ctx (enforceUnit s ci unit).2.2.ctx := by
  have h1 := withReason_stepped hg (some ci) (s.ctx.currentFlags ||| flagFromClause)
  have h2 := h1.trans (by simp) (tightenHeld_stepped h1.good
    (if unit.isLb then .lb64 else .ub64) unit.varId unit.bound)
  have h3 := withReason_stepped h2.good s.ctx.currentPropRef s.ctx.currentFlags
  have h4 : Stepped _ _ _ := ⟨h3.good,h2.static.trans h3.static,fun hr =>
    (h2.woken hr).trans h2.static (h3.woken (by simp))⟩
  unfold enforceUnit
  by_cases h : alreadyTight s.ctx.vars unit = true
  · rw [if_pos h]
    exact .refl _ hg
  · rw [if_neg h]
    exact h4

theorem visitClause_stepped (hg : s.ctx.Good) (ci : ℕ) :
    Stepped (visitClause s ci).1 s.ctx (visitClause s ci).2.2.ctx := by
  unfold visitClause
  split
  · exact .refl _ hg
  · split
    · exact .refl _ hg
    · split
      · exact .refl _ hg
      · split
        · exact .refl _ hg
        · exact enforceUnit_stepped hg ci _
        · exact .refl _ hg

/-- After a step with result `r`: `P` holds, or there is a conflict, and `C`. -/
def After (C P : Engine → Prop) (r : PropResult) (s : Engine) : Prop :=
  if r = .conflict then C s else P s

/-- What the queue of bound changes does not matter to. -/
def Plain (P : Engine → Prop) : Prop :=
  ∀ {s t : Engine}, P s → t.ctx = s.ctx → t.db.map (·.clauses) = s.db.map (·.clauses) → P t

/-- What looking at a clause keeps: `P` until a conflict, and `C` at it. -/
structure Walk (C P : Engine → Prop) : Prop where
  plain : Plain P
  plainC : Plain C
  visit : ∀ {s} ci, P s → After C P (visitClause s ci).1 (visitClause s ci).2.2

section Walk

variable {C P : Engine → Prop} {n : ℕ} {res r : PropResult} {s' : Engine}

theorem after_conflict : After C P .conflict s ↔ C s := iff_of_eq (if_pos rfl)

theorem After.iff (hr : r ≠ .conflict) : After C P r s ↔ P s := iff_of_eq (if_neg hr)

namespace Walk

variable (hw : Walk C P)

include hw

theorem checkWatch (l : List ℕ) {s : Engine} (hs : P s) :
    After C P (checkWatch l s).1 (checkWatch l s).2 := by
  induction l generalizing s with
  | nil => exact (After.iff (by simp [Solver.checkWatch])).mpr hs
  | cons ci l ih =>
    have h := hw.visit ci hs
    rw [Solver.checkWatch]
    by_cases hc : (checkClause s ci).1 = .conflict
    · rw [if_pos hc,after_conflict]
      rwa [show (visitClause s ci).1 = .conflict from hc,after_conflict] at h
    · rw [if_neg hc]
      exact ih ((After.iff hc).mp h)

theorem scanClauses (l : List ℕ) (changed : Bool) {s : Engine} (hs : P s) :
    After C P (scanClauses l changed s).1 (scanClauses l changed s).2.2 := by
  induction l generalizing changed s with
  | nil => exact (After.iff (by simp [Solver.scanClauses])).mpr hs
  | cons ci l ih =>
    have h := hw.visit ci hs
    rw [Solver.scanClauses]
    by_cases hc : (visitClause s ci).1 = .conflict
    · rw [if_pos hc,after_conflict]
      rwa [hc,after_conflict] at h
    · rw [if_neg hc]
      exact ih _ ((After.iff hc).mp h)

theorem clausePropagate (iterations : ℕ) {s : Engine} (hs : P s) :
    After C P (clausePropagate iterations s).1 (clausePropagate iterations s).2 := by
  induction iterations generalizing s with
  | zero => exact (After.iff (by simp [Solver.clausePropagate])).mpr hs
  | succ iterations ih =>
    have h := hw.scanClauses (List.range s.nClauses) false hs
    rw [Solver.clausePropagate]
    by_cases hc : (Solver.scanClauses (List.range s.nClauses) false s).1 = .conflict
    · rw [if_pos hc,after_conflict]
      rwa [hc,after_conflict] at h
    · rw [if_neg hc]
      have hp := (After.iff hc).mp h
      split
      · exact ih hp
      · exact (After.iff (by simp)).mpr hp

theorem endNotify (h : After C P r s) : After C P r (endNotify s) := by
  have hdb : (Solver.endNotify s).db.map (·.clauses) = s.db.map (·.clauses) := by
    simp [Solver.endNotify,Function.comp_def]
  unfold After at h ⊢
  split_ifs at h ⊢
  · exact hw.plainC h rfl hdb
  · exact hw.plain h rfl hdb

theorem drain {s : Engine} (h : After C P res s) (hd : drain n res s = some (r,s')) :
    After C P r s' := by
  induction n generalizing res s with
  | zero => simp [Solver.drain] at hd
  | succ n ih =>
    rw [Solver.drain] at hd
    split at hd
    · obtain ⟨rfl,rfl⟩ := Prod.mk.inj (Option.some.inj hd)
      exact h
    · rename_i db hdb
      have hflags : ∀ {d : ClauseDb}, P s → d.clauses = db.clauses → P { s with db := some d } :=
        fun {d} hs hc => hw.plain (t:={ s with db := some d }) hs rfl (by simp [hdb,hc])
      split at hd
      · obtain ⟨rfl,rfl⟩ := Prod.mk.inj (Option.some.inj hd)
        exact hw.endNotify h
      · rename_i hres
        have hs := (After.iff hres).mp h
        split at hd
        · rename_i rest _
          exact ih (hw.checkWatch _ (hflags (d:={ db with pend := rest }) hs rfl)) hd
        · split at hd
          · exact ih (hw.clausePropagate _ (hflags (d:={ db with pendOver := false }) hs rfl)) hd
          · obtain ⟨rfl,rfl⟩ := Prod.mk.inj (Option.some.inj hd)
            exact hw.endNotify h

end Walk

end Walk

theorem after_stepped {c : Ctx} {r : PropResult} :
    After (fun t => Stepped .conflict c t.ctx) (fun t => Stepped .ok c t.ctx) r s ↔
      Stepped r c s.ctx := by
  by_cases hr : r = .conflict
  · subst hr
    exact after_conflict
  · rw [After.iff hr]
    exact ⟨fun h => ⟨h.good,h.static,fun _ => h.woken (by simp)⟩,
      fun h => ⟨h.good,h.static,fun _ => h.woken hr⟩⟩

theorem stepped_walk (c : Ctx) :
    Walk (fun t => Stepped .conflict c t.ctx) fun t => Stepped .ok c t.ctx :=
  ⟨fun h hc _ => by rwa [hc],fun h hc _ => by rwa [hc],fun ci h =>
    after_stepped.mpr (h.trans (by simp) (visitClause_stepped h.good ci))⟩

end Clauses

/-- A fire function that reads and tightens variables of `W` only, and returns a conflict
as soon as a tightening does. -/
def Fire.Within (W : ℕ → Prop) : Fire → Prop
  | .done _ => True
  | .read v k => W v ∧ ∀ x, (k x).Within W
  | .tighten _ v _ k => W v ∧ k .conflict = .done .conflict ∧ ∀ r, (k r).Within W

section Fires

theorem afterTighten_fst (c : Ctx) (id : ℕ) (empty single : Bool) :
    (afterTighten c id empty single).1 = if empty then .conflict else .ok := by
  unfold afterTighten
  split_ifs <;> rfl

theorem ctxTighten_local {c c' : Ctx} (t : Tighten) (id : ℕ) (b : BitVec 64)
    (hv : c'.vars id = c.vars id) :
    (ctxTighten t c' id b).1 = (ctxTighten t c id b).1 ∧
      (ctxTighten t c' id b).2.vars id = (ctxTighten t c id b).2.vars id := by
  have hrec : ∀ k new, (trailRecord k c' id new).vars id = (trailRecord k c id new).vars id := by
    intro k new
    simp only [trailRecord,hv]
    by_cases htier : ((c.vars id).tier0 || (c.vars id).tier1) = true
    · rw [if_pos htier,if_pos htier]
      simp [pushEntry,Ctx.setVar]
    · rw [if_neg htier,if_neg htier]
      exact hv
  have h32 : ∀ k new, (afterTighten32 (trailRecord k c' id new) id).1 =
      (afterTighten32 (trailRecord k c id new) id).1 ∧
      (afterTighten32 (trailRecord k c' id new) id).2.vars id =
        (afterTighten32 (trailRecord k c id new) id).2.vars id := by
    intro k new
    simp only [afterTighten32,afterTighten_fst,afterTighten_keeps,hrec,and_self]
  have h64 : ∀ k new, (afterTighten64 (trailRecord k c' id new) id).1 =
      (afterTighten64 (trailRecord k c id new) id).1 ∧
      (afterTighten64 (trailRecord k c' id new) id).2.vars id =
        (afterTighten64 (trailRecord k c id new) id).2.vars id := by
    intro k new
    simp only [afterTighten64,afterTighten_fst,afterTighten_keeps,hrec,and_self]
  cases t
  · simp only [ctxTighten,ctxTightenLb32,hv]
    split_ifs
    · exact ⟨rfl,hv⟩
    · exact h32 _ _
  · simp only [ctxTighten,ctxTightenUb32,hv]
    split_ifs
    · exact ⟨rfl,hv⟩
    · exact h32 _ _
  · simp only [ctxTighten,ctxTightenLb64,hv]
    split_ifs
    · exact ⟨rfl,hv⟩
    · exact ⟨rfl,hv⟩
    · exact h64 _ _
  · simp only [ctxTighten,ctxTightenUb64,hv]
    split_ifs
    · exact ⟨rfl,hv⟩
    · exact ⟨rfl,hv⟩
    · exact h64 _ _

theorem ctxTighten_vars_ne {c : Ctx} (t : Tighten) (id : ℕ) (b : BitVec 64) {v : ℕ}
    (hv : v ≠ id) : (ctxTighten t c id b).2.vars v = c.vars v := by
  rcases ctxTighten_cases t c id b with h | ⟨k,new,empty,single,h⟩
  · rw [h]
  · rw [h,afterTighten_keeps]
    rcases trailRecord_cases k c id new with hr | ⟨w,e,_,_,hr⟩
    · rw [hr]
    · rw [hr]
      simp [pushEntry,Ctx.setVar,hv]

variable {W : ℕ → Prop}

theorem Fire.run_stepped {f : Fire} (hf : f.Within W) {s : Engine} (hg : s.ctx.Good) :
    Stepped (f.run s).1 s.ctx (f.run s).2.ctx ∧ ∀ v, ¬W v → (f.run s).2.ctx.vars v = s.ctx.vars v := by
  induction f generalizing s with
  | done r => exact ⟨.refl r hg,fun _ _ => rfl⟩
  | read v k ih => exact ih _ (hf.2 _) hg
  | tighten t v b k ih =>
    obtain ⟨hW,hconf,hk⟩ := hf
    have h := tightenHeld_stepped hg t v b
    have hv : ∀ w, ¬W w → (tightenHeld s t v b).2.ctx.vars w = s.ctx.vars w := fun w hw => by
      rw [tightenHeld_ctx]
      exact ctxTighten_vars_ne t v b fun he => hw (he ▸ hW)
    rw [Fire.run]
    by_cases hr : (tightenHeld s t v b).1 = .conflict
    · rw [hr] at h ⊢
      rw [hconf]
      exact ⟨h,hv⟩
    · obtain ⟨h1,h2⟩ := ih _ (hk _) h.good
      exact ⟨h.trans hr h1,fun w hw => (h2 w hw).trans (hv w hw)⟩

theorem Fire.run_local {f : Fire} (hf : f.Within W) {s s' : Engine} (hg : s.ctx.Good)
    (hg' : s'.ctx.Good) (hv : ∀ v, W v → s'.ctx.vars v = s.ctx.vars v) :
    (f.run s').1 = (f.run s).1 ∧ ∀ v, W v → (f.run s').2.ctx.vars v = (f.run s).2.ctx.vars v := by
  induction f generalizing s s' with
  | done r => exact ⟨rfl,hv⟩
  | read v k ih =>
    simp only [Fire.run]
    rw [hv v hf.1]
    exact ih _ (hf.2 _) hg hg' hv
  | tighten t v b k ih =>
    obtain ⟨hW,hconf,hk⟩ := hf
    obtain ⟨h1,h2⟩ := ctxTighten_local t v b (hv v hW)
    simp only [Fire.run]
    have hfst : (tightenHeld s' t v b).1 = (tightenHeld s t v b).1 := by
      rw [tightenHeld_fst,tightenHeld_fst,h1]
    rw [hfst]
    refine ih _ (hk _) (tightenHeld_stepped hg t v b).good (tightenHeld_stepped hg' t v b).good
      fun w hw => ?_
    rw [tightenHeld_ctx,tightenHeld_ctx]
    by_cases he : w = v
    · rw [he,h2]
    · rw [ctxTighten_vars_ne t v b he,ctxTighten_vars_ne t v b he,hv w hw]

/-- Firing `r` once more neither conflicts nor changes a bound. -/
def AtFixpoint (s : Engine) (r : ℕ) : Prop :=
  ((s.ctx.props r).fire.run s).1 ≠ .conflict ∧ ((s.ctx.props r).fire.run s).2.ctx.vars = s.ctx.vars

/-- A fire that changed nothing would change nothing anywhere its variables are the same. -/
theorem atFixpoint_of_run {s s' : Engine} {r : ℕ} (hf : (s'.ctx.props r).fire.Within W)
    (hg : s.ctx.Good) (hg' : s'.ctx.Good) (hv : ∀ v, W v → s'.ctx.vars v = s.ctx.vars v)
    (hr : ((s'.ctx.props r).fire.run s).1 ≠ .conflict)
    (hsame : ∀ v, W v → ((s'.ctx.props r).fire.run s).2.ctx.vars v = s.ctx.vars v) :
    AtFixpoint s' r := by
  obtain ⟨h1,h2⟩ := Fire.run_local hf hg hg' hv
  refine ⟨h1 ▸ hr,funext fun v => ?_⟩
  by_cases hW : W v
  · rw [h2 v hW,hsame v hW,hv v hW]
  · exact (Fire.run_stepped hf hg').2 v hW

theorem clauseNotifyHold_ctx (s : Engine) : (clauseNotifyHold s).2.ctx = s.ctx := by
  unfold clauseNotifyHold
  split
  · rfl
  · split_ifs <;> rfl

/-- A propagator that fired without conflict and was not woken is at its fixpoint. -/
theorem fireHeld_spec {n : ℕ} {s s' : Engine} {ref : ℕ} {r : PropResult} (hg : s.ctx.Good)
    (hf : (s.ctx.props ref).fire.Within fun v => ref ∈ s.ctx.watchers v)
    (he : (s.ctx.props ref).entailed = false) (h : fireHeld n s ref = some (r,s')) :
    Stepped r s.ctx s'.ctx ∧
      (r ≠ .conflict → (s'.ctx.props ref).inQueue = false → AtFixpoint s' ref) := by
  obtain ⟨s₁,hs₁⟩ : ∃ s₁, s₁ = (clauseNotifyHold s).2.setReason (some ref) := ⟨_,rfl⟩
  have h₁ : Stepped .ok s.ctx s₁.ctx := by
    have h := withReason_stepped (s := (clauseNotifyHold s).2) (by rwa [clauseNotifyHold_ctx])
      (some ref) (clauseNotifyHold s).2.ctx.currentFlags
    rw [hs₁]
    rw [show Stepped .ok (clauseNotifyHold s).2.ctx = Stepped .ok s.ctx by
      rw [clauseNotifyHold_ctx]] at h
    exact h
  obtain ⟨out,hout⟩ : ∃ out, out = (s.ctx.props ref).fire.run s₁ := ⟨_,rfl⟩
  obtain ⟨h₂,h₂'⟩ := Fire.run_stepped hf h₁.good
  rw [← hout] at h₂ h₂'
  have h₃ : Stepped out.1 s.ctx (out.2.setReason none).ctx := by
    have h := withReason_stepped h₂.good none out.2.ctx.currentFlags
    exact ⟨h.good,(h₁.static.trans h₂.static).trans h.static,fun hr =>
      ((h₁.woken (by simp)).trans h₁.static (h₂.woken hr)).trans (h₁.static.trans h₂.static)
        (h.woken (by simp))⟩
  have hfix : ∀ s', Stepped out.1 s.ctx s'.ctx → Stepped .ok (out.2.setReason none).ctx s'.ctx →
      out.1 ≠ .conflict → (s'.ctx.props ref).inQueue = false → AtFixpoint s' ref := by
    intro s' hs hs₃ hr hq
    have hsame : ∀ v, ref ∈ s.ctx.watchers v → s'.ctx.vars v = s.ctx.vars v := fun v hv =>
      (hs.woken hr).unchanged he hq (Or.inl hv)
    have hlast : ∀ v, ref ∈ s.ctx.watchers v → s'.ctx.vars v = (out.2.setReason none).ctx.vars v :=
      fun v hv => (hs₃.woken (by simp)).unchanged (by rwa [h₃.static.entailed]) hq
        (((h₃.static.listens ref v).mpr (Or.inl hv)))
    have hvars : s₁.ctx.vars = s.ctx.vars := by
      rw [hs₁,← clauseNotifyHold_ctx s]
      rfl
    have hfire : (s'.ctx.props ref).fire = (s.ctx.props ref).fire := hs.static.fire ref
    refine atFixpoint_of_run (s := s₁) (W := fun v => ref ∈ s.ctx.watchers v) (by rwa [hfire])
      h₁.good hs.good (fun v hv => ?_) (by rwa [hfire,← hout]) fun v hv => ?_
    · rw [hvars,hsame v hv]
    · rw [hfire,← hout,hvars,← hsame v hv,hlast v hv]
      rfl
  have hprops : ((clauseNotifyHold s).2.ctx.props ref).fire = (s.ctx.props ref).fire := by
    rw [clauseNotifyHold_ctx]
  unfold fireHeld at h
  simp only [hprops,← hs₁,← hout] at h
  split at h
  · obtain ⟨⟨r',t⟩,hrel,heq⟩ := Option.map_eq_some_iff.mp h
    simp only [Prod.mk.injEq] at heq
    obtain ⟨hr,rfl⟩ := heq
    unfold clauseNotifyRelease at hrel
    by_cases hc : out.1 = .conflict
    · simp only [hc,ne_eq,not_true_eq_false,decide_false,Bool.false_eq_true,if_false,
        Option.some.injEq,Prod.mk.injEq] at hrel
      obtain ⟨rfl,rfl⟩ := hrel
      obtain rfl : PropResult.conflict = r := by simpa [hc] using hr
      rw [hc] at h₃
      exact ⟨h₃,fun h => absurd rfl h⟩
    · simp only [hc,ne_eq,not_false_eq_true,decide_true,if_true] at hrel
      have hd := after_stepped.mp ((stepped_walk _).drain (after_stepped.mpr (.refl .ok h₃.good)) hrel)
      by_cases hc' : r' = .conflict
      · rw [if_pos hc'] at hr
        rw [hc'] at hd
        subst hr
        exact ⟨h₃.trans hc hd,fun h => absurd rfl h⟩
      · rw [if_neg hc'] at hr
        subst hr
        have hs : Stepped out.1 s.ctx t.ctx :=
          ⟨hd.good,h₃.static.trans hd.static,fun hr => (h₃.woken hr).trans h₃.static (hd.woken hc')⟩
        exact ⟨hs,hfix t hs ⟨hd.good,hd.static,fun _ => hd.woken hc'⟩⟩
  · obtain ⟨rfl,rfl⟩ : out.1 = r ∧ out.2.setReason none = s' := by simpa using h
    exact ⟨h₃,hfix _ h₃ (.refl _ h₃.good)⟩

end Fires

/-- A live propagator that is not entailed, with no guard or a guard fixed to 1. -/
structure Due (c : Ctx) (r : ℕ) : Prop where
  pool : r < c.poolTop
  live : isLive c r = true
  entailed : (c.props r).entailed = false
  guard : ∀ gid, propGuard c r = some gid → varLo64 (c.vars gid) = 1#64 ∧ varHi64 (c.vars gid) = 1#64

/-- Propagators that are not entailed read and tighten only what they watch. -/
def Watching (c : Ctx) : Prop :=
  ∀ r < c.poolTop, (c.props r).entailed = false → (c.props r).fire.Within fun v => r ∈ c.watchers v

/-- Whoever is due, apart from `r₀`, is queued or at its fixpoint. -/
structure LoopInv (r₀ : Option ℕ) (s : Engine) : Prop where
  good : s.ctx.Good
  watching : Watching s.ctx
  settled : ∀ r, some r ≠ r₀ → Due s.ctx r → (s.ctx.props r).inQueue = true ∨ AtFixpoint s r

section Loop

variable {s s' : Engine} {r₀ : Option ℕ} {ref : ℕ}

theorem LoopInv.stepped (h : LoopInv r₀ s) {r : PropResult} (hr : r ≠ .conflict)
    (hs : Stepped r s.ctx s'.ctx) : LoopInv r₀ s' := by
  have hw := hs.woken hr
  refine ⟨hs.good,fun r hr he => ?_,fun r hne hdue => ?_⟩
  · rw [hs.static.fire,hs.static.watchers]
    exact h.watching r (by rwa [← hs.static.poolTop]) (by rwa [← hs.static.entailed])
  · by_cases hq : (s'.ctx.props r).inQueue = true
    · exact Or.inl hq
    · simp only [Bool.not_eq_true] at hq
      have he : (s.ctx.props r).entailed = false := by rw [← hs.static.entailed]; exact hdue.entailed
      have hlive : isLive s.ctx r = true := by rw [← hs.static.isLive]; exact hdue.live
      have hpool : r < s.ctx.poolTop := by rw [← hs.static.poolTop]; exact hdue.pool
      have hsame : ∀ v, Listens s.ctx r v → s'.ctx.vars v = s.ctx.vars v := fun v hv =>
        hw.unchanged he hq hv
      have hdue' : Due s.ctx r := ⟨hpool,hlive,he,fun gid hgid => by
        rw [← hsame gid (Or.inr ⟨hlive,hgid⟩)]
        exact hdue.guard gid (by rwa [hs.static.propGuard])⟩
      rcases h.settled r hne hdue' with hq' | hfix
      · exact absurd (hw.kept r hq') (by simp [hq])
      · have hf := h.watching r hpool he
        have hfire : (s'.ctx.props r).fire = (s.ctx.props r).fire := hs.static.fire r
        refine Or.inr (atFixpoint_of_run (s := s) (by rwa [hfire]) h.good hs.good
          (fun v hv => hsame v (Or.inl hv)) (by rw [hfire]; exact hfix.1) fun v _ => ?_)
        rw [hfire,hfix.2]

theorem LoopInv.markEntailed (h : LoopInv (some ref) s) :
    LoopInv none { s with ctx := trailMarkEntailed s.ctx ref } := by
  have hne : ∀ r ≠ ref, (trailMarkEntailed s.ctx ref).props r = s.ctx.props r := fun r hr => by
    simp [trailMarkEntailed,Ctx.setProp,hr]
  have hself : ((trailMarkEntailed s.ctx ref).props ref).entailed = true := by
    simp [trailMarkEntailed,Ctx.setProp]
  have hid : ∀ r, ((trailMarkEntailed s.ctx ref).props r).propId = (s.ctx.props r).propId := by
    intro r
    by_cases hr : r = ref
    · subst hr
      simp [trailMarkEntailed,Ctx.setProp]
    · rw [hne r hr]
  have hlive : ∀ r, isLive (trailMarkEntailed s.ctx ref) r = isLive s.ctx r := fun r => by
    simp only [isLive,hid]
    rfl
  have hguard : ∀ r, propGuard (trailMarkEntailed s.ctx ref) r = propGuard s.ctx r := fun r => by
    simp only [propGuard,hid]
    rfl
  have hgood : (trailMarkEntailed s.ctx ref).Good := by
    refine ⟨trailMarkEntailed_ok h.good.1 ref,fun r hr v hv => ?_,h.good.2.index⟩
    rw [hid]
    exact h.good.2.guards r (by rwa [← hlive]) v (by rwa [← hguard])
  have hunmarked : ∀ r, ((trailMarkEntailed s.ctx ref).props r).entailed = false → r ≠ ref := by
    rintro r he rfl
    simp [hself] at he
  refine ⟨hgood,fun r hr he => ?_,fun r _ hdue => ?_⟩
  · have hr' := hunmarked r he
    simp only [hne r hr'] at he ⊢
    exact h.watching r hr he
  · have hr' := hunmarked r hdue.entailed
    have he := hdue.entailed
    simp only [hne r hr'] at he ⊢
    have hdue' : Due s.ctx r := ⟨hdue.pool,by rw [← hlive]; exact hdue.live,he,fun gid hgid =>
      hdue.guard gid (by rwa [hguard])⟩
    rcases h.settled r (by simpa using hr') hdue' with hq | hfix
    · exact Or.inl hq
    · refine Or.inr (atFixpoint_of_run (s := s) (W := fun v => r ∈ s.ctx.watchers v) ?_ h.good hgood
        (fun v _ => rfl) ?_ fun v _ => ?_)
      · simp only [hne r hr']
        exact h.watching r hdue.pool he
      · simp only [hne r hr']
        exact hfix.1
      · simp only [hne r hr']
        rw [hfix.2]

theorem LoopInv.congr (h : LoopInv r₀ s) (hctx : s'.ctx = s.ctx) : LoopInv r₀ s' := by
  have hgood : s'.ctx.Good := by rw [hctx]; exact h.good
  refine ⟨hgood,by rw [hctx]; exact h.watching,fun r hne hdue => ?_⟩
  rw [hctx] at hdue ⊢
  rcases h.settled r hne hdue with hq | hfix
  · exact Or.inl hq
  · refine Or.inr (atFixpoint_of_run (s := s) (W := fun v => r ∈ s.ctx.watchers v) ?_ h.good hgood
      (fun v _ => by rw [hctx]) ?_ fun v _ => ?_)
    · rw [hctx]
      exact h.watching r hdue.pool hdue.entailed
    · rw [hctx]
      exact hfix.1
    · rw [hctx,hfix.2]

theorem LoopInv.dequeue (h : LoopInv none s) {q : ℕ → List ℕ} (hq : QueueOk s.ctx q) {lvl : ℕ}
    {rest : List ℕ} (hl : q lvl = ref :: rest) :
    LoopInv (some ref) { s with ctx := takeHead s.ctx lvl ref } := by
  have hs : Static s.ctx (takeHead s.ctx lvl ref) := (takeHead_step s.ctx lvl ref).static
  have hvars : (takeHead s.ctx lvl ref).vars = s.ctx.vars := by
    rw [(takeHead_step s.ctx lvl ref).rest]
  have hgood : (takeHead s.ctx lvl ref).Good := by
    have hquiet := (takeHead_step s.ctx lvl ref).quiet.ok h.good.1 ⟨_,takeHead_ok hq hl⟩
    refine ⟨hquiet.2,hs.guardsOk h.good.2 ?_ ?_⟩ <;> rw [(takeHead_step s.ctx lvl ref).rest]
  refine ⟨hgood,fun r hr he => ?_,fun r hne hdue => ?_⟩
  · simp only [hs.fire,hs.watchers]
    exact h.watching r (by rwa [← hs.poolTop]) (by rwa [← hs.entailed])
  · have hdue' : Due s.ctx r := by
      refine ⟨?_,?_,?_,fun gid hgid => ?_⟩
      · rw [← hs.poolTop]; exact hdue.pool
      · rw [← hs.isLive]; exact hdue.live
      · rw [← hs.entailed]; exact hdue.entailed
      · rw [← hvars]
        exact hdue.guard gid (by rwa [hs.propGuard])
    have hr : r ≠ ref := by simpa using hne
    simp only [takeHead_inQueue,if_neg hr]
    rcases h.settled r (by simp) hdue' with hin | hfix
    · exact Or.inl hin
    · refine Or.inr (atFixpoint_of_run (s := s) (W := fun v => r ∈ s.ctx.watchers v) ?_ h.good hgood
        (fun v _ => by rw [hvars]) ?_ fun v _ => ?_)
      · simp only [hs.fire]
        exact h.watching r hdue'.pool hdue'.entailed
      · simp only [hs.fire]
        exact hfix.1
      · simp only [hs.fire]
        rw [hfix.2]

theorem LoopInv.settle (h : LoopInv (some ref) s)
    (href : Due s.ctx ref → (s.ctx.props ref).inQueue = true ∨ AtFixpoint s ref) :
    LoopInv none s := by
  refine ⟨h.good,h.watching,fun r _ hdue => ?_⟩
  by_cases hr : r = ref
  · subst hr
    exact href hdue
  · exact h.settled r (by simpa using hr) hdue

theorem propEnqueue_queues (c : Ctx) (he : (c.props ref).entailed = false) :
    ((propEnqueue c ref).props ref).inQueue = true := by
  unfold propEnqueue
  dsimp only
  split_ifs with h
  · simpa [he] using h
  · split
    · simp [Ctx.setProp]
    · rename_i _ tail _ _
      by_cases ht : ref = tail
      · subst ht
        simp [Ctx.setProp]
      · simp [Ctx.setProp,ht]
    · simp [Ctx.setProp]

/-- How the loop may end: a conflict is that of a propagator still queued, unless the
propagation was given up. -/
def EndsOk (r : PropResult) (s : Engine) : Prop :=
  r = .conflict ∧ (s.aborted = false →
    ∃ ref, s.conflictProp = some ref ∧ (s.ctx.props ref).inQueue = true)

variable {overBudget : Engine → Bool}

theorem visitProp_spec {n : ℕ} {o : Option PropResult}
    (h : LoopInv (some ref) s) (hpool : ref < s.ctx.poolTop)
    (hv : visitProp overBudget n s ref = some (o,s')) :
    (o = none → LoopInv none s') ∧ ∀ r, o = some r → EndsOk r s' := by
  unfold visitProp at hv
  split at hv
  · rename_i he
    obtain ⟨rfl,rfl⟩ : o = none ∧ s = s' := by simpa [eq_comm] using hv
    refine ⟨fun _ => h.settle fun hdue => ?_,by simp⟩
    have := hdue.entailed
    simp [he] at this
  · rename_i he
    simp only [Bool.not_eq_true] at he
    dsimp only at hv
    split at hv
    · simp only [Option.some.injEq,Prod.mk.injEq] at hv
      obtain ⟨rfl,rfl⟩ := hv
      refine ⟨by simp,fun r hr => ?_⟩
      obtain rfl : PropResult.conflict = r := by simpa using hr
      exact ⟨rfl,by simp⟩
    · have hticks : LoopInv (some ref) { s with fires := s.fires+1, ticks := s.ticks+1 } :=
        h.congr rfl
      cases hgate : gateOf s.ctx ref with
      | shut =>
        simp only [hgate,Option.some.injEq,Prod.mk.injEq] at hv
        obtain ⟨rfl,rfl⟩ := hv
        exact ⟨fun _ => hticks.markEntailed,by simp⟩
      | undecided =>
        simp only [hgate,Option.some.injEq,Prod.mk.injEq] at hv
        obtain ⟨rfl,rfl⟩ := hv
        refine ⟨fun _ => hticks.settle fun hdue => ?_,by simp⟩
        unfold gateOf at hgate
        split at hgate
        · simp at hgate
        · rename_i gid hgid
          obtain ⟨h1,h2⟩ := hdue.guard gid hgid
          simp only at h1 h2
          simp [h1,h2] at hgate
      | through =>
        simp only [hgate] at hv
        obtain ⟨⟨r,t⟩,hfire,heq⟩ := Option.map_eq_some_iff.mp hv
        obtain ⟨hs,hfix⟩ := fireHeld_spec hticks.good (h.watching ref hpool he) he hfire
        have he' : (t.ctx.props ref).entailed = false := by rw [hs.static.entailed]; exact he
        cases r with
        | conflict =>
          obtain ⟨rfl,rfl⟩ := heq
          refine ⟨by simp,fun r hr => ?_⟩
          obtain rfl : PropResult.conflict = r := by simpa using hr
          exact ⟨rfl,fun _ => ⟨ref,rfl,propEnqueue_queues _ he'⟩⟩
        | entailed =>
          obtain ⟨rfl,rfl⟩ := heq
          exact ⟨fun _ => (hticks.stepped (by simp) hs).markEntailed,by simp⟩
        | ok =>
          obtain ⟨rfl,rfl⟩ := heq
          refine ⟨fun _ => (hticks.stepped (by simp) hs).settle fun _ => ?_,by simp⟩
          by_cases hq : (t.ctx.props ref).inQueue = true
          · exact Or.inl hq
          · exact Or.inr (hfix (by simp) (by simpa using hq))

theorem propagateLoop_spec {n : ℕ} {r : PropResult}
    (h : LoopInv none s) (hl : propagateLoop overBudget n s = some (r,s')) :
    (r = .ok → LoopInv none s' ∧ s'.ctx.queue.nonEmptyMask = 0) ∧ (r ≠ .ok → EndsOk r s') := by
  induction n generalizing s with
  | zero => simp [propagateLoop] at hl
  | succ n ih =>
    rw [propagateLoop] at hl
    split at hl
    · rename_i hmask
      obtain ⟨rfl,rfl⟩ := hl
      exact ⟨fun _ => ⟨h,hmask⟩,fun hr => absurd rfl hr⟩
    · rename_i hmask
      obtain ⟨q,hq⟩ := h.good.1.queue
      obtain ⟨lvl,ref,rest,hlvl,_,hdeq⟩ := dequeue_ok hq hmask
      rw [hdeq] at hl
      dsimp only at hl
      have hpool : ref < s.ctx.poolTop := (hq.mem lvl ref (by rw [hlvl]; simp)).2.2
      have hinv := h.dequeue hq hlvl
      split at hl
      · simp at hl
      · rename_i r' t hv
        simp only [Option.some.injEq,Prod.mk.injEq] at hl
        obtain ⟨rfl,rfl⟩ := hl
        have hend := (visitProp_spec hinv hpool hv).2 r' rfl
        refine ⟨fun hr => ?_,fun _ => hend⟩
        have := hend.1
        rw [hr] at this
        simp at this
      · rename_i t hv
        exact ih ((visitProp_spec hinv hpool hv).1 rfl) hl

/-- When propagation succeeds the queue is empty and no due propagator would tighten or
conflict; when it finds a conflict and was not given up, the propagator that found it is
still queued. -/
theorem dvsSolverPropagate_fixpoint {overBudget : Engine → Bool} {n : ℕ} {r : PropResult}
    (hgood : s.ctx.Good) (hwatch : Watching s.ctx)
    (hstale : ∀ r, Due s.ctx r → (s.ctx.props r).inQueue = true ∨ AtFixpoint s r)
    (h : dvsSolverPropagate overBudget n s = some (r,s')) :
    (r = .ok → s'.ctx.queue.nonEmptyMask = 0 ∧
      (∀ l, s'.ctx.queue.heads l = none ∧ s'.ctx.queue.tails l = none) ∧
      (∀ p, (s'.ctx.props p).inQueue = false) ∧ ∀ p, Due s'.ctx p → AtFixpoint s' p) ∧
    (r = .conflict → s'.aborted = false →
      ∃ p, s'.conflictProp = some p ∧ (s'.ctx.props p).inQueue = true) := by
  have hinv : LoopInv none s := ⟨hgood,hwatch,fun r _ => hstale r⟩
  unfold dvsSolverPropagate at h
  split at h
  · rename_i ha
    obtain ⟨rfl,rfl⟩ := h
    exact ⟨by simp,fun _ h => by simp [ha] at h⟩
  · obtain ⟨hok,hend⟩ := propagateLoop_spec (s := { s with conflictProp := none, conflictClause := none })
      (hinv.congr rfl) h
    refine ⟨fun hr => ?_,fun hr ha => (hend (by simp [hr])).2 ha⟩
    obtain ⟨hinv',hmask⟩ := hok hr
    obtain ⟨q,hq⟩ := hinv'.good.1.queue
    have hnil : ∀ l, q l = [] := fun l => by
      by_contra hne
      have := (hq.mask l).mpr hne
      simp [hmask] at this
    have hout : ∀ p, (s'.ctx.props p).inQueue = false := fun p => by
      by_contra hp
      have := hq.queued p (by simpa using hp)
      simp [hnil] at this
    refine ⟨hmask,fun l => ?_,hout,fun p hdue => ?_⟩
    · rw [hq.heads_eq,hq.tail,hnil]
      exact ⟨rfl,rfl⟩
    · exact (hinv'.settled p (by simp) hdue).resolve_left (by simp [hout p])

def fireBoundsLe32 (x y : ℕ) : Fire :=
  .read y fun vy => .tighten .ub32 x (vy.hi.signExtend 64) fun r =>
  if r ≠ .ok then .done r
  else .read x fun vx => .tighten .lb32 y (vx.lo.signExtend 64) fun r =>
  if r ≠ .ok then .done r
  else .read x fun vx => .read y fun vy => .done (if vx.hi.sle vy.lo then .entailed else .ok)

theorem fireBoundsLe32_within {W : ℕ → Prop} {x y : ℕ} (hx : W x) (hy : W y) :
    (fireBoundsLe32 x y).Within W := by
  refine ⟨hy,fun vy => ⟨hx,rfl,fun r => ?_⟩⟩
  dsimp only
  split_ifs
  · trivial
  · refine ⟨hx,fun vx => ⟨hy,rfl,fun r => ?_⟩⟩
    dsimp only
    split_ifs
    · trivial
    · exact ⟨hx,fun _ => ⟨hy,fun _ => trivial⟩⟩

def twoProps (v₀ v₁ : BitVec 32 × BitVec 32) (f₀ f₁ : Fire) (w : ℕ → List ℕ) : Ctx where
  vars := fun i => ⟨if i = 0 then v₀.1 else v₁.1,if i = 0 then v₀.2 else v₁.2,(0#64,0#64),8,
    false,false,false,false⟩
  nVars := 2
  props := fun r => ⟨none,r,if r = 0 then 0 else 1,false,false,if r = 0 then f₀ else f₁⟩
  poolTop := 2
  nProps := 2
  propRefs := fun i => if i < 2 then some i else none
  propCapacity := 2
  guardVars := fun _ => none
  guardIx := none
  guardDirty := false
  growable := true
  watchers := w
  queue := .empty
  unassignedMask := 3#64
  dynamic := []
  trailTop := none
  trailCount := 0
  entailTop := none
  levelMarks := fun _ => ⟨0,none,0,none⟩
  decisionLevel := 0
  currentPropRef := none
  currentFlags := 0

def twoPropsQueued (v₀ v₁ : BitVec 32 × BitVec 32) (f₀ f₁ : Fire) (w : ℕ → List ℕ) : Engine where
  ctx := propEnqueue (propEnqueue (twoProps v₀ v₁ f₀ f₁ w) 0) 1
  db := none
  aborted := false
  conflictProp := none
  conflictClause := none
  fires := 0
  ticks := 0

theorem twoPropsQueued_ok (v₀ v₁ : BitVec 32 × BitVec 32) (f₀ f₁ : Fire) {w : ℕ → List ℕ}
    (hw : ∀ v, ∀ r ∈ w v, r < 2) : (twoPropsQueued v₀ v₁ f₀ f₁ w).ctx.Good ∧
      Static (twoProps v₀ v₁ f₀ f₁ w) (twoPropsQueued v₀ v₁ f₀ f₁ w).ctx ∧
      ∀ r < 2, ((twoPropsQueued v₀ v₁ f₀ f₁ w).ctx.props r).inQueue = true := by
  have hg : (twoProps v₀ v₁ f₀ f₁ w).Good := by
    refine ⟨⟨⟨_,QueueOk.of_empty rfl fun _ => rfl⟩,⟨by simp [twoProps],by simp [twoProps]⟩,
      fun r _ => ?_,hw,fun i r h => ?_⟩,⟨fun r _ v hv => ?_,fun ix h => ?_⟩⟩
    · simp only [twoProps,nLevels]
      split_ifs <;> omega
    · simp only [twoProps] at h ⊢
      split_ifs at h
      simp_all
    · simp [propGuard,twoProps] at hv
    · simp [twoProps] at h
  have h0 : 0 < (twoProps v₀ v₁ f₀ f₁ w).poolTop := by simp [twoProps]
  obtain ⟨h1,h1'⟩ := propEnqueue_enqueued hg h0
  have h1p : 1 < (propEnqueue (twoProps v₀ v₁ f₀ f₁ w) 0).poolTop := by
    rw [h1.static.poolTop]
    simp [twoProps]
  obtain ⟨h2,h2'⟩ := propEnqueue_enqueued h1.good h1p
  refine ⟨h2.good,h1.static.trans h2.static,fun r hr => ?_⟩
  obtain rfl | rfl : r = 0 ∨ r = 1 := by omega
  · exact h2.kept 0 (h1' rfl)
  · exact h2' (by rw [h1.static.entailed]; rfl)

/-- `x <= y` and `y <= x` on `[0,9]` and `[0,4]` come to a fixpoint. -/
theorem dvsSolverPropagate_fixpoint_le : ∃ s', dvsSolverPropagate (fun _ => false) 8
    (twoPropsQueued (0#32,9#32) (0#32,4#32) (fireBoundsLe32 0 1) (fireBoundsLe32 1 0)
      fun v => if v < 2 then [0,1] else []) = some (.ok,s') ∧
    ∀ p, Due s'.ctx p → AtFixpoint s' p := by
  obtain ⟨s,hs⟩ : ∃ s, s = twoPropsQueued (0#32,9#32) (0#32,4#32) (fireBoundsLe32 0 1)
      (fireBoundsLe32 1 0) fun v => if v < 2 then [0,1] else [] := ⟨_,rfl⟩
  obtain ⟨hgood,hst,hq⟩ := twoPropsQueued_ok (0#32,9#32) (0#32,4#32)
    (fireBoundsLe32 0 1) (fireBoundsLe32 1 0) (w := fun v => if v < 2 then [0,1] else []) fun v r hr => by
      split_ifs at hr
      · simp at hr; omega
      · simp at hr
  rw [← hs] at hgood hst hq ⊢
  have hwatch : Watching s.ctx := by
    intro r hr _
    rw [hst.fire,hst.watchers]
    simp only [twoProps]
    have hlt : r < 2 := by rwa [hst.poolTop] at hr
    obtain rfl | rfl : r = 0 ∨ r = 1 := by omega
    · exact fireBoundsLe32_within (by simp) (by simp)
    · exact fireBoundsLe32_within (by simp) (by simp)
  have hres : ((dvsSolverPropagate (fun _ => false) 8 s).map Prod.fst) = some .ok := by
    rw [hs]
    decide
  obtain ⟨⟨r,s'⟩,hrun,hr⟩ := Option.map_eq_some_iff.mp hres
  obtain rfl : r = .ok := hr
  refine ⟨s',hrun,?_⟩
  exact ((dvsSolverPropagate_fixpoint hgood hwatch (fun r hdue => Or.inl (hq r (by
    have := hdue.pool
    rwa [hst.poolTop] at this))) hrun).1 rfl).2.2.2

/-- A fire that reads a variable it does not watch is left with work to do, and so is a
watcher of a variable that a fire emptied and said nothing. A propagator whose fire
emptied a domain finds the conflict twice, and then its relation entailed. -/
theorem dvsSolverPropagate_unwatched_unreported_again :
    (dvsSolverPropagate (fun _ => false) 8 (twoPropsQueued (0#32,9#32) (0#32,4#32)
        (.read 1 fun v => .tighten .lb32 0 (v.lo.signExtend 64) .done)
        (.tighten .lb32 1 2#64 .done) fun v => if v < 2 then [v] else [])).map
      (fun o => (o.1,(o.2.ctx.props 0).entailed,
        decide (((o.2.ctx.props 0).fire.run o.2).2.ctx.vars 0 = o.2.ctx.vars 0))) =
        some (.ok,false,false) ∧
    (dvsSolverPropagate (fun _ => false) 8 (twoPropsQueued (5#32,9#32) (0#32,8#32)
        (.read 0 fun v => .tighten .ub32 1 (v.hi.signExtend 64) .done)
        (.tighten .ub32 0 3#64 fun _ => .done .ok)
        fun v => if v = 0 then [0,1] else if v = 1 then [0] else [])).map
      (fun o => (o.1,(o.2.ctx.props 0).entailed,
        decide (((o.2.ctx.props 0).fire.run o.2).2.ctx.vars 1 = o.2.ctx.vars 1))) =
        some (.ok,false,false) ∧
    ((dvsSolverPropagate (fun _ => false) 8 (twoPropsQueued (7#32,9#32) (0#32,4#32)
        (fireBoundsLe32 0 1) (.done .ok) fun v => if v < 2 then [0] else [])).bind fun o =>
      (dvsSolverPropagate (fun _ => false) 8 o.2).bind fun o' =>
      (dvsSolverPropagate (fun _ => false) 8 o'.2).map fun o'' =>
        (o.1,o'.1,o'.2.aborted,o''.1)) = some (.conflict,.conflict,false,.ok) := by
  refine ⟨by decide,by decide,by decide⟩

end Loop

end Solver
end DvSolve
