import DvSolve.Checkpoint
import DvSolve.TrailSem

/-! A restore takes the context back to its checkpoint.
Two relations lead from the state at a checkpoint to every later one: the trail since then
undoes to the bounds of then, and the tables have only grown at their ends. -/
namespace DvSolve
namespace Solver

open Function (update update_of_ne)

variable {fire : Fire} {priority : ℕ} {watches : List ℕ}

/-- The records of `c` continue those of `s`, and undoing the entries since gives the
bounds of the variables that `s` has. -/
structure Since (s c : Ctx) : Prop where
  dynamic : s.dynamic <+: c.dynamic
  nVars : s.nVars ≤ c.nVars
  trail : ∃ l, Chain (fun a => (trailAt c a).isSome) (trailPrev c) s.dynamic.length s.trailTop
    c.trailTop l ∧ ∀ i < s.nVars, (l.foldl undoEntry c).vars i = s.vars i
  entail : ∃ l, Chain (fun a => (entailAt c a).isSome) (entailPrev c) s.dynamic.length s.entailTop
    c.entailTop l

section Since

variable {s c c' : Ctx}

theorem Since.refl (s : Ctx) : Since s s :=
  ⟨List.prefix_rfl,le_refl _,⟨[],Chain.nil _ _ _ _,fun _ _ => rfl⟩,⟨[],Chain.nil _ _ _ _⟩⟩

/-- A step that leaves the records and the bounds of old variables alone. -/
theorem Since.same (h : Since s c) (hd : c'.dynamic = c.dynamic) (ht : c'.trailTop = c.trailTop)
    (he : c'.entailTop = c.entailTop) (hn : c.nVars ≤ c'.nVars)
    (hv : ∀ i < c.nVars, c'.vars i = c.vars i) : Since s c' := by
  have hat : ∀ a, trailAt c' a = trailAt c a := fun a => by rw [trailAt,trailAt,hd]
  have hent : ∀ a, entailAt c' a = entailAt c a := fun a => by rw [entailAt,entailAt,hd]
  have hprev : trailPrev c' = trailPrev c := funext fun a => by rw [trailPrev,trailPrev,hat]
  have heprev : entailPrev c' = entailPrev c := funext fun a => by rw [entailPrev,entailPrev,hent]
  obtain ⟨l,hl,hlv⟩ := h.trail
  obtain ⟨x,hx⟩ := h.entail
  refine ⟨by rw [hd]; exact h.dynamic,h.nVars.trans hn,⟨l,?_,fun i hi => ?_⟩,⟨x,?_⟩⟩
  · simp only [hat,hprev,ht]
    exact hl
  · rw [← hlv i hi]
    exact undoEntries_var (fun a _ => hat a) (hv i (hi.trans_le h.nVars))
  · simp only [hent,heprev,he]
    exact hx

theorem Since.quiet (h : Since s c) (hq : Quiet c c') : Since s c' := by
  rw [hq.rest]
  exact h.same rfl rfl rfl (le_refl _) fun _ _ => rfl

theorem Since.pushEntry (h : Since s c) {id : ℕ} {v : Variable} {e : TrailEntry}
    (hid : e.varId = id) (hv : setBound v e.kind e.oldValue = c.vars id) :
    Since s (pushEntry (c.setVar id v) e) := by
  have hd : c.dynamic <+: (Solver.pushEntry (c.setVar id v) e).dynamic := List.prefix_append _ _
  obtain ⟨l,hl,hlv⟩ := h.trail
  obtain ⟨x,hx⟩ := h.entail
  obtain ⟨hp,hpv⟩ := hl.trail_push h.dynamic.length_le hid hv
  exact ⟨h.dynamic.trans hd,h.nVars,⟨_,hp,fun i hi => (congrFun hpv i).trans (hlv i hi)⟩,
    ⟨x,(hx.entail_of_prefix hd).1⟩⟩

theorem Since.markEntailed (h : Since s c) (ref : ℕ) : Since s (trailMarkEntailed c ref) := by
  have hd : c.dynamic <+: (trailMarkEntailed c ref).dynamic := List.prefix_append _ _
  obtain ⟨l,hl,hlv⟩ := h.trail
  obtain ⟨x,hx⟩ := h.entail
  refine ⟨h.dynamic.trans hd,h.nVars,⟨l,hl.trail_of_prefix hd,fun i hi => ?_⟩,
    ⟨_,(hx.entail_push h.dynamic.length_le ref).1⟩⟩
  rw [← hlv i hi]
  exact undoEntries_var (fun a ha => trailAt_of_extends hd (lt_of_trailAt (hl.live a ha))) rfl

theorem Since.op (h : Since s c) (hok : c.Ok) {o : Op} (ho : o.Valid c) : Since s (o.run c) := by
  obtain ⟨-,⟨-,hq | ⟨id,v,e,hid,hv,hq⟩⟩ | ⟨ref,rfl⟩⟩ := Op.run_cases hok ho
  · exact h.quiet hq
  · exact (h.pushEntry hid hv).quiet hq
  · exact h.markEntailed ref

theorem Since.trailBacktrack (h : Since s c) (hs : TopsOk s) (hlevel : s.decisionLevel ≤ c.decisionLevel)
    (hmark : c.levelMarks s.decisionLevel = markOf s) {q : ℕ → List ℕ} (hq : QueueOk c q) :
    ∃ u new, (∀ i < s.nVars, u i = s.vars i) ∧
      trailBacktrack c s.decisionLevel = some (restored { s with vars := u } new c) := by
  obtain ⟨l,hl,hlv⟩ := h.trail
  obtain ⟨x,hx⟩ := h.entail
  refine ⟨(l.foldl undoEntry c).vars,x.filterMap (entailRef c),hlv,?_⟩
  have hev : Evolves { s with vars := (l.foldl undoEntry c).vars, levelMarks := c.levelMarks }
      (x.filterMap (entailRef c)) c :=
    ⟨hlevel,hmark,fun _ _ => rfl,h.dynamic,⟨l,hl,rfl⟩,⟨x,hx,fun _ => Iff.rfl⟩⟩
  exact hev.trailBacktrack ⟨hs.trail,hs.entail⟩ hq

end Since

structure SameProp (p p' : Propagator) : Prop where
  fire : p'.fire = p.fire
  propId : p'.propId = p.propId
  priority : p'.priority = p.priority

theorem SameProp.refl (p : Propagator) : SameProp p p := ⟨rfl,rfl,rfl⟩

theorem SameProp.trans {p p' p'' : Propagator} (h : SameProp p p') (h' : SameProp p' p'') :
    SameProp p p'' :=
  ⟨h'.fire.trans h.fire,h'.propId.trans h.propId,h'.priority.trans h.priority⟩

def IndexOk (c : Ctx) : Prop :=
  ∀ ix, c.guardIx = some ix → c.guardDirty = false → ix.props = guardedBy c.guardVars ix.nProps

structure SameTables (c c' : Ctx) : Prop where
  nVars : c'.nVars = c.nVars
  nProps : c'.nProps = c.nProps
  poolTop : c'.poolTop = c.poolTop
  propCapacity : c'.propCapacity = c.propCapacity
  propRefs : c'.propRefs = c.propRefs
  guardVars : c'.guardVars = c.guardVars
  watchers : c'.watchers = c.watchers
  decisionLevel : c'.decisionLevel = c.decisionLevel
  levelMarks : c'.levelMarks = c.levelMarks
  index : IndexOk c → IndexOk c'
  props : ∀ r, SameProp (c.props r) (c'.props r)

theorem SameTables.refl (c : Ctx) : SameTables c c :=
  ⟨rfl,rfl,rfl,rfl,rfl,rfl,rfl,rfl,rfl,fun hix => hix,fun _ => .refl _⟩

theorem SameTables.trans {c c' c'' : Ctx} (h : SameTables c c') (h' : SameTables c' c'') :
    SameTables c c'' := by
  refine ⟨?_,?_,?_,?_,?_,?_,?_,?_,?_,fun hix => h'.index (h.index hix),
    fun r => (h.props r).trans (h'.props r)⟩
  · rw [h'.nVars,h.nVars]
  · rw [h'.nProps,h.nProps]
  · rw [h'.poolTop,h.poolTop]
  · rw [h'.propCapacity,h.propCapacity]
  · rw [h'.propRefs,h.propRefs]
  · rw [h'.guardVars,h.guardVars]
  · rw [h'.watchers,h.watchers]
  · rw [h'.decisionLevel,h.decisionLevel]
  · rw [h'.levelMarks,h.levelMarks]

section Tables

variable (c : Ctx)

theorem setProp_tables (ref : ℕ) {p : Propagator} (h : SameProp (c.props ref) p) :
    SameTables c (c.setProp ref p) := by
  refine ⟨rfl,rfl,rfl,rfl,rfl,rfl,rfl,rfl,rfl,fun hix => hix,fun r => ?_⟩
  by_cases hr : r = ref
  · subst hr
    simpa [Ctx.setProp] using h
  · simpa [Ctx.setProp,hr] using SameProp.refl _

theorem setQueue_tables (queue : PropQueue) : SameTables c { c with queue := queue } :=
  ⟨rfl,rfl,rfl,rfl,rfl,rfl,rfl,rfl,rfl,fun hix => hix,fun _ => .refl _⟩

theorem propEnqueue_tables (ref : ℕ) : SameTables c (propEnqueue c ref) := by
  have h1 : SameTables c (c.setProp ref { c.props ref with inQueue := true, queueNext := none }) :=
    setProp_tables c ref ⟨rfl,rfl,rfl⟩
  have h2 : ∀ c tail, SameTables c (c.setProp tail { c.props tail with queueNext := some ref }) :=
    fun c tail => setProp_tables c tail ⟨rfl,rfl,rfl⟩
  unfold propEnqueue
  dsimp only
  split_ifs
  · exact .refl c
  · split
    · exact h1.trans (setQueue_tables _ _)
    · exact (h1.trans (h2 _ _)).trans (setQueue_tables _ _)
    · exact h1

theorem tables_waking : Waking (SameTables c) :=
  ⟨fun h _ => h.trans (propEnqueue_tables _ _),
    fun _ _ h => h.trans ⟨rfl,rfl,rfl,rfl,rfl,rfl,rfl,rfl,rfl,fun _ _ hix _ => by
      obtain rfl := Option.some.inj hix
      rfl,fun _ => .refl _⟩,
    fun _ h => h.trans ⟨rfl,rfl,rfl,rfl,rfl,rfl,rfl,rfl,rfl,fun hix => hix,fun _ => .refl _⟩⟩

theorem Op.run_tables (o : Op) : SameTables c (o.run c) := by
  cases o with
  | tighten t id b =>
    refine (tables_waking c).ctxTighten (.refl c) (fun k new => ?_) t b
    rcases trailRecord_cases k c id new with hr | ⟨v,e,_,_,hr⟩
    · rw [hr]
      exact .refl c
    · rw [hr]
      exact ⟨rfl,rfl,rfl,rfl,rfl,rfl,rfl,rfl,rfl,fun hix => hix,fun _ => .refl _⟩
  | hole id removed => exact ⟨rfl,rfl,rfl,rfl,rfl,rfl,rfl,rfl,rfl,fun hix => hix,fun _ => .refl _⟩
  | markEntailed ref =>
    have h1 : SameTables c (c.setProp ref { c.props ref with entailed := true }) :=
      setProp_tables c ref ⟨rfl,rfl,rfl⟩
    exact h1.trans ⟨rfl,rfl,rfl,rfl,rfl,rfl,rfl,rfl,rfl,fun hix => hix,fun _ => .refl _⟩
  | enqueue ref => exact propEnqueue_tables c ref
  | setReason ref flags => exact ⟨rfl,rfl,rfl,rfl,rfl,rfl,rfl,rfl,rfl,fun hix => hix,fun _ => .refl _⟩

end Tables

structure TablesOk (c : Ctx) : Prop where
  ids : ∀ i r, c.propRefs i = some r → i < c.nProps ∧ (c.props r).propId = i
  cap : c.nProps ≤ c.propCapacity ∧ c.propCapacity ≤ maxProps
  noWatch : ∀ v, c.nVars ≤ v → c.watchers v = []
  noGuard : ∀ i, c.propCapacity ≤ i → c.guardVars i = none
  index : IndexOk c

theorem SameTables.ok {c c' : Ctx} (h : SameTables c c') (hok : TablesOk c) : TablesOk c' := by
  refine ⟨fun i r hr => ?_,?_,fun v hv => ?_,fun i hi => ?_,h.index hok.index⟩
  · rw [h.propRefs] at hr
    rw [h.nProps,(h.props r).propId]
    exact hok.ids i r hr
  · rw [h.nProps,h.propCapacity]
    exact hok.cap
  · rw [h.nVars] at hv
    rw [h.watchers]
    exact hok.noWatch v hv
  · rw [h.propCapacity] at hi
    rw [h.guardVars]
    exact hok.noGuard i hi

/-- What `_alloc_prop` leaves: the propagator at the end of the pool under the next id, at
the head of the chains of what it watches, and queued. -/
structure Allocated (c : Ctx) (fire : Fire) (priority : ℕ) (watches : List ℕ) (c' : Ctx) : Prop where
  rest : c' = { c with
    props := c'.props, queue := c'.queue, propCapacity := c'.propCapacity
    propRefs := update c.propRefs c.nProps (some c.poolTop)
    nProps := c.nProps+1, poolTop := c.poolTop+1
    watchers := fun v => if v ∈ watches then c.poolTop :: c.watchers v else c.watchers v }
  cap : c.propCapacity ≤ c'.propCapacity ∧ c.nProps < c'.propCapacity ∧ c'.propCapacity ≤ maxProps
  old : ∀ r, r ≠ c.poolTop → SameProp (c.props r) (c'.props r)
  new : SameProp ⟨none,c.nProps,priority,false,false,fire⟩ (c'.props c.poolTop)
  queue : ∃ q, QueueOk c' q

section Alloc

variable {c c' : Ctx}

theorem roomProp_spec (hok : TablesOk c) (h : roomProp c = some c') :
    c' = { c with propCapacity := c'.propCapacity } ∧ c.propCapacity ≤ c'.propCapacity ∧
      c.nProps < c'.propCapacity ∧ c'.propCapacity ≤ maxProps := by
  unfold roomProp at h
  split_ifs at h with hlt hmax
  · obtain rfl := Option.some.inj h
    exact ⟨rfl,le_refl _,hlt,hok.cap.2⟩
  · obtain rfl := Option.some.inj h
    have hrefs : (fun i => if i < c.propCapacity then c.propRefs i else none) = c.propRefs := by
      funext i
      split_ifs with hi
      · rfl
      · cases hr : c.propRefs i with
        | none => rfl
        | some r =>
          have := (hok.ids i r hr).1
          have := hok.cap.1
          omega
    have hguards : (fun i => if i < c.propCapacity then c.guardVars i else none) = c.guardVars := by
      funext i
      split_ifs with hi
      · rfl
      · exact (hok.noGuard i (by omega)).symm
    rw [hrefs,hguards]
    refine ⟨rfl,?_,?_,?_⟩ <;> simp only [nextPropCap] <;> omega

theorem roomProp_none (hok : TablesOk c) : roomProp c = none ↔ maxProps ≤ c.nProps := by
  have hcap := hok.cap
  unfold roomProp
  split_ifs with hlt hmax
  · simp
    omega
  · simp
    omega
  · simp
    omega

theorem placeProp_queue {q : ℕ → List ℕ} (hq : QueueOk c q) (fire : Fire) (priority : ℕ)
    (watches : List ℕ) : QueueOk (placeProp c fire priority watches) q := by
  have hne : ∀ l, ∀ r ∈ q l, r ≠ c.poolTop := fun l r hr => (hq.mem l r hr).2.2.ne
  have hold : ∀ r, r ≠ c.poolTop → (placeProp c fire priority watches).props r = c.props r :=
    fun r hr => by simp [placeProp,Ctx.setProp,hr]
  refine ⟨fun l => ?_,hq.tail,hq.mask,fun l r hr => ?_,fun r hr => ?_,hq.nodup,hq.levels⟩
  · exact (hq.chain l).congr fun r hr => by
      rw [queueNextOf,queueNextOf,hold r (hne l r hr)]
  · obtain ⟨h1,h2,h3⟩ := hq.mem l r hr
    rw [hold r (hne l r hr)]
    exact ⟨h1,h2,h3.trans (Nat.lt_succ_self _)⟩
  · by_cases he : r = c.poolTop
    · subst he
      simp [placeProp,Ctx.setProp] at hr
    · rw [hold r he] at hr ⊢
      exact hq.queued r hr

theorem allocProp_spec (hctx : c.Ok) (hok : TablesOk c) (hp : priority < nLevels)
    (h : allocProp c fire priority watches = some c') :
    Allocated c fire priority watches c' := by
  obtain ⟨c₁,h1,h⟩ := Option.map_eq_some_iff.mp h
  obtain ⟨hc₁,hle,hlt,hmax⟩ := roomProp_spec hok h1
  generalize hk : c₁.propCapacity = cap at hc₁ hle hlt hmax
  subst hc₁
  obtain ⟨q,hq⟩ := hctx.queue
  have hq1 : QueueOk { c with propCapacity := cap } q := hq.congr rfl rfl fun _ => ⟨rfl,rfl,rfl⟩
  have hq2 := placeProp_queue hq1 fire priority watches
  have hnew : (placeProp { c with propCapacity := cap } fire priority watches).props c.poolTop =
      ⟨none,c.nProps,priority,false,false,fire⟩ := by
    simp [placeProp,Ctx.setProp]
  have hlast : c.poolTop < (placeProp { c with propCapacity := cap } fire priority watches).poolTop :=
    Nat.lt_succ_self _
  have hq3 := propEnqueue_ok hq2 hlast (by rw [hnew]; exact hp)
  have hprops := (propEnqueue_tables (placeProp { c with propCapacity := cap } fire priority watches)
    c.poolTop).props
  have hrest := (propEnqueue_step hq2 c.poolTop).rest
  subst h
  generalize propEnqueue (placeProp { c with propCapacity := cap } fire priority watches) c.poolTop = e
    at hq3 hprops hrest ⊢
  rw [hrest] at hq3 hprops ⊢
  refine ⟨?_,⟨hle,hlt,hmax⟩,fun r hr => ?_,?_,_,hq3.congr rfl rfl fun _ => ⟨rfl,rfl,rfl⟩⟩
  · simp only [placeProp,Ctx.setProp,if_pos hlt]
  · have := hprops r
    rwa [show (placeProp { c with propCapacity := cap } fire priority watches).props r = c.props r by
      simp [placeProp,Ctx.setProp,hr]] at this
  · have := hprops c.poolTop
    rwa [hnew] at this

theorem Allocated.ok (h : Allocated c fire priority watches c') (hctx : c.Ok)
    (hp : priority < nLevels) : c'.Ok := by
  have hpool : c'.poolTop = c.poolTop+1 := by rw [h.rest]
  refine ⟨h.queue,?_,fun r hr => ?_,fun v r hr => ?_,fun i r hr => ?_⟩
  · rw [h.rest]
    exact ⟨hctx.tops.trail,hctx.tops.entail⟩
  · by_cases he : r = c.poolTop
    · rw [he,h.new.priority]
      exact hp
    · rw [(h.old r he).priority]
      exact hctx.priority r (by omega)
  · rw [h.rest] at hr
    dsimp only at hr
    split_ifs at hr
    · rcases List.mem_cons.mp hr with rfl | hr
      · omega
      · exact (hctx.watchers v r hr).trans (by omega)
    · exact (hctx.watchers v r hr).trans (by omega)
  · rw [h.rest] at hr
    by_cases hi : i = c.nProps
    · rw [hi] at hr
      simp only [Function.update_self,Option.some.injEq] at hr
      omega
    · simp only [update_of_ne hi] at hr
      exact (hctx.refs i r hr).trans (by omega)

theorem Allocated.tables (h : Allocated c fire priority watches c') (hctx : c.Ok) (hok : TablesOk c)
    (hw : ∀ v ∈ watches, v < c.nVars) : TablesOk c' := by
  have hn : c'.nProps = c.nProps+1 := by rw [h.rest]
  have hix : IndexOk c' := by
    rw [h.rest]
    exact hok.index
  refine ⟨fun i r hr => ?_,?_,fun v hv => ?_,fun i hi => ?_,hix⟩
  · rw [h.rest] at hr
    by_cases hi : i = c.nProps
    · rw [hi] at hr ⊢
      simp only [Function.update_self,Option.some.injEq] at hr
      subst hr
      exact ⟨by omega,h.new.propId⟩
    · simp only [update_of_ne hi] at hr
      obtain ⟨h1,h2⟩ := hok.ids i r hr
      rw [(h.old r (hctx.refs i r hr).ne).propId]
      exact ⟨by omega,h2⟩
  · obtain ⟨_,h2,h3⟩ := h.cap
    exact ⟨by omega,h3⟩
  · rw [h.rest] at hv ⊢
    have hv' : c.nVars ≤ v := hv
    have hnot : v ∉ watches := fun hmem => absurd (hw v hmem) (by omega)
    simp only [if_neg hnot]
    exact hok.noWatch v hv'
  · have : c'.guardVars = c.guardVars := by rw [h.rest]
    rw [this]
    exact hok.noGuard i (h.cap.1.trans hi)

theorem addVar_tables (ht : TablesOk c) (v : Variable) : TablesOk (addVar c v) := by
  refine ⟨ht.ids,ht.cap,fun w hw => ?_,ht.noGuard,ht.index⟩
  have hw' : c.nVars+1 ≤ w := hw
  have hold := ht.noWatch w (by omega)
  simp only [addVar,Ctx.setVar]
  rw [update_of_ne (by omega)]
  exact hold

theorem addVar_ctx_ok (hok : c.Ok) (v : Variable) : (addVar c v).Ok := by
  obtain ⟨q,hq⟩ := hok.queue
  refine ⟨⟨q,hq.congr rfl rfl fun _ => ⟨rfl,rfl,rfl⟩⟩,⟨hok.tops.trail,hok.tops.entail⟩,
    hok.priority,fun w r hr => hok.watchers w r ?_,hok.refs⟩
  by_cases hw : w = c.nVars
  · simp [addVar,hw] at hr
  · simpa [addVar,hw] using hr

end Alloc

/-- The tables of a session are well formed; offsets that hold no propagator read as one
of some level. -/
structure Session.Ok (s : Session) : Prop where
  ctx : s.ctx.Ok
  priority : ∀ r, (s.ctx.props r).priority < nLevels
  tables : TablesOk s.ctx
  mod : ∀ p ∈ s.modLinks, p < s.ctx.nProps
  mul : ∀ p ∈ s.mulLinks, p < s.ctx.nProps
  memo : ∀ r ∈ s.extMemo, r < s.ctx.nVars
  initial : ∀ r, s.initialVars = some r → r < s.ctx.poolTop
  floor : s.poolFloor ≤ s.ctx.poolTop

/-- The tables of `c` have grown at their ends from those of `s`, a state at a checkpoint
that is still open. -/
structure Kept (s c : Session) : Prop where
  nVars : s.ctx.nVars ≤ c.ctx.nVars
  nProps : s.ctx.nProps ≤ c.ctx.nProps
  poolTop : s.ctx.poolTop ≤ c.ctx.poolTop
  cap : s.ctx.propCapacity ≤ c.ctx.propCapacity
  nClauses : s.nClauses ≤ c.nClauses
  floor : c.poolFloor = s.poolFloor
  refs : ∀ i < s.ctx.nProps, c.ctx.propRefs i = s.ctx.propRefs i
  props : ∀ r < s.ctx.poolTop, SameProp (s.ctx.props r) (c.ctx.props r)
  watchers : ∀ v < s.ctx.nVars, ∃ new, c.ctx.watchers v = new ++ s.ctx.watchers v ∧
    ∀ r ∈ new, s.ctx.poolTop ≤ r
  guards : ∀ i < s.ctx.nProps, c.ctx.guardVars i = s.ctx.guardVars i
  unguarded : ∀ i, c.ctx.guardVars i = none → s.ctx.guardVars i = none
  mod : ∃ new, c.modLinks = s.modLinks ++ new ∧ ∀ p ∈ new, s.ctx.nProps ≤ p
  mul : ∃ new, c.mulLinks = s.mulLinks ++ new ∧ ∀ p ∈ new, s.ctx.nProps ≤ p
  memo : ∃ new, c.extMemo = s.extMemo ++ new ∧ ∀ r ∈ new, s.ctx.nVars ≤ r

theorem Kept.refl (s : Session) : Kept s s where
  nVars := le_refl _
  nProps := le_refl _
  poolTop := le_refl _
  cap := le_refl _
  nClauses := le_refl _
  floor := rfl
  refs _ _ := rfl
  props _ _ := .refl _
  watchers _ _ := ⟨[],rfl,by simp⟩
  guards _ _ := rfl
  unguarded _ h := h
  mod := ⟨[],by simp,by simp⟩
  mul := ⟨[],by simp,by simp⟩
  memo := ⟨[],by simp,by simp⟩

/-- An operation is one the context can be asked for while the checkpoints at `open`
are: what is new in the innermost scope may be guarded and linked. -/
def Act.Valid (s : Session) (nVars nProps : ℕ) : Act → Prop
  | .newVar _ => True
  | .addProp _ priority watches => priority < nLevels ∧ ∀ v ∈ watches, v < s.ctx.nVars
  | .setGuard ref _ => nProps ≤ (s.ctx.props ref).propId ∧ (s.ctx.props ref).propId < s.ctx.nProps
  | .take _ => True
  | .trail o => o.Valid s.ctx
  | .modLink prop => nProps ≤ prop ∧ prop < s.ctx.nProps
  | .mulLink prop => nProps ≤ prop ∧ prop < s.ctx.nProps
  | .memo r => nVars ≤ r ∧ r < s.ctx.nVars
  | .learn db n e => s.nClauses ≤ { s with db := db, nAnalyses := n, arenaEmpty := e : Session }.nClauses
  | .conflict _ => True
  | .snapshot ref _ => ∀ r, ref = some r → r < s.ctx.poolTop
  | .overwrite _ _ => True

section Acts

variable {s t : Session} {a : Act} {nVars nProps : ℕ}

theorem addProp_cases (hok : s.Ok) (fire : Fire) (watches : List ℕ) (hp : priority < nLevels) :
    (Act.addProp fire priority watches).run s = s ∨
      ∃ c, (Act.addProp fire priority watches).run s = { s with ctx := c } ∧
        Allocated s.ctx fire priority watches c := by
  cases h : allocProp s.ctx fire priority watches with
  | none => exact Or.inl (by simp [Act.run,Session.withCtx,h])
  | some c =>
    exact Or.inr ⟨c,by simp [Act.run,Session.withCtx,h],allocProp_spec hok.ctx hok.tables hp h⟩

theorem SameTables.session_ok (hok : s.Ok) {c : Ctx} (hctx : c.Ok) (ht : SameTables s.ctx c) :
    Session.Ok { s with ctx := c } := by
  refine ⟨hctx,fun r => ?_,ht.ok hok.tables,fun p hp => ?_,fun p hp => ?_,fun r hr => ?_,fun r hr => ?_,?_⟩
  · exact (ht.props r).priority.trans_lt (hok.priority r)
  · exact (hok.mod p hp).trans_eq ht.nProps.symm
  · exact (hok.mul p hp).trans_eq ht.nProps.symm
  · exact (hok.memo r hr).trans_eq ht.nVars.symm
  · exact (hok.initial r hr).trans_eq ht.poolTop.symm
  · exact hok.floor.trans_eq ht.poolTop.symm

theorem addVar_ok (hok : s.Ok) (v : Variable) : (s.withCtx (addVar · v)).Ok :=
  ⟨addVar_ctx_ok hok.ctx v,hok.priority,addVar_tables hok.tables v,hok.mod,hok.mul,
    fun r hr => (hok.memo r hr).trans (Nat.lt_succ_self _),hok.initial,hok.floor⟩

theorem Session.Ok.levels (hok : s.Ok) (cps : List CheckpointMark) (m : ℕ → LevelMark) (l : ℕ) :
    Session.Ok { s with
      checkpoints := cps, ctx := { s.ctx with levelMarks := m, decisionLevel := l } } := by
  obtain ⟨q,hq⟩ := hok.ctx.queue
  exact ⟨⟨⟨q,hq.congr rfl rfl fun _ => ⟨rfl,rfl,rfl⟩⟩,⟨hok.ctx.tops.trail,hok.ctx.tops.entail⟩,
    hok.ctx.priority,hok.ctx.watchers,hok.ctx.refs⟩,hok.priority,
    ⟨hok.tables.ids,hok.tables.cap,hok.tables.noWatch,hok.tables.noGuard,hok.tables.index⟩,hok.mod,
    hok.mul,hok.memo,hok.initial,hok.floor⟩

theorem Act.run_ok (hok : s.Ok) (hv : a.Valid s nVars nProps) : (a.run s).Ok := by
  cases a with
  | newVar v => exact addVar_ok hok v
  | addProp fire priority watches =>
    obtain ⟨hp,hw⟩ := hv
    rcases addProp_cases hok fire watches hp with h | ⟨c,h,hal⟩
    · rw [h]
      exact hok
    · rw [h]
      have hnv : c.nVars = s.ctx.nVars := by rw [hal.rest]
      have hnp : c.nProps = s.ctx.nProps+1 := by rw [hal.rest]
      have hpt : c.poolTop = s.ctx.poolTop+1 := by rw [hal.rest]
      refine ⟨hal.ok hok.ctx hp,fun r => ?_,hal.tables hok.ctx hok.tables hw,fun p hp => ?_,
        fun p hp => ?_,fun r hr => ?_,fun r hr => ?_,?_⟩
      · by_cases hr : r = s.ctx.poolTop
        · rw [hr]
          exact hal.new.priority.trans_lt hp
        · exact (hal.old r hr).priority.trans_lt (hok.priority r)
      · exact (hok.mod p hp).trans (by simp [hnp])
      · exact (hok.mul p hp).trans (by simp [hnp])
      · exact (hok.memo r hr).trans_eq hnv.symm
      · exact (hok.initial r hr).trans (by simp [hpt])
      · exact hok.floor.trans (by simp [hpt])
  | setGuard ref v =>
    obtain ⟨q,hq⟩ := hok.ctx.queue
    simp only [Act.run,Session.withCtx,propSetGuard]
    split_ifs with hid
    · refine ⟨⟨⟨q,hq.congr rfl rfl fun _ => ⟨rfl,rfl,rfl⟩⟩,⟨hok.ctx.tops.trail,hok.ctx.tops.entail⟩,
        hok.ctx.priority,hok.ctx.watchers,hok.ctx.refs⟩,hok.priority,⟨hok.tables.ids,hok.tables.cap,
        hok.tables.noWatch,fun i hi => ?_,fun _ _ hd => absurd hd (by simp)⟩,hok.mod,hok.mul,
        hok.memo,hok.initial,hok.floor⟩
      have hi' : s.ctx.propCapacity ≤ i := hi
      have hne : i ≠ (s.ctx.props ref).propId := by omega
      simpa [hne] using hok.tables.noGuard i hi'
    · exact hok
  | take size =>
    obtain ⟨q,hq⟩ := hok.ctx.queue
    have hle : s.ctx.poolTop ≤ s.ctx.poolTop+size := Nat.le_add_right _ _
    refine ⟨⟨⟨q,hq.chain,hq.tail,hq.mask,fun l r hr => ?_,hq.queued,hq.nodup,hq.levels⟩,
      ⟨hok.ctx.tops.trail,hok.ctx.tops.entail⟩,fun r _ => hok.priority r,fun v r hr => ?_,
      fun i r hr => ?_⟩,hok.priority,⟨hok.tables.ids,hok.tables.cap,hok.tables.noWatch,
      hok.tables.noGuard,hok.tables.index⟩,hok.mod,hok.mul,hok.memo,fun r hr => ?_,?_⟩
    · obtain ⟨h1,h2,h3⟩ := hq.mem l r hr
      exact ⟨h1,h2,h3.trans_le hle⟩
    · exact (hok.ctx.watchers v r hr).trans_le hle
    · exact (hok.ctx.refs i r hr).trans_le hle
    · exact (hok.initial r hr).trans_le hle
    · exact hok.floor.trans hle
  | trail o => exact SameTables.session_ok hok (Op.run_ok hok.ctx hv) (Op.run_tables s.ctx o)
  | modLink prop =>
    refine ⟨hok.ctx,hok.priority,hok.tables,fun p hp => ?_,hok.mul,hok.memo,hok.initial,hok.floor⟩
    rcases List.mem_append.mp hp with hp | hp
    · exact hok.mod p hp
    · rw [List.mem_singleton.mp hp]
      exact hv.2
  | mulLink prop =>
    refine ⟨hok.ctx,hok.priority,hok.tables,hok.mod,fun p hp => ?_,hok.memo,hok.initial,hok.floor⟩
    rcases List.mem_append.mp hp with hp | hp
    · exact hok.mul p hp
    · rw [List.mem_singleton.mp hp]
      exact hv.2
  | memo r =>
    refine ⟨hok.ctx,hok.priority,hok.tables,hok.mod,hok.mul,fun p hp => ?_,hok.initial,hok.floor⟩
    rcases List.mem_append.mp hp with hp | hp
    · exact hok.memo p hp
    · rw [List.mem_singleton.mp hp]
      exact hv.2
  | learn db n e => exact ⟨hok.ctx,hok.priority,hok.tables,hok.mod,hok.mul,hok.memo,hok.initial,hok.floor⟩
  | conflict ref => exact ⟨hok.ctx,hok.priority,hok.tables,hok.mod,hok.mul,hok.memo,hok.initial,hok.floor⟩
  | snapshot ref n => exact ⟨hok.ctx,hok.priority,hok.tables,hok.mod,hok.mul,hok.memo,hv,hok.floor⟩
  | overwrite l m => exact hok.levels _ _ _

theorem grown_snoc {l l' : List ℕ} {n x : ℕ} (h : ∃ new, l' = l ++ new ∧ ∀ p ∈ new, n ≤ p) (hx : n ≤ x) :
    ∃ new, l' ++ [x] = l ++ new ∧ ∀ p ∈ new, n ≤ p := by
  obtain ⟨new,rfl,hnew⟩ := h
  refine ⟨new ++ [x],List.append_assoc _ _ _,fun p hp => ?_⟩
  rcases List.mem_append.mp hp with hp | hp
  · exact hnew p hp
  · rwa [List.mem_singleton.mp hp]

theorem Kept.sameTables (h : Kept t s) {c : Ctx} (ht : SameTables s.ctx c) :
    Kept t { s with ctx := c } where
  nVars := h.nVars.trans_eq ht.nVars.symm
  nProps := h.nProps.trans_eq ht.nProps.symm
  poolTop := h.poolTop.trans_eq ht.poolTop.symm
  cap := h.cap.trans_eq ht.propCapacity.symm
  nClauses := h.nClauses
  floor := h.floor
  refs i hi := (congrFun ht.propRefs i).trans (h.refs i hi)
  props r hr := (h.props r hr).trans (ht.props r)
  watchers v hv := by
    simp only [ht.watchers]
    exact h.watchers v hv
  guards i hi := (congrFun ht.guardVars i).trans (h.guards i hi)
  unguarded i hi := h.unguarded i ((congrFun ht.guardVars i).symm.trans hi)
  mod := h.mod
  mul := h.mul
  memo := h.memo

theorem Kept.allocated (h : Kept t s) {c : Ctx} (hal : Allocated s.ctx fire priority watches c) :
    Kept t { s with ctx := c } := by
  have hnv : c.nVars = s.ctx.nVars := by rw [hal.rest]
  have hnp : c.nProps = s.ctx.nProps+1 := by rw [hal.rest]
  have hpt : c.poolTop = s.ctx.poolTop+1 := by rw [hal.rest]
  have hg : c.guardVars = s.ctx.guardVars := by rw [hal.rest]
  have hrefs : c.propRefs = update s.ctx.propRefs s.ctx.nProps (some s.ctx.poolTop) := by
    rw [hal.rest]
  have hwatch : ∀ v, c.watchers v =
      if v ∈ watches then s.ctx.poolTop :: s.ctx.watchers v else s.ctx.watchers v := by
    rw [hal.rest]
    exact fun _ => rfl
  have hnprops := h.nProps
  have hpool := h.poolTop
  refine ⟨h.nVars.trans_eq hnv.symm,?_,?_,h.cap.trans hal.cap.1,h.nClauses,h.floor,fun i hi => ?_,
    fun r hr => (h.props r hr).trans (hal.old r (by omega)),fun v hv => ?_,fun i hi => ?_,
    fun i hi => ?_,h.mod,h.mul,h.memo⟩
  · simp only [hnp]
    omega
  · simp only [hpt]
    omega
  · rw [hrefs,update_of_ne (by omega)]
    exact h.refs i hi
  · obtain ⟨new,he,hnew⟩ := h.watchers v hv
    rw [hwatch]
    split_ifs
    · refine ⟨s.ctx.poolTop :: new,by rw [he]; rfl,fun r hr => ?_⟩
      rcases List.mem_cons.mp hr with rfl | hr
      · exact hpool
      · exact hnew r hr
    · exact ⟨new,he,hnew⟩
  · rw [hg]
    exact h.guards i hi
  · rw [hg] at hi
    exact h.unguarded i hi

theorem Act.run_kept (hk : Kept t s) (hok : s.Ok)
    (hv : a.Valid s t.ctx.nVars t.ctx.nProps) : Kept t (a.run s) := by
  cases a with
  | newVar v =>
    have hn := hk.nVars
    refine ⟨?_,hk.nProps,hk.poolTop,hk.cap,hk.nClauses,hk.floor,hk.refs,hk.props,fun w hw => ?_,
      hk.guards,hk.unguarded,hk.mod,hk.mul,hk.memo⟩
    · exact hn.trans (Nat.le_succ _)
    · obtain ⟨new,he,hnew⟩ := hk.watchers w hw
      refine ⟨new,?_,hnew⟩
      simp only [Act.run,Session.withCtx,addVar,Ctx.setVar]
      rw [update_of_ne (by omega)]
      exact he
  | addProp fire priority watches =>
    rcases addProp_cases hok fire watches hv.1 with h | ⟨c,h,hal⟩
    · rw [h]
      exact hk
    · rw [h]
      exact hk.allocated hal
  | setGuard ref v =>
    simp only [Act.run,Session.withCtx,propSetGuard]
    split_ifs with hid
    · refine ⟨hk.nVars,hk.nProps,hk.poolTop,hk.cap,hk.nClauses,hk.floor,hk.refs,hk.props,hk.watchers,
        fun i hi => ?_,fun i hi => ?_,hk.mod,hk.mul,hk.memo⟩
      · have := hv.1
        dsimp only
        rw [update_of_ne (by omega)]
        exact hk.guards i hi
      · by_cases he : i = (s.ctx.props ref).propId
        · simp [he] at hi
        · exact hk.unguarded i (by simpa [he] using hi)
    · exact hk
  | take size =>
    exact ⟨hk.nVars,hk.nProps,hk.poolTop.trans (Nat.le_add_right _ _),hk.cap,hk.nClauses,hk.floor,
      hk.refs,hk.props,hk.watchers,hk.guards,hk.unguarded,hk.mod,hk.mul,hk.memo⟩
  | trail o => exact hk.sameTables (Op.run_tables s.ctx o)
  | modLink prop =>
    exact ⟨hk.nVars,hk.nProps,hk.poolTop,hk.cap,hk.nClauses,hk.floor,hk.refs,hk.props,hk.watchers,
      hk.guards,hk.unguarded,grown_snoc hk.mod hv.1,hk.mul,hk.memo⟩
  | mulLink prop =>
    exact ⟨hk.nVars,hk.nProps,hk.poolTop,hk.cap,hk.nClauses,hk.floor,hk.refs,hk.props,hk.watchers,
      hk.guards,hk.unguarded,hk.mod,grown_snoc hk.mul hv.1,hk.memo⟩
  | memo r =>
    exact ⟨hk.nVars,hk.nProps,hk.poolTop,hk.cap,hk.nClauses,hk.floor,hk.refs,hk.props,hk.watchers,
      hk.guards,hk.unguarded,hk.mod,hk.mul,grown_snoc hk.memo hv.1⟩
  | learn db n e =>
    exact ⟨hk.nVars,hk.nProps,hk.poolTop,hk.cap,hk.nClauses.trans hv,hk.floor,hk.refs,hk.props,
      hk.watchers,hk.guards,hk.unguarded,hk.mod,hk.mul,hk.memo⟩
  | conflict ref => exact ⟨hk.nVars,hk.nProps,hk.poolTop,hk.cap,hk.nClauses,hk.floor,hk.refs,hk.props,
      hk.watchers,hk.guards,hk.unguarded,hk.mod,hk.mul,hk.memo⟩
  | snapshot ref n => exact ⟨hk.nVars,hk.nProps,hk.poolTop,hk.cap,hk.nClauses,hk.floor,hk.refs,
      hk.props,hk.watchers,hk.guards,hk.unguarded,hk.mod,hk.mul,hk.memo⟩
  | overwrite l m => exact ⟨hk.nVars,hk.nProps,hk.poolTop,hk.cap,hk.nClauses,hk.floor,hk.refs,
      hk.props,hk.watchers,hk.guards,hk.unguarded,hk.mod,hk.mul,hk.memo⟩

theorem Act.run_since {c : Ctx} (h : Since c s.ctx) (hok : s.Ok) (hv : a.Valid s nVars nProps) :
    Since c (a.run s).ctx := by
  cases a with
  | newVar v =>
    refine h.same rfl rfl rfl (Nat.le_succ _) fun i hi => ?_
    simp only [Act.run,Session.withCtx,addVar,Ctx.setVar]
    rw [update_of_ne hi.ne]
  | addProp fire priority watches =>
    rcases addProp_cases hok fire watches hv.1 with he | ⟨c,he,hal⟩
    · rw [he]
      exact h
    · rw [he]
      rw [hal.rest]
      exact h.same rfl rfl rfl (le_refl _) fun _ _ => rfl
  | setGuard ref v =>
    simp only [Act.run,Session.withCtx,propSetGuard]
    split_ifs
    · exact h.same rfl rfl rfl (le_refl _) fun _ _ => rfl
    · exact h
  | take size => exact h.same rfl rfl rfl (le_refl _) fun _ _ => rfl
  | trail o => exact h.op hok.ctx hv
  | modLink prop => exact h
  | mulLink prop => exact h
  | memo r => exact h
  | learn db n e => exact h
  | conflict ref => exact h
  | snapshot ref n => exact h
  | overwrite l m => exact h.same rfl rfl rfl (le_refl _) fun _ _ => rfl

def Act.marks : Act → Option ℕ
  | .overwrite l _ => some l
  | _ => none

theorem Act.run_levels (hok : s.Ok) (hv : a.Valid s nVars nProps) :
    (a.run s).ctx.decisionLevel = s.ctx.decisionLevel ∧
    (a.run s).checkpoints = s.checkpoints ∧
    ∀ l, a.marks ≠ some l → (a.run s).ctx.levelMarks l = s.ctx.levelMarks l := by
  cases a with
  | newVar v => exact ⟨rfl,rfl,fun _ _ => rfl⟩
  | addProp fire priority watches =>
    rcases addProp_cases hok fire watches hv.1 with he | ⟨c,he,hal⟩
    · rw [he]
      exact ⟨rfl,rfl,fun _ _ => rfl⟩
    · rw [he]
      rw [hal.rest]
      exact ⟨rfl,rfl,fun _ _ => rfl⟩
  | setGuard ref v =>
    refine ⟨?_,rfl,fun l _ => ?_⟩ <;> simp only [Act.run,Session.withCtx,propSetGuard] <;>
      split_ifs <;> rfl
  | take size => exact ⟨rfl,rfl,fun _ _ => rfl⟩
  | trail o =>
    have h := Op.run_tables s.ctx o
    exact ⟨h.decisionLevel,rfl,fun l _ => congrFun h.levelMarks l⟩
  | modLink prop => exact ⟨rfl,rfl,fun _ _ => rfl⟩
  | mulLink prop => exact ⟨rfl,rfl,fun _ _ => rfl⟩
  | memo r => exact ⟨rfl,rfl,fun _ _ => rfl⟩
  | learn db n e => exact ⟨rfl,rfl,fun _ _ => rfl⟩
  | conflict ref => exact ⟨rfl,rfl,fun _ _ => rfl⟩
  | snapshot ref n => exact ⟨rfl,rfl,fun _ _ => rfl⟩
  | overwrite l m =>
    refine ⟨rfl,rfl,fun l' hl => ?_⟩
    have hne : l' ≠ l := fun he => hl (by rw [he]; rfl)
    simp [Act.run,Session.withCtx,hne]

end Acts

/-- An open level: the state it was opened in, and whether a checkpoint opened it. -/
structure Level where
  start : Session
  checkpoint : Bool

structure Leads (f : Level) (c : Session) : Prop where
  since : Since f.start.ctx c.ctx
  level : f.start.ctx.decisionLevel ≤ c.ctx.decisionLevel
  kept : f.checkpoint = true → Kept f.start c ∧ f.start.ctx.decisionLevel < c.ctx.decisionLevel ∧
    f.start.checkpoints ++ [checkpointMark f.start] <+: c.checkpoints

def below (n : ℕ) (fs : List Level) : List Level :=
  fs.filter fun f => f.start.ctx.decisionLevel < n

def sealLevel (c : Ctx) : Ctx :=
  { c with levelMarks := update c.levelMarks c.decisionLevel (markOf c) }

/-- The reset inside a scope takes the context back to the level its checkpoint opened. -/
def reopen (m : CheckpointMark) (c : Ctx) : Option Ctx :=
  (trailBacktrack (resetMark m c) m.decisionLevel).map trailPushLevel

/-- The states a context passes through, with its open levels, newest first. -/
inductive Session.Run (s₀ : Session) : Session → List Level → Prop
  | init : Session.Run s₀ s₀ []
  | act {s : Session} {fs : List Level} (h : Session.Run s₀ s fs) (a : Act)
      (hv : ∀ f ∈ fs, f.checkpoint = true → a.Valid s f.start.ctx.nVars f.start.ctx.nProps)
      (hv₀ : a.Valid s 0 0) :
      Session.Run s₀ (a.run s) (fs.filter fun f => f.checkpoint ∨ a.marks ≠ some f.start.ctx.decisionLevel)
  | push {s : Session} {fs : List Level} (h : Session.Run s₀ s fs) :
      Session.Run s₀ (s.withCtx trailPushLevel) (⟨s,false⟩ :: below s.ctx.decisionLevel fs)
  | sealed {s : Session} {fs : List Level} (h : Session.Run s₀ s fs) :
      Session.Run s₀ (s.withCtx sealLevel) (⟨s,false⟩ :: below s.ctx.decisionLevel fs)
  | back {s : Session} {above fs : List Level} {f : Level} {c : Ctx}
      (h : Session.Run s₀ s (above ++ f :: fs)) (hf : f.checkpoint = false)
      (habove : ∀ g ∈ above, g.checkpoint = false)
      (hb : trailBacktrack s.ctx f.start.ctx.decisionLevel = some c) :
      Session.Run s₀ { s with ctx := c } (f :: fs)
  | reopen {s : Session} {above fs : List Level} {f : Level} {c : Ctx}
      (h : Session.Run s₀ s (above ++ f :: fs)) (hf : f.checkpoint = true)
      (habove : ∀ g ∈ above, g.checkpoint = false)
      (hb : Solver.reopen (checkpointMark f.start) s.ctx = some c) :
      Session.Run s₀ { s with ctx := c } (f :: fs)
  | checkpoint {s : Session} {fs : List Level} (h : Session.Run s₀ s fs) :
      Session.Run s₀ (solverCheckpoint s).2 (⟨s,true⟩ :: below s.ctx.decisionLevel fs)
  | restore {s s' : Session} {above fs : List Level} {f : Level}
      (h : Session.Run s₀ s (above ++ f :: fs)) (hf : f.checkpoint = true)
      (hr : solverRestore s (solverCheckpoint f.start).1 = some s') : Session.Run s₀ s' fs

end Solver
end DvSolve
