import DvSolve.PropagateSteps

/-! The queue over whole runs.
Any sequence of tightenings, enqueues, dequeues, propagations and backtracks keeps the sixteen
levels lists of distinct propagators, with their ends, flags and mask. -/
namespace DvSolve
namespace Solver

open Linked

structure Enlisted (n : ℕ) (c : Ctx) : Prop where
  queue : ∃ q, QueueOk c q
  pool : c.poolTop = n
  priority : ∀ r < n, (c.props r).priority < nLevels
  watchers : ∀ v, ∀ r ∈ c.watchers v, r < n
  refs : ∀ i r, c.propRefs i = some r → r < n

namespace Enlisted

variable {n : ℕ} {c c' : Ctx}

theorem congr (h : Enlisted n c) (hq : c'.queue = c.queue) (htop : c'.poolTop = c.poolTop)
    (hw : c'.watchers = c.watchers) (hr : c'.propRefs = c.propRefs)
    (hp : ∀ r, (c'.props r).queueNext = (c.props r).queueNext ∧
      (c'.props r).inQueue = (c.props r).inQueue ∧
      (c'.props r).priority = (c.props r).priority) : Enlisted n c' := by
  obtain ⟨q,hqueue⟩ := h.queue
  refine ⟨⟨q,hqueue.congr hq htop hp⟩,htop.trans h.pool,fun r hlt => ?_,?_,?_⟩
  · rw [(hp r).2.2]
    exact h.priority r hlt
  · rw [hw]
    exact h.watchers
  · rw [hr]
    exact h.refs

theorem queueStep (h : Enlisted n c) (hs : QueueStep c c') (hq : ∃ q, QueueOk c' q) :
    Enlisted n c' := by
  refine ⟨hq,?_,fun r hr => ?_,?_,?_⟩
  · rw [hs.rest]
    exact h.pool
  · rw [hs.priority]
    exact h.priority r hr
  · rw [hs.rest]
    exact h.watchers
  · rw [hs.rest]
    exact h.refs

theorem propEnqueue (h : Enlisted n c) {ref : ℕ} (hr : ref < n) : Enlisted n (propEnqueue c ref) := by
  obtain ⟨q,hq⟩ := h.queue
  exact h.queueStep (propEnqueue_step hq ref)
    ⟨_,propEnqueue_ok hq (h.pool.symm ▸ hr) (h.priority ref hr)⟩

theorem dequeue (h : Enlisted n c) {ref : ℕ} (hd : dequeue c = some (ref,c')) :
    ref < n ∧ Enlisted n c' := by
  obtain ⟨q,hq⟩ := h.queue
  have hmask : c.queue.nonEmptyMask ≠ 0 := by
    intro h0
    have hnone : (List.range nLevels).find? (fun l => c.queue.nonEmptyMask.testBit l) = none := by
      simp [h0]
    simp [Solver.dequeue,hnone] at hd
  obtain ⟨lvl,ref',rest,hlvl,_,hdeq⟩ := dequeue_ok hq hmask
  obtain ⟨rfl,rfl⟩ : ref' = ref ∧ takeHead c lvl ref' = c' := by simpa [hdeq] using hd
  refine ⟨?_,h.queueStep (takeHead_step c lvl ref') ⟨_,takeHead_ok hq hlvl⟩⟩
  rw [← h.pool]
  exact (hq.mem lvl ref' (by rw [hlvl]; simp)).2.2

theorem waking : Waking (Enlisted n) :=
  ⟨fun h hk => h.propEnqueue
      (hk.elim (fun hv => h.watchers _ _ hv.choose_spec) fun hi => h.refs _ _ hi.choose_spec),
    fun _ _ h => h.congr rfl rfl rfl rfl fun _ => ⟨rfl,rfl,rfl⟩,
    fun _ h => h.congr rfl rfl rfl rfl fun _ => ⟨rfl,rfl,rfl⟩⟩

theorem pushEntry (h : Enlisted n c) (id : ℕ) (v : Variable) (e : TrailEntry) :
    Enlisted n (pushEntry (c.setVar id v) e) := h.congr rfl rfl rfl rfl fun _ => ⟨rfl,rfl,rfl⟩

theorem ctxTighten (h : Enlisted n c) (t : Tighten) (id : ℕ) (b : BitVec 64) :
    Enlisted n (ctxTighten t c id b).2 := by
  refine waking.ctxTighten h (fun k new => ?_) t b
  rcases trailRecord_cases k c id new with hr | ⟨v,e,_,_,hr⟩
  · rwa [hr]
  · rw [hr]
    exact h.pushEntry id v e

theorem markEntailed (h : Enlisted n c) (ref : ℕ) : Enlisted n (trailMarkEntailed c ref) := by
  refine h.congr rfl rfl rfl rfl fun r => ?_
  by_cases hr : r = ref
  · subst hr
    simp [trailMarkEntailed,Ctx.setProp]
  · simp [trailMarkEntailed,Ctx.setProp,hr]

theorem op (h : Enlisted n c) {o : Op} (ho : o.Valid c) : Enlisted n (o.run c) := by
  cases o with
  | tighten t id b => exact h.ctxTighten t id b
  | hole id removed => exact h.congr rfl rfl rfl rfl fun _ => ⟨rfl,rfl,rfl⟩
  | markEntailed ref => exact h.markEntailed ref
  | enqueue ref => exact h.propEnqueue (h.pool ▸ ho)
  | setReason ref flags => exact h.congr rfl rfl rfl rfl fun _ => ⟨rfl,rfl,rfl⟩

/-- Undoing, level by level, leaves the queue alone; it is then emptied, whatever the level. -/
theorem trailBacktrack (h : Enlisted n c) {level : ℕ} (hb : trailBacktrack c level = some c') :
    Enlisted n c' := by
  unfold Solver.trailBacktrack at hb
  obtain ⟨c₁,h₁,hb⟩ := Option.bind_eq_some_iff.mp hb
  obtain ⟨c₂,h₂,hb⟩ := Option.bind_eq_some_iff.mp hb
  have hc₁ : Enlisted n c₁ := walk_keeps (P := Enlisted n) (fun c a hc => by
    rw [undoEntry_rest]
    exact hc.congr rfl rfl rfl rfl fun _ => ⟨rfl,rfl,rfl⟩) h h₁
  have hc₂ : Enlisted n c₂ := walk_keeps (P := Enlisted n) (fun c a hc => by
    rw [undoEntail_rest]
    refine hc.congr rfl rfl rfl rfl fun r => ?_
    rw [undoEntail_props]
    split_ifs <;> exact ⟨rfl,rfl,rfl⟩) hc₁ h₂
  have hc₃ : Enlisted n (rebuildMask (popToMark c₂ level (c.levelMarks level))) := by
    rw [rebuildMask_eq]
    exact hc₂.congr rfl rfl rfl rfl fun _ => ⟨rfl,rfl,rfl⟩
  obtain ⟨q,hq⟩ := hc₃.queue
  rw [clearQueue_ok hq] at hb
  obtain rfl := Option.some.inj hb
  refine ⟨⟨_,.of_empty rfl fun r => ?_⟩,hc₃.pool,fun r hr => ?_,hc₃.watchers,hc₃.refs⟩
  · dsimp only
    split_ifs with hin
    · rfl
    · simpa using hin
  · have hprio := hc₃.priority r hr
    dsimp only
    split_ifs
    · exact hprio
    · exact hprio

theorem steady (n : ℕ) : Steady n (Enlisted n) where
  tighten _ t id b h := h.ctxTighten t id b
  reason _ _ _ h := h.congr rfl rfl rfl rfl fun _ => ⟨rfl,rfl,rfl⟩
  mark _ ref _ h := h.markEntailed ref
  enqueue _ _ hr h := h.propEnqueue hr
  take _ _ _ hd h := h.dequeue hd

end Enlisted

structure Unqueued (c : Ctx) : Prop where
  queue : c.queue = .empty
  flags : ∀ r, (c.props r).inQueue = false
  priority : ∀ r < c.poolTop, (c.props r).priority < nLevels
  watchers : ∀ v, ∀ r ∈ c.watchers v, r < c.poolTop
  refs : ∀ i r, c.propRefs i = some r → r < c.poolTop

/-- The states an engine passes through: enqueues and tightenings, what the loop does to the
head of the queue, whole propagations, pushes, and backtracks to any level. -/
inductive QueueRun (s₀ : Engine) : Engine → Prop
  | init : QueueRun s₀ s₀
  | op {s : Engine} (h : QueueRun s₀ s) (o : Op) (ho : o.Valid s.ctx) :
      QueueRun s₀ { s with ctx := o.run s.ctx }
  | take {s : Engine} {ref : ℕ} {c : Ctx} (h : QueueRun s₀ s) (hd : dequeue s.ctx = some (ref,c)) :
      QueueRun s₀ { s with ctx := c }
  | visit {s s' : Engine} {overBudget : Engine → Bool} {n ref : ℕ} {o : Option PropResult}
      (h : QueueRun s₀ s) (hr : ref < s.ctx.poolTop)
      (hv : visitProp overBudget n s ref = some (o,s')) : QueueRun s₀ s'
  | propagate {s s' : Engine} {overBudget : Engine → Bool} {n : ℕ} {r : PropResult}
      (h : QueueRun s₀ s) (hp : dvsSolverPropagate overBudget n s = some (r,s')) : QueueRun s₀ s'
  | push {s : Engine} (h : QueueRun s₀ s) : QueueRun s₀ { s with ctx := trailPushLevel s.ctx }
  | back {s : Engine} {level : ℕ} {c : Ctx} (h : QueueRun s₀ s)
      (hb : trailBacktrack s.ctx level = some c) : QueueRun s₀ { s with ctx := c }

structure QueueWf (c : Ctx) (q : ℕ → List ℕ) : Prop where
  chain : ∀ l < nLevels, Path (queueNextOf c) none (c.queue.heads l) (q l)
  acyclic : ∀ l < nLevels, (q l).Nodup
  tail : ∀ l < nLevels, c.queue.tails l = (q l).getLast?
  mask : ∀ l < nLevels, c.queue.nonEmptyMask.testBit l = true ↔ q l ≠ []
  flagged : ∀ r, (c.props r).inQueue = true ↔ (c.props r).priority < nLevels ∧
    (q (c.props r).priority).count r = 1 ∧ ∀ l < nLevels, l ≠ (c.props r).priority → r ∉ q l

theorem QueueOk.wf {c : Ctx} {q : ℕ → List ℕ} (h : QueueOk c q) : QueueWf c q := by
  refine ⟨fun l _ => h.chain l,fun l _ => h.nodup l,fun l _ => h.tail l,fun l _ => h.mask l,
    fun r => ⟨fun hin => ⟨?_,?_,fun l _ hl hr => ?_⟩,fun hr => ?_⟩⟩
  · by_contra hlt
    have := h.queued r hin
    rw [h.levels _ (not_lt.mp hlt)] at this
    simp at this
  · exact List.count_eq_one_of_mem (h.nodup _) (h.queued r hin)
  · exact hl (h.mem l r hr).2.1.symm
  · exact (h.mem _ r (List.count_pos_iff.mp (hr.2.1 ▸ Nat.one_pos))).1

variable {s₀ s : Engine}

theorem QueueRun.enlisted (h₀ : Unqueued s₀.ctx) (h : QueueRun s₀ s) :
    Enlisted s₀.ctx.poolTop s.ctx := by
  induction h with
  | init => exact ⟨⟨_,.of_empty h₀.queue h₀.flags⟩,rfl,h₀.priority,h₀.watchers,h₀.refs⟩
  | op _ o ho ih => exact ih.op ho
  | take _ hd ih => exact (ih.dequeue hd).2
  | visit _ hr hv ih => exact (Enlisted.steady _).visitProp ih (ih.pool ▸ hr) hv
  | propagate _ hp ih => exact (Enlisted.steady _).propagate ih hp
  | push _ ih => exact ih.congr rfl rfl rfl rfl fun _ => ⟨rfl,rfl,rfl⟩
  | back _ hb ih => exact ih.trailBacktrack hb

/-- In every state of a run the levels are lists of distinct propagators that end at their
tails, the mask names the levels in use, and a propagator has `IN_QUEUE` set exactly when it
stands once in the list of its priority and in no other. -/
theorem queueRun_wf (h₀ : Unqueued s₀.ctx) (h : QueueRun s₀ s) : ∃ q, QueueWf s.ctx q := by
  obtain ⟨q,hq⟩ := (h.enlisted h₀).queue
  exact ⟨q,hq.wf⟩

def unqueuedTwo : Engine :=
  { twoPropsQueued (7#32,9#32) (0#32,4#32) (fireBoundsLe32 0 1) (.done .ok) fun v =>
      if v < 2 then [0] else [] with
    ctx := twoProps (7#32,9#32) (0#32,4#32) (fireBoundsLe32 0 1) (.done .ok) fun v =>
      if v < 2 then [0] else [] }

theorem unqueuedTwo_unqueued : Unqueued unqueuedTwo.ctx := by
  refine ⟨rfl,fun _ => rfl,fun r _ => ?_,fun v r hr => ?_,fun i r h => ?_⟩
  · simp only [unqueuedTwo,twoProps,nLevels]
    split_ifs <;> omega
  · simp only [unqueuedTwo,twoProps] at hr ⊢
    split_ifs at hr <;> simp_all
  · simp only [unqueuedTwo,twoProps] at h ⊢
    split_ifs at h
    simp_all

def queuedTwo : Engine :=
  { unqueuedTwo with
    ctx := trailPushLevel (Op.run (.enqueue 1) (Op.run (.enqueue 0) unqueuedTwo.ctx)) }

/-- A propagation that ends in a conflict leaves the second one queued. -/
theorem queueRun_wf_conflict : ∃ s q, dvsSolverPropagate (fun _ => false) 8 queuedTwo =
    some (.conflict,s) ∧ (s.ctx.props 1).inQueue = true ∧ QueueWf s.ctx q := by
  have hc : (dvsSolverPropagate (fun _ => false) 8 queuedTwo).map
      (fun p => (p.1,(p.2.ctx.props 1).inQueue)) = some (.conflict,true) := by decide
  obtain ⟨⟨r,s⟩,hs,he⟩ := Option.map_eq_some_iff.mp hc
  obtain ⟨rfl,hin⟩ : r = .conflict ∧ (s.ctx.props 1).inQueue = true := by simpa using he
  have h₀ : QueueRun unqueuedTwo unqueuedTwo := .init
  have h₁ := h₀.op (.enqueue 0) (show 0 < unqueuedTwo.ctx.poolTop by decide)
  have h₂ := h₁.op (.enqueue 1)
    (show 1 < (Op.run (.enqueue 0) unqueuedTwo.ctx).poolTop by decide)
  have hrun : QueueRun unqueuedTwo queuedTwo := h₂.push
  obtain ⟨q,hq⟩ := queueRun_wf unqueuedTwo_unqueued (hrun.propagate hs)
  exact ⟨s,q,hs,hin,hq⟩

end Solver
end DvSolve
