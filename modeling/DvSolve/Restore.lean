import DvSolve.CheckpointSem
import DvSolve.PropagateSem

/-! What a restore leaves: the tables of the checkpoint, every propagator of then queued
once, and the guards of the scope. -/
namespace DvSolve
namespace Solver

open Function (update update_of_ne)
open List (mem_cons mem_cons_of_mem)
open Option (bind_eq_some_iff)

variable {i l n : ℕ}

section Parts

variable {c c' : Ctx}

theorem dropProp_rest (c : Ctx) (i : ℕ) :
    dropProp c i = { c with props := (dropProp c i).props, propRefs := (dropProp c i).propRefs } := by
  unfold dropProp
  split <;> rfl

theorem dropProp_refs (c : Ctx) (i : ℕ) :
    (dropProp c i).propRefs = update c.propRefs i none := by
  unfold dropProp
  split
  · rfl
  · rename_i h
    rw [← h,Function.update_eq_self]

theorem dropProp_props (c : Ctx) (i r : ℕ) :
    SameProp (c.props r) ((dropProp c i).props r) ∧
      ((dropProp c i).props r).inQueue = (c.props r).inQueue := by
  unfold dropProp
  split
  · rename_i ref _
    by_cases h : r = ref
    · subst h
      simp only [Ctx.setProp,Function.update_self]
      exact ⟨⟨rfl,rfl,rfl⟩,trivial⟩
    · simp only [Ctx.setProp,update_of_ne h]
      exact ⟨.refl _,trivial⟩
  · exact ⟨.refl _,rfl⟩

theorem dropProps_spec (first : ℕ) (h : ∀ i, min c.nProps c.propCapacity ≤ i → c.propRefs i = none) :
    dropProps first c = { c with
      props := (dropProps first c).props
      propRefs := fun i => if i < first then c.propRefs i else none } ∧
    ∀ r, SameProp (c.props r) ((dropProps first c).props r) ∧
      ((dropProps first c).props r).inQueue = (c.props r).inQueue := by
  have hfold : ∀ (n : ℕ) (a : ℕ) (c : Ctx), (List.range' a n).foldl dropProp c = { c with
        props := ((List.range' a n).foldl dropProp c).props
        propRefs := fun i => if a ≤ i ∧ i < a+n then none else c.propRefs i } ∧
      ∀ r, SameProp (c.props r) (((List.range' a n).foldl dropProp c).props r) ∧
        (((List.range' a n).foldl dropProp c).props r).inQueue = (c.props r).inQueue := by
    intro n
    induction n with
    | zero =>
      intro a c
      refine ⟨?_,fun r => ⟨.refl _,rfl⟩⟩
      simp only [List.range'_zero,List.foldl_nil]
      have hf : (fun i => if a ≤ i ∧ i < a+0 then none else c.propRefs i) = c.propRefs := by
        funext i
        rw [if_neg (by omega)]
      rw [hf]
    | succ n ih =>
      intro a c
      rw [List.range'_succ,List.foldl_cons]
      obtain ⟨h1,h2⟩ := ih (a+1) (dropProp c a)
      refine ⟨?_,fun r => ?_⟩
      · have hf : (fun i => if a+1 ≤ i ∧ i < a+1+n then none else (dropProp c a).propRefs i) =
            fun i => if a ≤ i ∧ i < a+(n+1) then none else c.propRefs i := by
          funext i
          rw [dropProp_refs]
          by_cases hi : i = a
          · subst hi
            simp
          · rw [update_of_ne hi]
            exact if_congr (by omega) rfl rfl
        rw [hf] at h1
        rw [h1,dropProp_rest c a]
      · have h3 := dropProp_props c a r
        exact ⟨h3.1.trans (h2 r).1,(h2 r).2.trans h3.2⟩
  obtain ⟨h1,h2⟩ := hfold (min c.nProps c.propCapacity-first) first c
  refine ⟨?_,h2⟩
  have hf : (fun i => if first ≤ i ∧ i < first+(min c.nProps c.propCapacity-first) then none
      else c.propRefs i) = fun i => if i < first then c.propRefs i else none := by
    funext i
    by_cases hi : i < first
    · rw [if_neg (by omega),if_pos hi]
    · rw [if_neg hi]
      split_ifs with h3
      · rfl
      · exact h i (by omega)
  rw [hf] at h1
  exact h1

theorem popLinks_grown {old links : List ℕ} (hold : ∀ p ∈ old, p < n)
    (h : ∃ new, links = old ++ new ∧ ∀ p ∈ new, n ≤ p) : popLinks n links = old := by
  obtain ⟨new,rfl,hnew⟩ := h
  induction new using List.reverseRecOn with
  | nil =>
    rw [List.append_nil,popLinks,List.rdropWhile_eq_self_iff]
    intro hne
    simpa using hold _ (List.getLast_mem hne)
  | append_singleton new x ih =>
    rw [← List.append_assoc,popLinks,List.rdropWhile_concat_pos]
    · exact ih fun p hp => hnew p (by simp [hp])
    · simpa using hnew x (by simp)

theorem dropWhile_grown {old chain : List ℕ} (hold : ∀ r ∈ old, r < n)
    (h : ∃ new, chain = new ++ old ∧ ∀ r ∈ new, n ≤ r) : chain.dropWhile (n ≤ ·) = old := by
  obtain ⟨new,rfl,hnew⟩ := h
  rw [List.dropWhile_append_of_pos (by simpa using hnew)]
  cases old with
  | nil => rfl
  | cons r old =>
    rw [List.dropWhile_cons_of_neg]
    simpa using hold r (by simp)

end Parts

structure Requeued (c c' : Ctx) : Prop where
  rest : c' = { c with props := c'.props, queue := c'.queue }
  props : ∀ r, SameProp (c.props r) (c'.props r)

structure QueuedBelow (k : ℕ) (c : Ctx) : Prop where
  queue : ∃ q, QueueOk c q ∧ ∀ l, ∀ r ∈ q l, ∃ i < k, c.propRefs i = some r
  live : ∀ i < k, ∀ r, c.propRefs i = some r → (c.props r).entailed = false ∧ (c.props r).inQueue = true

section Requeue

variable {c c' : Ctx}

theorem Requeued.trans {c'' : Ctx} (h : Requeued c c') (h' : Requeued c' c'') : Requeued c c'' := by
  refine ⟨?_,fun r => (h.props r).trans (h'.props r)⟩
  rw [h'.rest,h.rest]

theorem requeueProp_spec {k : ℕ} (hq : QueuedBelow k c)
    (hids : ∀ i r, c.propRefs i = some r → (c.props r).propId = i)
    (hrefs : ∀ i r, c.propRefs i = some r → r < c.poolTop)
    (hp : ∀ r, (c.props r).priority < nLevels) :
    Requeued c (requeueProp c k) ∧ QueuedBelow (k+1) (requeueProp c k) := by
  obtain ⟨q,hqok,hmem⟩ := hq.queue
  unfold requeueProp
  split
  · rename_i ref href
    have hout : (c.props ref).inQueue = false := by
      cases hin : (c.props ref).inQueue with
      | false => rfl
      | true =>
        obtain ⟨i,hi,hir⟩ := hmem _ ref (hqok.queued ref hin)
        have := (hids i ref hir).symm.trans (hids k ref href)
        omega
    generalize hd : c.setProp ref { c.props ref with entailed := false, inQueue := false } = d
    have hdr : d.props ref = { c.props ref with entailed := false, inQueue := false } := by
      rw [← hd]
      simp [Ctx.setProp]
    have hdo : ∀ r, r ≠ ref → d.props r = c.props r := fun r hr => by
      rw [← hd]
      simp [Ctx.setProp,hr]
    have hd1 : d = { c with props := d.props } := by
      rw [← hd]
      rfl
    have hdq : QueueOk d q := by
      refine hqok.congr (by rw [hd1]) (by rw [hd1]) fun r => ?_
      by_cases hr : r = ref
      · rw [hr,hdr]
        exact ⟨rfl,hout.symm,rfl⟩
      · rw [hdo r hr]
        exact ⟨rfl,rfl,rfl⟩
    have hdin : (d.props ref).inQueue = false := by rw [hdr]
    have hdent : (d.props ref).entailed = false := by rw [hdr]
    have hdp : (d.props ref).priority < nLevels := by
      rw [hdr]
      exact hp ref
    have hlt : ref < d.poolTop := by
      rw [hd1]
      exact hrefs k ref href
    have hstep := propEnqueue_step hdq ref
    have hflag := propEnqueue_inQueue hdq hdin hdent
    have hnew := propEnqueue_ok hdq hlt hdp
    have hpr : (propEnqueue d ref).propRefs = c.propRefs := by rw [hstep.rest,hd1]
    refine ⟨⟨?_,fun r => ?_⟩,⟨_,hnew,fun l r hr => ?_⟩,fun i hi r hr => ?_⟩
    · rw [hstep.rest,hd1]
    · refine SameProp.trans ?_ ⟨hstep.fire r,hstep.propId r,hstep.priority r⟩
      by_cases hr : r = ref
      · rw [hr,hdr]
        exact ⟨rfl,rfl,rfl⟩
      · rw [hdo r hr]
        exact .refl _
    · rw [hpr]
      simp only [enqueued,hdin,hdent,Bool.false_eq_true,or_self,if_false] at hr
      have hcase : r ∈ q l ∨ r = ref := by
        by_cases hl : l = (d.props ref).priority
        · subst hl
          simpa using hr
        · rw [update_of_ne hl] at hr
          exact Or.inl hr
      rcases hcase with hr | rfl
      · obtain ⟨i,hi,hir⟩ := hmem l r hr
        exact ⟨i,by omega,hir⟩
      · exact ⟨k,by omega,href⟩
    · rw [hpr] at hr
      rw [hstep.entailed,hflag]
      by_cases hir : r = ref
      · rw [if_pos hir,hir]
        exact ⟨hdent,rfl⟩
      · have hik : i ≠ k := by
          rintro rfl
          exact hir (Option.some.inj (hr.symm.trans href))
        rw [if_neg hir,hdo r hir]
        exact hq.live i (by omega) r hr
  · rename_i hnone
    refine ⟨⟨rfl,fun r => .refl _⟩,⟨q,hqok,fun l r hr => ?_⟩,fun i hi r hr => ?_⟩
    · obtain ⟨i,hi,hir⟩ := hmem l r hr
      exact ⟨i,by omega,hir⟩
    · have hik : i ≠ k := by
        rintro rfl
        simp [hnone] at hr
      exact hq.live i (by omega) r hr

theorem requeueProps_spec (hin : ∀ r, (c.props r).inQueue = false)
    (hids : ∀ i r, c.propRefs i = some r → i < min n c.propCapacity ∧ (c.props r).propId = i)
    (hrefs : ∀ i r, c.propRefs i = some r → r < c.poolTop)
    (hp : ∀ r, (c.props r).priority < nLevels) :
    Requeued c (requeueProps n c) ∧ QueuedBelow (min n c.propCapacity) (requeueProps n c) := by
  have h0 : Requeued c { c with queue := .empty } := ⟨rfl,fun r => .refl _⟩
  have hfold : ∀ k, Requeued c ((List.range k).foldl requeueProp { c with queue := .empty }) ∧
      QueuedBelow k ((List.range k).foldl requeueProp { c with queue := .empty }) := by
    intro k
    induction k with
    | zero =>
      refine ⟨h0,⟨_,QueueOk.of_empty rfl hin,by simp⟩,fun i hi => absurd hi (Nat.not_lt_zero i)⟩
    | succ k ih =>
      obtain ⟨h1,h2⟩ := ih
      rw [List.range_succ,List.foldl_append,List.foldl_cons,List.foldl_nil]
      generalize (List.range k).foldl requeueProp { c with queue := .empty } = d at h1 h2 ⊢
      have hpr : d.propRefs = c.propRefs := by rw [h1.rest]
      have hpool : d.poolTop = c.poolTop := by rw [h1.rest]
      obtain ⟨h3,h4⟩ := requeueProp_spec h2
        (fun i r hr => by rw [(h1.props r).propId]; exact (hids i r (hpr ▸ hr)).2)
        (fun i r hr => by rw [hpool]; exact hrefs i r (hpr ▸ hr))
        (fun r => (h1.props r).priority.trans_lt (hp r))
      exact ⟨h1.trans h3,h4⟩
  exact hfold _

end Requeue

/-- `s'` is the state `t` of the checkpoint again, restored from `s`: the bounds of the
variables of then, and every table but those of the guards and of the clauses. -/
structure Returned (t s s' : Session) : Prop where
  vars : ∀ i < t.ctx.nVars, s'.ctx.vars i = t.ctx.vars i
  ctx : s'.ctx = { t.ctx with
    vars := s'.ctx.vars, props := s'.ctx.props, queue := s'.ctx.queue
    propCapacity := s.ctx.propCapacity, guardVars := s.ctx.guardVars, guardIx := s.ctx.guardIx
    guardDirty := s.ctx.guardDirty, growable := s.ctx.growable
    unassignedMask := s'.ctx.unassignedMask
    levelMarks := update s.ctx.levelMarks t.ctx.decisionLevel (markOf t.ctx)
    currentPropRef := s'.ctx.currentPropRef, currentFlags := s.ctx.currentFlags }
  rest : s' = { t with
    ctx := s'.ctx, db := s'.db, nAnalyses := s'.nAnalyses, arenaEmpty := s'.arenaEmpty
    conflictProp := s'.conflictProp }
  nClauses : s'.nClauses = t.nClauses
  props : ∀ r, SameProp (s.ctx.props r) (s'.ctx.props r)
  live : ∀ i r, t.ctx.propRefs i = some r →
    (s'.ctx.props r).entailed = false ∧ (s'.ctx.props r).inQueue = true
  queue : ∃ q, QueueOk s'.ctx q ∧ ∀ l, ∀ r ∈ q l, ∃ i, t.ctx.propRefs i = some r
  current : ∀ r, s'.ctx.currentPropRef = some r → r < t.ctx.poolTop
  conflict : ∀ r, s'.conflictProp = some r → r < t.ctx.poolTop

variable {u : ℕ → Variable}

section Returning

variable {t s s' : Session}

theorem restoreClauses_spec (m : CheckpointMark) (s : Session) :
    restoreClauses m s = { s with
      db := (restoreClauses m s).db, nAnalyses := (restoreClauses m s).nAnalyses
      arenaEmpty := (restoreClauses m s).arenaEmpty } := by
  unfold restoreClauses
  split
  · rfl
  · split_ifs <;> rfl

theorem restoreClauses_nClauses (hle : t.nClauses ≤ s.nClauses) :
    (restoreClauses (checkpointMark t) s).nClauses = t.nClauses := by
  unfold restoreClauses
  split
  · rename_i h
    have h0 : s.nClauses = 0 := by simp [Session.nClauses,h]
    omega
  · split_ifs with h
    · have h0 : t.lcgIsPristine = true := h
      unfold Session.lcgIsPristine at h0
      unfold Session.nClauses
      cases hdb : t.db with
      | none => rfl
      | some db =>
        simp only [hdb,Bool.and_eq_true,beq_iff_eq] at h0
        exact h0.1.2.symm
    · rfl

theorem Leads.trailBacktrack {f : Level} (h : Leads f s) (hf : f.checkpoint = true)
    (hok : s.Ok) (ht : f.start.Ok) : ∃ u new, (∀ i < f.start.ctx.nVars, u i = f.start.ctx.vars i) ∧
      trailBacktrack (resetMark (checkpointMark f.start) s.ctx) f.start.ctx.decisionLevel =
        some (restored { f.start.ctx with vars := u } new (resetMark (checkpointMark f.start) s.ctx)) := by
  obtain ⟨q,hq⟩ := hok.ctx.queue
  have hs : Since f.start.ctx (resetMark (checkpointMark f.start) s.ctx) :=
    h.since.same rfl rfl rfl (le_refl _) fun _ _ => rfl
  exact hs.trailBacktrack ht.ctx.tops (h.kept hf).2.1.le (by simp [resetMark,checkpointMark,markOf])
    (hq.congr rfl rfl fun _ => ⟨rfl,rfl,rfl⟩)

theorem restored_props (t : Ctx) (new : List ℕ) (c : Ctx) (r : ℕ) :
    SameProp (c.props r) ((restored t new c).props r) ∧ ((restored t new c).props r).inQueue = false := by
  cases h1 : (c.props r).inQueue <;> by_cases h2 : r ∈ new ∧ isLive c r = true <;>
    simp [restored,h1,h2,cleared,unmarked] <;> exact ⟨rfl,rfl,rfl⟩

theorem restoreTables_ctx {new : List ℕ} {cp : ℕ} (hk : Kept t s) (hok : s.Ok)
    (ht : t.Ok) {c : Ctx} (hc : (restoreTables (checkpointMark t) cp s
      (restored { t.ctx with vars := u } new (resetMark (checkpointMark t) s.ctx))).ctx = c) :
    c = { t.ctx with
      vars := u, props := c.props, poolTop := s.ctx.poolTop, propCapacity := s.ctx.propCapacity
      guardVars := s.ctx.guardVars, guardIx := s.ctx.guardIx, guardDirty := s.ctx.guardDirty
      growable := s.ctx.growable, watchers := s.ctx.watchers, queue := .empty
      unassignedMask := c.unassignedMask
      levelMarks := update s.ctx.levelMarks t.ctx.decisionLevel (markOf t.ctx)
      currentPropRef := s.ctx.currentPropRef, currentFlags := s.ctx.currentFlags } ∧
    ∀ r, SameProp (s.ctx.props r) (c.props r) ∧ (c.props r).inQueue = false := by
  have hnone : ∀ i, min s.ctx.nProps s.ctx.propCapacity ≤ i → s.ctx.propRefs i = none := by
    intro i hi
    cases hr : s.ctx.propRefs i with
    | none => rfl
    | some r =>
      have := (hok.tables.ids i r hr).1
      have := hok.tables.cap.1
      omega
  have hrefs : (fun i => if i < t.ctx.nProps then s.ctx.propRefs i else none) = t.ctx.propRefs := by
    funext i
    split_ifs with hi
    · exact hk.refs i hi
    · cases hr : t.ctx.propRefs i with
      | none => rfl
      | some r => exact absurd (ht.tables.ids i r hr).1 hi
  rw [restoreTables,restoreClauses_spec] at hc
  simp only at hc
  have hres := restored_props { t.ctx with vars := u } new (resetMark (checkpointMark t) s.ctx)
  obtain ⟨h1,h2⟩ := dropProps_spec (c := restored { t.ctx with vars := u } new
    (resetMark (checkpointMark t) s.ctx)) (checkpointMark t).nProps hnone
  generalize dropProps (checkpointMark t).nProps (restored { t.ctx with vars := u } new
    (resetMark (checkpointMark t) s.ctx)) = d at h1 h2 hc
  have hd := h1.trans (congrArg (fun f : ℕ → Option ℕ => { restored { t.ctx with vars := u } new
    (resetMark (checkpointMark t) s.ctx) with props := d.props, propRefs := f }) hrefs)
  rw [rebuildMask_eq] at hc
  have hmask : c = { d with
      nProps := t.ctx.nProps, nVars := t.ctx.nVars, unassignedMask := c.unassignedMask } := by
    rw [← hc]
    rfl
  refine ⟨?_,fun r => ?_⟩
  · rw [hmask,hd]
    rfl
  · have hcr : c.props r = d.props r := by rw [hmask]
    rw [hcr]
    exact ⟨(hres r).1.trans (h2 r).1,(h2 r).2.trans (hres r).2⟩

theorem Leads.returned {f : Level} (h : Leads f s) (hf : f.checkpoint = true) (hok : s.Ok)
    (ht : f.start.Ok) : ∃ s', solverRestore s (solverCheckpoint f.start).1 = some s' ∧
      Returned f.start s s' := by
  obtain ⟨hk,hlevel,hcps⟩ := h.kept hf
  obtain ⟨u,new,hu,hback⟩ := h.trailBacktrack hf hok ht
  generalize f.start = t at hk hlevel hcps hu hback ht ⊢
  have hcp : s.checkpoints[t.checkpoints.length]? = some (checkpointMark t) := by
    obtain ⟨later,hlater⟩ := hcps
    rw [← hlater]
    simp
  have htake : s.checkpoints.take t.checkpoints.length = t.checkpoints := by
    obtain ⟨later,hlater⟩ := hcps
    rw [← hlater]
    simp
  simp only [solverRestore,solverCheckpoint,hcp]
  rw [show (checkpointMark t).decisionLevel = t.ctx.decisionLevel from rfl,hback,Option.map_some]
  refine ⟨_,rfl,?_⟩
  generalize hx : restoreTables (checkpointMark t) t.checkpoints.length s (restored
    { t.ctx with vars := u } new (resetMark (checkpointMark t) s.ctx)) = x
  obtain ⟨h1,h2⟩ := restoreTables_ctx hk hok ht (congrArg Session.ctx hx)
  have hxs : x = { t with
      ctx := x.ctx, db := x.db, nAnalyses := x.nAnalyses, arenaEmpty := x.arenaEmpty
      conflictProp := s.conflictProp, initialVars := s.initialVars, initialNVars := s.initialNVars } := by
    have hmod := popLinks_grown ht.mod hk.mod
    have hmul := popLinks_grown ht.mul hk.mul
    have hmemo := popLinks_grown ht.memo hk.memo
    rw [← hmod,← hmul,← hmemo,← htake,← hk.floor,← hx]
    rw [restoreTables,restoreClauses_spec]
    rfl
  have hcl : x.nClauses = t.nClauses := by
    rw [← hx]
    exact restoreClauses_nClauses hk.nClauses
  have hrefs : x.ctx.propRefs = t.ctx.propRefs := by rw [h1]
  have hcap : x.ctx.propCapacity = s.ctx.propCapacity := by rw [h1]
  have hmin : min t.ctx.nProps s.ctx.propCapacity = t.ctx.nProps :=
    min_eq_left (ht.tables.cap.1.trans hk.cap)
  have hin : ∀ r, (x.ctx.props r).inQueue = false := fun r => (h2 r).2
  have hids : ∀ i r, x.ctx.propRefs i = some r →
      i < min t.ctx.nProps x.ctx.propCapacity ∧ (x.ctx.props r).propId = i := by
    intro i r hr
    rw [hrefs] at hr
    obtain ⟨hi,hid⟩ := ht.tables.ids i r hr
    rw [hcap,hmin,(h2 r).1.propId,(hk.props r (ht.ctx.refs i r hr)).propId]
    exact ⟨hi,hid⟩
  have hlt : ∀ i r, x.ctx.propRefs i = some r → r < x.ctx.poolTop := by
    intro i r hr
    rw [hrefs] at hr
    rw [h1]
    exact (ht.ctx.refs i r hr).trans_le hk.poolTop
  obtain ⟨h3,h4⟩ := requeueProps_spec hin hids hlt
    fun r => (h2 r).1.priority.trans_lt (hok.priority r)
  have hprops := h3.rest
  have hsame := h3.props
  have hlive := h4.live
  obtain ⟨q,hq,hmem⟩ := h4.queue
  change Returned t s (rewindPool (checkpointMark t) s.ctx.nVars
    { x with ctx := requeueProps t.ctx.nProps x.ctx })
  generalize requeueProps t.ctx.nProps x.ctx = c at hprops hsame hlive hq hmem
  have hcrefs : c.propRefs = t.ctx.propRefs := by rw [hprops,hrefs]
  have hfloor : x.poolFloor = t.poolFloor := by rw [hxs]
  have hfirst : max (checkpointMark t).poolMark x.poolFloor = t.ctx.poolTop := by
    rw [hfloor]
    exact max_eq_left ht.floor
  have hwatch : (fun v => if v < t.ctx.nVars then (c.watchers v).dropWhile (t.ctx.poolTop ≤ ·)
      else if v < s.ctx.nVars then [] else c.watchers v) = t.ctx.watchers := by
    have hcw : c.watchers = s.ctx.watchers := by rw [hprops,h1]
    funext v
    rw [hcw]
    split_ifs with hv hv'
    · exact dropWhile_grown (ht.ctx.watchers v) (hk.watchers v hv)
    · exact (ht.tables.noWatch v (by omega)).symm
    · rw [hok.tables.noWatch v (by omega),ht.tables.noWatch v (by omega)]
  have hfinal : rewindPool (checkpointMark t) s.ctx.nVars { x with ctx := c } = { x with
      ctx := { c with
        watchers := t.ctx.watchers
        currentPropRef := c.currentPropRef.filter (· < t.ctx.poolTop)
        poolTop := t.ctx.poolTop }
      conflictProp := x.conflictProp.filter (· < t.ctx.poolTop)
      initialVars := t.initialVars
      initialNVars := t.initialNVars } := by
    rw [rewindPool]
    rw [hfirst,← hwatch]
    rfl
  rw [hfinal]
  refine ⟨?_,?_,?_,hcl,fun r => (h2 r).1.trans (hsame r),fun i r hr => ?_,⟨q,?_,fun l r hr => ?_⟩,
    fun r hr => ?_,fun r hr => ?_⟩
  · rw [hprops,h1]
    exact hu
  · dsimp only
    rw [hprops,h1]
  · rw [hxs]
  · exact hlive i ((ht.tables.ids i r hr).1.trans_eq (by rw [hcap,hmin])) r (by rw [hcrefs,hr])
  · refine ⟨hq.chain,hq.tail,hq.mask,fun l r hr => ?_,hq.queued,hq.nodup,hq.levels⟩
    obtain ⟨i,_,hi⟩ := hmem l r hr
    rw [hcrefs] at hi
    exact ⟨(hq.mem l r hr).1,(hq.mem l r hr).2.1,ht.ctx.refs i r hi⟩
  · obtain ⟨i,_,hi⟩ := hmem l r hr
    exact ⟨i,by rw [← hcrefs,hi]⟩
  · simpa using (Option.filter_eq_some_iff.mp hr).2
  · simpa using (Option.filter_eq_some_iff.mp hr).2

theorem Returned.ok (h : Returned t s s') (hk : Kept t s) (hok : s.Ok) (ht : t.Ok) : s'.Ok := by
  obtain ⟨q,hq,_⟩ := h.queue
  have hpriority : ∀ r, (s'.ctx.props r).priority < nLevels := fun r =>
    (h.props r).priority.trans_lt (hok.priority r)
  have htables : TablesOk s'.ctx := by
    refine ⟨fun i r hr => ?_,?_,?_,?_,?_⟩
    · rw [h.ctx] at hr
      obtain ⟨h1,h2⟩ := ht.tables.ids i r hr
      rw [(h.props r).propId,(hk.props r (ht.ctx.refs i r hr)).propId,h.ctx]
      exact ⟨h1,h2⟩
    · rw [h.ctx]
      exact ⟨ht.tables.cap.1.trans hk.cap,hok.tables.cap.2⟩
    · rw [h.ctx]
      exact ht.tables.noWatch
    · rw [h.ctx]
      exact hok.tables.noGuard
    · rw [h.ctx]
      exact hok.tables.index
  refine ⟨⟨⟨q,hq⟩,?_,fun r _ => hpriority r,?_,?_⟩,hpriority,htables,?_,?_,?_,?_,?_⟩
  · rw [h.ctx]
    exact ⟨ht.ctx.tops.trail,ht.ctx.tops.entail⟩
  · rw [h.ctx]
    exact ht.ctx.watchers
  · rw [h.ctx]
    exact ht.ctx.refs
  · rw [h.rest,h.ctx]
    exact ht.mod
  · rw [h.rest,h.ctx]
    exact ht.mul
  · rw [h.rest,h.ctx]
    exact ht.memo
  · rw [h.rest,h.ctx]
    exact ht.initial
  · rw [h.rest,h.ctx]
    exact ht.floor

theorem Returned.kept {g : Session} (h : Returned t s s') (hg : Kept g t) (hgs : Kept g s) : Kept g s' := by
  have hctx := h.ctx
  have hrest := h.rest
  refine ⟨?_,?_,?_,?_,?_,?_,?_,fun r hr => (hgs.props r hr).trans (h.props r),?_,?_,?_,?_,?_,?_⟩
  · rw [hctx]
    exact hg.nVars
  · rw [hctx]
    exact hg.nProps
  · rw [hctx]
    exact hg.poolTop
  · rw [hctx]
    exact hgs.cap
  · rw [h.nClauses]
    exact hg.nClauses
  · rw [hrest]
    exact hg.floor
  · rw [hctx]
    exact hg.refs
  · rw [hctx]
    exact hg.watchers
  · rw [hctx]
    exact hgs.guards
  · rw [hctx]
    exact hgs.unguarded
  · rw [hrest]
    exact hg.mod
  · rw [hrest]
    exact hg.mul
  · rw [hrest]
    exact hg.memo

theorem Returned.since {c : Ctx} (h : Returned t s s') (hg : Since c t.ctx) : Since c s'.ctx := by
  have hv := h.vars
  rw [h.ctx] at hv ⊢
  exact hg.same rfl rfl rfl (le_refl _) hv

theorem Returned.leads {f : Level} (h : Returned t s s') (hf : Leads f t) (hfs : Leads f s) : Leads f s' := by
  have hlevel : s'.ctx.decisionLevel = t.ctx.decisionLevel := by rw [h.ctx]
  have hcps : s'.checkpoints = t.checkpoints := by rw [h.rest]
  refine ⟨h.since hf.since,?_,fun hc => ⟨h.kept (hf.kept hc).1 (hfs.kept hc).1,?_,?_⟩⟩
  · rw [hlevel]
    exact hf.level
  · rw [hlevel]
    exact (hf.kept hc).2.1
  · rw [hcps]
    exact (hf.kept hc).2.2

end Returning

/-- Along a run: the session is well formed, every open level leads to it and to the levels
opened later, and the mark of a level that is no checkpoint is the one it was opened with. -/
structure Session.Inv (s : Session) (fs : List Level) : Prop where
  ok : s.Ok
  starts : ∀ f ∈ fs, f.start.Ok
  leads : ∀ f ∈ fs, Leads f s
  nested : fs.Pairwise fun f g => g.start.ctx.decisionLevel < f.start.ctx.decisionLevel ∧ Leads g f.start
  marks : ∀ f ∈ fs, f.checkpoint = false → s.ctx.levelMarks f.start.ctx.decisionLevel = markOf f.start.ctx

section Runs

variable {s s' : Session} {fs above : List Level} {f : Level}

theorem Session.Inv.drop (h : s.Inv (above ++ fs)) : s.Inv fs where
  ok := h.ok
  starts f hf := h.starts f (by simp [hf])
  leads f hf := h.leads f (by simp [hf])
  nested := (List.pairwise_append.mp h.nested).2.1
  marks f hf := h.marks f (by simp [hf])

theorem Act.run_inv (h : s.Inv fs) {a : Act}
    (hv : ∀ f ∈ fs, f.checkpoint = true → a.Valid s f.start.ctx.nVars f.start.ctx.nProps)
    (hv₀ : a.Valid s 0 0) :
    (a.run s).Inv (fs.filter fun f => f.checkpoint ∨ a.marks ≠ some f.start.ctx.decisionLevel) := by
  obtain ⟨h1,h2,h3⟩ := Act.run_levels h.ok hv₀
  have hleads : ∀ f ∈ fs, Leads f (a.run s) := by
    intro f hf
    obtain ⟨hs,hl,hk⟩ := h.leads f hf
    refine ⟨Act.run_since hs h.ok hv₀,by rw [h1]; exact hl,fun hc => ?_⟩
    obtain ⟨k1,k2,k3⟩ := hk hc
    rw [h1,h2]
    exact ⟨Act.run_kept k1 h.ok (hv f hf hc),k2,k3⟩
  refine ⟨Act.run_ok h.ok hv₀,fun f hf => h.starts f (List.mem_of_mem_filter hf),
    fun f hf => hleads f (List.mem_of_mem_filter hf),h.nested.filter _,fun f hf hc => ?_⟩
  have hp := (List.mem_filter.mp hf).2
  simp only [hc,Bool.false_eq_true,false_or,decide_eq_true_eq] at hp
  rw [h3 _ hp]
  exact h.marks f (List.mem_of_mem_filter hf) hc

theorem Session.Inv.opened (h : s.Inv fs) (f : Level) (hf : f.start = s) (hok : s'.Ok)
    (hfs : Leads f s') (hleads : ∀ g ∈ fs, Leads g s → Leads g s')
    (hmark : f.checkpoint = false → s'.ctx.levelMarks s.ctx.decisionLevel = markOf s.ctx)
    (hmarks : ∀ l, l ≠ s.ctx.decisionLevel → s'.ctx.levelMarks l = s.ctx.levelMarks l) :
    s'.Inv (f :: below s.ctx.decisionLevel fs) := by
  have hmem : ∀ g ∈ below s.ctx.decisionLevel fs, g ∈ fs ∧
      g.start.ctx.decisionLevel < s.ctx.decisionLevel := fun g hg => by
    simpa [below] using hg
  refine ⟨hok,fun g hg => ?_,fun g hg => ?_,List.pairwise_cons.mpr ⟨fun g hg => ?_,h.nested.filter _⟩,
    fun g hg hc => ?_⟩
  · rcases mem_cons.mp hg with rfl | hg
    · rw [hf]
      exact h.ok
    · exact h.starts g (hmem g hg).1
  · rcases mem_cons.mp hg with rfl | hg
    · exact hfs
    · exact hleads g (hmem g hg).1 (h.leads g (hmem g hg).1)
  · rw [hf]
    exact ⟨(hmem g hg).2,h.leads g (hmem g hg).1⟩
  · rcases mem_cons.mp hg with rfl | hg
    · rw [hf]
      exact hmark hc
    · rw [hmarks _ (hmem g hg).2.ne]
      exact h.marks g (hmem g hg).1 hc

theorem Kept.levels {g : Session} (h : Kept g s) (cps : List CheckpointMark) (m : ℕ → LevelMark)
    (l : ℕ) : Kept g { s with
      checkpoints := cps, ctx := { s.ctx with levelMarks := m, decisionLevel := l } } :=
  ⟨h.nVars,h.nProps,h.poolTop,h.cap,h.nClauses,h.floor,h.refs,h.props,h.watchers,h.guards,
    h.unguarded,h.mod,h.mul,h.memo⟩

theorem Leads.levels (h : Leads f s) (cps : List CheckpointMark) (m : ℕ → LevelMark)
    (hl : s.ctx.decisionLevel ≤ l) (hcps : s.checkpoints <+: cps) : Leads f { s with
      checkpoints := cps, ctx := { s.ctx with levelMarks := m, decisionLevel := l } } :=
  ⟨h.since.same rfl rfl rfl (le_refl _) fun _ _ => rfl,h.level.trans hl,fun hc =>
    ⟨(h.kept hc).1.levels cps m l,(h.kept hc).2.1.trans_le hl,(h.kept hc).2.2.trans hcps⟩⟩

theorem Session.Inv.push (h : s.Inv fs) :
    (s.withCtx trailPushLevel).Inv (⟨s,false⟩ :: below s.ctx.decisionLevel fs) := by
  have hle := Nat.le_succ s.ctx.decisionLevel
  refine h.opened ⟨s,false⟩ rfl (h.ok.levels s.checkpoints _ _)
    ⟨(Since.refl _).same rfl rfl rfl (le_refl _) fun _ _ => rfl,hle,by simp⟩
    (fun g _ hg => hg.levels s.checkpoints _ hle List.prefix_rfl) (fun _ => ?_) fun l hl => ?_
  · simp [Session.withCtx,trailPushLevel,markOf]
  · simp [Session.withCtx,trailPushLevel,hl]

theorem Session.Inv.sealed (h : s.Inv fs) :
    (s.withCtx sealLevel).Inv (⟨s,false⟩ :: below s.ctx.decisionLevel fs) := by
  refine h.opened ⟨s,false⟩ rfl (h.ok.levels s.checkpoints _ _)
    ⟨(Since.refl _).same rfl rfl rfl (le_refl _) fun _ _ => rfl,le_refl _,by simp⟩
    (fun g _ hg => hg.levels s.checkpoints _ (le_refl _) List.prefix_rfl) (fun _ => ?_) fun l hl => ?_
  · simp [Session.withCtx,sealLevel]
  · simp [Session.withCtx,sealLevel,hl]

theorem Session.Inv.checkpoint (h : s.Inv fs) :
    (solverCheckpoint s).2.Inv (⟨s,true⟩ :: below s.ctx.decisionLevel fs) := by
  have hle := Nat.le_succ s.ctx.decisionLevel
  refine h.opened ⟨s,true⟩ rfl (h.ok.levels _ _ _)
    ⟨(Since.refl _).same rfl rfl rfl (le_refl _) fun _ _ => rfl,hle,fun _ =>
      ⟨(Kept.refl s).levels _ _ _,Nat.lt_succ_self _,List.prefix_rfl⟩⟩
    (fun g _ hg => hg.levels _ _ hle (List.prefix_append _ _)) (by simp) fun l hl => ?_
  simp [solverCheckpoint,trailPushLevel,hl]

theorem restored_tables (t : Ctx) (new : List ℕ) (c : Ctx) :
    SameTables { c with decisionLevel := t.decisionLevel } (restored t new c) :=
  ⟨rfl,rfl,rfl,rfl,rfl,rfl,rfl,rfl,rfl,fun hix => hix,fun r => (restored_props t new c r).1⟩

theorem Session.Ok.restored (hok : s.Ok) {t : Ctx} (ht : TopsOk t) (new : List ℕ) (m : ℕ → LevelMark) :
    Session.Ok { s with ctx := Solver.restored t new { s.ctx with levelMarks := m } } := by
  have hl := hok.levels s.checkpoints m s.ctx.decisionLevel
  exact SameTables.session_ok (hok.levels s.checkpoints m t.decisionLevel) (restored_ok hl.ctx ht)
    (restored_tables t new { s.ctx with levelMarks := m })

theorem Leads.restored {g : Level} (hgs : Leads g s) (hs : Since g.start.ctx f.start.ctx)
    (hf : Leads f s) (hu : ∀ i < f.start.ctx.nVars, u i = f.start.ctx.vars i)
    (new : List ℕ) (m : ℕ → LevelMark) (hl : g.start.ctx.decisionLevel ≤ l)
    (hlt : g.checkpoint = true → g.start.ctx.decisionLevel < l) : Leads g { s with
      ctx := { Solver.restored { f.start.ctx with vars := u } new { s.ctx with levelMarks := m } with
        decisionLevel := l } } := by
  refine ⟨hs.same rfl rfl rfl hf.since.nVars hu,hl,fun hc => ⟨?_,hlt hc,(hgs.kept hc).2.2⟩⟩
  have hk := (hgs.kept hc).1.levels s.checkpoints m f.start.ctx.decisionLevel
  exact (hk.sameTables (restored_tables { f.start.ctx with vars := u } new
    { s.ctx with levelMarks := m })).levels s.checkpoints m l

theorem Session.Inv.back {c : Ctx} (h : s.Inv (above ++ f :: fs)) (hf : f.checkpoint = false)
    (hb : trailBacktrack s.ctx f.start.ctx.decisionLevel = some c) :
    Session.Inv { s with ctx := c } (f :: fs) := by
  have hd := h.drop
  have hmem : f ∈ f :: fs := List.mem_cons_self
  obtain ⟨hpair,hnested⟩ := List.pairwise_cons.mp hd.nested
  have hleads := hd.leads f hmem
  obtain ⟨q,hq⟩ := hd.ok.ctx.queue
  obtain ⟨u,new,hu,hback⟩ := hleads.since.trailBacktrack (hd.starts f hmem).ctx.tops hleads.level
    (hd.marks f hmem hf) hq
  obtain rfl := Option.some.inj (hback.symm.trans hb)
  have htops : TopsOk { f.start.ctx with vars := u } :=
    ⟨(hd.starts f hmem).ctx.tops.trail,(hd.starts f hmem).ctx.tops.entail⟩
  refine ⟨hd.ok.restored htops new s.ctx.levelMarks,hd.starts,fun g hg => ?_,hd.nested,hd.marks⟩
  rcases mem_cons.mp hg with rfl | hg
  · exact hleads.restored (.refl _) hleads hu new s.ctx.levelMarks (le_refl _) (by simp [hf])
  · exact (hd.leads g (mem_cons_of_mem f hg)).restored (hpair g hg).2.since hleads hu new
      s.ctx.levelMarks (hpair g hg).1.le fun _ => (hpair g hg).1

theorem Session.Inv.reopen {c : Ctx} (h : s.Inv (above ++ f :: fs)) (hf : f.checkpoint = true)
    (hb : Solver.reopen (checkpointMark f.start) s.ctx = some c) :
    Session.Inv { s with ctx := c } (f :: fs) := by
  have hd := h.drop
  have hmem : f ∈ f :: fs := List.mem_cons_self
  obtain ⟨hpair,hnested⟩ := List.pairwise_cons.mp hd.nested
  have hleads := hd.leads f hmem
  obtain ⟨u,new,hu,hback⟩ := hleads.trailBacktrack hf hd.ok (hd.starts f hmem)
  obtain ⟨c',hc',rfl⟩ := Option.map_eq_some_iff.mp hb
  obtain rfl := Option.some.inj (hback.symm.trans hc')
  have htops : TopsOk { f.start.ctx with vars := u } :=
    ⟨(hd.starts f hmem).ctx.tops.trail,(hd.starts f hmem).ctx.tops.entail⟩
  have hok := hd.ok.restored htops new (resetMark (checkpointMark f.start) s.ctx).levelMarks
  refine ⟨hok.levels s.checkpoints _ _,hd.starts,fun g hg => ?_,hd.nested,fun g hg hc => ?_⟩
  · have hg' : Leads g s ∧ g.start.ctx.decisionLevel < f.start.ctx.decisionLevel+1 ∧
        Since g.start.ctx f.start.ctx := by
      rcases mem_cons.mp hg with rfl | hg
      · exact ⟨hleads,Nat.lt_succ_self _,.refl _⟩
      · exact ⟨hd.leads g (mem_cons_of_mem f hg),(hpair g hg).1.trans (Nat.lt_succ_self _),
          (hpair g hg).2.since⟩
    obtain ⟨h1,h2,h3⟩ := hg'
    exact (h1.restored h3 hleads hu new (resetMark (checkpointMark f.start) s.ctx).levelMarks h2.le
      fun _ => h2).levels s.checkpoints _ (le_refl _) List.prefix_rfl
  · rcases mem_cons.mp hg with rfl | hg
    · exact absurd hf (by simp [hc])
    · have hne := (hpair g hg).1.ne
      have hmark := hd.marks g (mem_cons_of_mem f hg) hc
      simpa [trailPushLevel,Solver.restored,resetMark,checkpointMark,hne] using hmark

theorem Session.Inv.restore (h : s.Inv (above ++ f :: fs)) (hf : f.checkpoint = true)
    (hr : solverRestore s (solverCheckpoint f.start).1 = some s') :
    Returned f.start s s' ∧ s'.Inv fs := by
  have hd := h.drop
  have hmem : f ∈ f :: fs := List.mem_cons_self
  obtain ⟨hpair,hnested⟩ := List.pairwise_cons.mp hd.nested
  have hleads := hd.leads f hmem
  obtain ⟨s'',hs'',hret⟩ := hleads.returned hf hd.ok (hd.starts f hmem)
  obtain rfl := Option.some.inj (hs''.symm.trans hr)
  refine ⟨hret,hret.ok (hleads.kept hf).1 hd.ok (hd.starts f hmem),
    fun g hg => hd.starts g (mem_cons_of_mem f hg),
    fun g hg => hret.leads (hpair g hg).2 (hd.leads g (mem_cons_of_mem f hg)),hnested,
    fun g hg hc => ?_⟩
  rw [hret.ctx]
  dsimp only
  rw [update_of_ne (hpair g hg).1.ne]
  exact hd.marks g (mem_cons_of_mem f hg) hc

theorem Session.Run.inv {s₀ : Session} (h₀ : s₀.Ok) (h : Session.Run s₀ s fs) : s.Inv fs := by
  induction h with
  | init => exact ⟨h₀,by simp,by simp,List.Pairwise.nil,by simp⟩
  | act _ a hv hv₀ ih => exact Act.run_inv ih hv hv₀
  | push _ ih => exact ih.push
  | sealed _ ih => exact ih.sealed
  | back _ hf _ hb ih => exact ih.back hf hb
  | reopen _ hf _ hb ih => exact ih.reopen hf hb
  | checkpoint _ ih => exact ih.checkpoint
  | restore _ hf hr ih => exact (ih.restore hf hr).2

end Runs

/-- What is added to a context: a variable, a propagator, a guard on one that is there. -/
inductive Addition
  | var (v : Variable)
  | prop (fire : Fire) (priority : ℕ) (watches : List ℕ)
  | guard (ref v : ℕ)

def Addition.run (a : Addition) (c : Ctx) : Option Ctx :=
  match a with
  | .var v => some (addVar c v)
  | .prop fire priority watches => allocProp c fire priority watches
  | .guard ref v => some (propSetGuard c ref v)

def Addition.Valid (c : Ctx) : Addition → Prop
  | .var _ => True
  | .prop _ priority watches => priority < nLevels ∧ ∀ v ∈ watches, v < c.nVars
  | .guard ref _ => ∃ i, c.propRefs i = some ref

def addAll (c : Ctx) (as : List Addition) : Option Ctx := as.foldlM (fun c a => a.run c) c

/-- Every addition names variables and propagators that are there when its turn comes. -/
def AddsValid : Ctx → List Addition → Prop
  | _, [] => True
  | c, a :: as => a.Valid c ∧ ∀ d, a.run c = some d → AddsValid d as

/-- Propagators of `c'` see the same bounds, are woken by the same variables and have the
same guards as in `c`. -/
structure Alike (c c' : Ctx) : Prop where
  vars : ∀ i < c.nVars, c'.vars i = c.vars i
  nVars : c'.nVars = c.nVars
  nProps : c'.nProps = c.nProps
  poolTop : c'.poolTop = c.poolTop
  propRefs : c'.propRefs = c.propRefs
  watchers : c'.watchers = c.watchers
  guards : c'.guardVars = c.guardVars
  props : ∀ r < c.poolTop, SameProp (c.props r) (c'.props r)
  tables : TablesOk c ∧ TablesOk c'

section Alike

variable {c c' d d' : Ctx} {a : Addition} {as : List Addition}

theorem propGuard_eq (hok : TablesOk c) (r : ℕ) : propGuard c r = c.guardVars (c.props r).propId := by
  unfold propGuard
  split_ifs with h
  · rfl
  · exact (hok.noGuard _ (by omega)).symm

theorem propSetGuard_eq (ht : TablesOk c) {ref : ℕ} (hi : c.propRefs i = some ref) (v : ℕ) :
    propSetGuard c ref v = { c with guardVars := update c.guardVars i (some v), guardDirty := true } := by
  obtain ⟨hlt,hid⟩ := ht.ids i ref hi
  rw [propSetGuard,hid]
  exact if_pos (hlt.trans_le ht.cap.1)

theorem Addition.run_ok (hok : c.Ok) (ht : TablesOk c) (hv : a.Valid c) (hd : a.run c = some d) :
    d.Ok ∧ TablesOk d := by
  cases a with
  | var v =>
    obtain rfl := Option.some.inj hd
    exact ⟨addVar_ctx_ok hok v,addVar_tables ht v⟩
  | prop fire priority watches =>
    have ha := allocProp_spec hok ht hv.1 hd
    exact ⟨ha.ok hok hv.1,ha.tables hok ht hv.2⟩
  | guard ref v =>
    obtain ⟨i,hi⟩ := hv
    obtain rfl := Option.some.inj hd
    obtain ⟨q,hq⟩ := hok.queue
    rw [propSetGuard_eq ht hi]
    refine ⟨⟨⟨q,hq.congr rfl rfl fun _ => ⟨rfl,rfl,rfl⟩⟩,⟨hok.tops.trail,hok.tops.entail⟩,
      hok.priority,hok.watchers,hok.refs⟩,⟨ht.ids,ht.cap,ht.noWatch,fun j hj => ?_,
      fun _ _ hdirty => absurd hdirty (by simp)⟩⟩
    have hlt := (ht.ids i ref hi).1
    have hcap := ht.cap.1
    have hj' : c.propCapacity ≤ j := hj
    have hne : j ≠ i := by omega
    simpa [hne] using ht.noGuard j hj'

theorem Alike.allocated (h : Alike c c') (hok : c.Ok) (hok' : c'.Ok) {fire : Fire} {priority : ℕ}
    {watches : List ℕ} (hw : ∀ v ∈ watches, v < c.nVars) (hd : Allocated c fire priority watches d)
    (hd' : Allocated c' fire priority watches d') : Alike d d' := by
  have hw' : ∀ v ∈ watches, v < c'.nVars := by
    rw [h.nVars]
    exact hw
  have htop : d.poolTop = c.poolTop+1 := by rw [hd.rest]
  refine ⟨?_,?_,?_,?_,?_,?_,?_,fun r hr => ?_,hd.tables hok h.tables.1 hw,hd'.tables hok' h.tables.2 hw'⟩
  · rw [hd.rest,hd'.rest]
    exact h.vars
  · rw [hd.rest,hd'.rest]
    exact h.nVars
  · rw [hd.rest,hd'.rest]
    exact congrArg (· + 1) h.nProps
  · rw [hd.rest,hd'.rest]
    exact congrArg (· + 1) h.poolTop
  · rw [hd.rest,hd'.rest]
    rw [h.propRefs,h.nProps,h.poolTop]
  · rw [hd.rest,hd'.rest]
    rw [h.poolTop,h.watchers]
  · rw [hd.rest,hd'.rest]
    exact h.guards
  · by_cases he : r = c.poolTop
    · have h1 := hd.new
      have h2 := hd'.new
      rw [h.poolTop,h.nProps] at h2
      rw [he]
      exact ⟨h2.fire.trans h1.fire.symm,h2.propId.trans h1.propId.symm,h2.priority.trans h1.priority.symm⟩
    · have h1 := hd.old r he
      have h2 := hd'.old r (by rwa [h.poolTop])
      have h3 := (h.props r (by omega)).trans h2
      exact ⟨h3.fire.trans h1.fire.symm,h3.propId.trans h1.propId.symm,h3.priority.trans h1.priority.symm⟩

theorem allocProp_eq_none (ht : TablesOk c) (fire : Fire) (priority : ℕ) (watches : List ℕ) :
    allocProp c fire priority watches = none ↔ maxProps ≤ c.nProps := by
  rw [allocProp,Option.map_eq_none_iff,roomProp_none ht]

theorem Alike.valid (h : Alike c c') (hv : a.Valid c) : a.Valid c' := by
  cases a with
  | var v => trivial
  | prop fire priority watches =>
    refine ⟨hv.1,fun v hw => ?_⟩
    rw [h.nVars]
    exact hv.2 v hw
  | guard ref v =>
    obtain ⟨i,hi⟩ := hv
    exact ⟨i,by rw [h.propRefs,hi]⟩

theorem Alike.run (h : Alike c c') (hok : c.Ok) (hok' : c'.Ok) (hv : a.Valid c)
    (hd' : a.run c' = some d') : ∃ d, a.run c = some d ∧ Alike d d' := by
  cases a with
  | var v =>
    obtain rfl := Option.some.inj hd'
    refine ⟨_,rfl,⟨fun i hi => ?_,?_,h.nProps,h.poolTop,h.propRefs,?_,h.guards,h.props,
      addVar_tables h.tables.1 v,addVar_tables h.tables.2 v⟩⟩
    · have hi' : i < c.nVars+1 := hi
      simp only [addVar,Ctx.setVar,h.nVars]
      by_cases he : i = c.nVars
      · simp [he]
      · rw [update_of_ne he,update_of_ne he]
        exact h.vars i (by omega)
    · simp only [addVar,h.nVars]
    · simp only [addVar,Ctx.setVar,h.nVars,h.watchers]
  | prop fire priority watches =>
    have hv' : priority < nLevels := hv.1
    have ha' := allocProp_spec hok' h.tables.2 hv' hd'
    cases he : allocProp c fire priority watches with
    | none =>
      have hfull := (allocProp_eq_none h.tables.1 fire priority watches).mp he
      have hfull' := (allocProp_eq_none h.tables.2 fire priority watches).mpr (by rwa [h.nProps])
      simp [Addition.run,hfull'] at hd'
    | some e =>
      have ha := allocProp_spec hok h.tables.1 hv' he
      exact ⟨e,he,h.allocated hok hok' hv.2 ha ha'⟩
  | guard ref v =>
    have hd := Addition.run_ok hok h.tables.1 hv rfl
    obtain ⟨i,hi⟩ := hv
    have hi' : c'.propRefs i = some ref := by rw [h.propRefs,hi]
    have ht' := Addition.run_ok (a := .guard ref v) hok' h.tables.2 ⟨i,hi'⟩ hd'
    obtain rfl := Option.some.inj hd'
    refine ⟨_,rfl,?_⟩
    rw [propSetGuard_eq h.tables.1 hi] at hd ⊢
    rw [propSetGuard_eq h.tables.2 hi'] at ht' ⊢
    exact ⟨h.vars,h.nVars,h.nProps,h.poolTop,h.propRefs,h.watchers,
      congrArg (fun g => update g i (some v)) h.guards,h.props,hd.2,ht'.2⟩

theorem Alike.validAll (h : Alike c c') (hok : c.Ok) (hok' : c'.Ok) (hv : AddsValid c as) :
    AddsValid c' as := by
  induction as generalizing c c' with
  | nil => trivial
  | cons a as ih =>
    refine ⟨h.valid hv.1,fun e' he' => ?_⟩
    obtain ⟨e,he,hee⟩ := h.run hok hok' hv.1 he'
    exact ih hee (Addition.run_ok hok h.tables.1 hv.1 he).1
      (Addition.run_ok hok' h.tables.2 (h.valid hv.1) he').1 (hv.2 e he)

theorem Alike.addAll (h : Alike c c') (hok : c.Ok) (hok' : c'.Ok) (hv : AddsValid c as)
    (hd' : addAll c' as = some d') : ∃ d, addAll c as = some d ∧ Alike d d' := by
  induction as generalizing c c' with
  | nil =>
    obtain rfl := Option.some.inj hd'
    exact ⟨c,rfl,h⟩
  | cons a as ih =>
    obtain ⟨e',he',hrest'⟩ := bind_eq_some_iff.mp hd'
    have hv' : a.Valid c' := h.valid hv.1
    obtain ⟨e,he,hee⟩ := h.run hok hok' hv.1 he'
    obtain ⟨d,hd,hdd⟩ := ih hee (Addition.run_ok hok h.tables.1 hv.1 he).1
      (Addition.run_ok hok' h.tables.2 hv' he').1 (hv.2 e he) hrest'
    exact ⟨d,bind_eq_some_iff.mpr ⟨e,he,hd⟩,hdd⟩

/-- An addition keeps the propagators registered, and sets a guard only where it says. -/
theorem Addition.run_kept (hok : c.Ok) (ht : TablesOk c) (hv : a.Valid c) (hd : a.run c = some d) :
    (∀ i r, c.propRefs i = some r → d.propRefs i = some r) ∧
    ∀ i, (∀ ref v, a = .guard ref v → c.propRefs i ≠ some ref) → d.guardVars i = c.guardVars i := by
  cases a with
  | var v =>
    obtain rfl := Option.some.inj hd
    exact ⟨fun _ _ h => h,fun _ _ => rfl⟩
  | prop fire priority watches =>
    have ha := allocProp_spec hok ht hv.1 hd
    rw [ha.rest]
    refine ⟨fun i r hr => ?_,fun _ _ => rfl⟩
    have hne : i ≠ c.nProps := (ht.ids i r hr).1.ne
    simpa [hne] using hr
  | guard ref v =>
    obtain ⟨j,hj⟩ := hv
    obtain rfl := Option.some.inj hd
    rw [propSetGuard_eq ht hj]
    refine ⟨fun _ _ h => h,fun i hne => ?_⟩
    have hij : i ≠ j := by
      rintro rfl
      exact hne ref v rfl hj
    simp [hij]

theorem addAll_ok (hok : c.Ok) (ht : TablesOk c) (hv : AddsValid c as) (hd : addAll c as = some d) :
    TablesOk d ∧ (∀ i r, c.propRefs i = some r → d.propRefs i = some r) ∧
    ∀ i r, d.propRefs i = some r → (∀ v, .guard r v ∉ as) → d.guardVars i = c.guardVars i := by
  induction as generalizing c with
  | nil =>
    obtain rfl := Option.some.inj hd
    exact ⟨ht,fun _ _ h => h,fun _ _ _ _ => rfl⟩
  | cons a as ih =>
    obtain ⟨e,he,hrest⟩ := bind_eq_some_iff.mp hd
    obtain ⟨heok,het⟩ := Addition.run_ok hok ht hv.1 he
    obtain ⟨h1,h2⟩ := Addition.run_kept hok ht hv.1 he
    obtain ⟨h3,h4,h5⟩ := ih heok het (hv.2 e he) hrest
    refine ⟨h3,fun i r hr => h4 i r (h1 i r hr),fun i r hr hg => ?_⟩
    have hstep := h2 i fun ref v hguard href => by
      obtain rfl := Option.some.inj ((h4 i ref (h1 i ref href)).symm.trans hr)
      exact hg v (by simp [hguard])
    rw [h5 i r hr fun v hv => hg v (mem_cons_of_mem a hv),hstep]

/-- A propagator that watches nothing and always succeeds. -/
def idle : Addition := .prop (.done .ok) 0 []

/-- While ids last propagators can be added, and they take them in order. -/
theorem addAll_idle (hok : c.Ok) (ht : TablesOk c) (hn : c.nProps+n ≤ maxProps) :
    AddsValid c (List.replicate n idle) ∧ ∃ d, addAll c (List.replicate n idle) = some d ∧
      ∀ i < c.nProps+n, (c.nProps ≤ i ∨ (c.propRefs i).isSome) → (d.propRefs i).isSome := by
  induction n generalizing c with
  | zero => exact ⟨trivial,c,rfl,fun i hi h => h.resolve_left (by omega)⟩
  | succ n ih =>
    have hv : idle.Valid c := ⟨by decide,by simp⟩
    rw [List.replicate_succ]
    cases he : idle.run c with
    | none =>
      have hfull := (allocProp_eq_none ht (.done .ok) 0 []).mp he
      omega
    | some e =>
      have ha := allocProp_spec hok ht hv.1 he
      have hnp : e.nProps = c.nProps+1 := by rw [ha.rest]
      have hrefs : e.propRefs = update c.propRefs c.nProps (some c.poolTop) := by rw [ha.rest]
      obtain ⟨heok,het⟩ := Addition.run_ok hok ht hv he
      obtain ⟨hvalid,d,hd,hdr⟩ := ih heok het (by omega)
      refine ⟨⟨hv,fun e' he' => ?_⟩,d,bind_eq_some_iff.mpr ⟨e,he,hd⟩,fun i hi h => ?_⟩
      · obtain rfl := Option.some.inj (he.symm.trans he')
        exact hvalid
      · apply hdr i (by omega)
        by_cases hin : i = c.nProps
        · exact Or.inr (by simp [hrefs,hin])
        · rcases h with h | h
          · exact Or.inl (by omega)
          · exact Or.inr (by simpa [hrefs,hin] using h)

end Alike

structure NoneAbove (n : ℕ) (s : Session) : Prop where
  top : s.ctx.poolTop = n
  refs : ∀ i r, s.ctx.propRefs i = some r → r < n
  watchers : ∀ v, ∀ r ∈ s.ctx.watchers v, r < n
  current : ∀ r, s.ctx.currentPropRef = some r → r < n
  conflict : ∀ r, s.conflictProp = some r → r < n
  initial : ∀ r, s.initialVars = some r → r < n

def QueuedOnce (t c : Ctx) : Prop :=
  ∃ q, QueueOk c q ∧ (∀ l, ∀ r ∈ q l, ∃ i, t.propRefs i = some r) ∧
    ∀ i r, t.propRefs i = some r → ∃ l, (q l).count r = 1 ∧ ∀ l' ≠ l, r ∉ q l'

/-- What is added to `c'` behaves as if added to `c`: a new propagator is woken by the same
variables, and has a guard only if one is set. -/
def AddsAlike (c c' : Ctx) : Prop :=
  ∀ as, AddsValid c as → ∀ d', addAll c' as = some d' →
    ∃ d, addAll c as = some d ∧ Alike d d' ∧ ∀ i r, c.nProps ≤ i → d'.propRefs i = some r →
      (∀ v, .guard r v ∉ as) → propGuard d' r = none

structure Restored (t s' : Session) : Prop where
  bounds : ∀ i < t.ctx.nVars, s'.ctx.vars i = t.ctx.vars i
  nVars : s'.ctx.nVars = t.ctx.nVars
  nProps : s'.ctx.nProps = t.ctx.nProps
  nClauses : s'.nClauses = t.nClauses
  watchers : s'.ctx.watchers = t.ctx.watchers
  trail : s'.ctx.dynamic = t.ctx.dynamic ∧ s'.ctx.trailTop = t.ctx.trailTop ∧
    s'.ctx.entailTop = t.ctx.entailTop
  links : s'.modLinks = t.modLinks ∧ s'.mulLinks = t.mulLinks ∧ s'.extMemo = t.extMemo
  pool : NoneAbove t.ctx.poolTop s'
  live : ∀ i r, t.ctx.propRefs i = some r → s'.ctx.propRefs i = some r ∧
    (s'.ctx.props r).entailed = false ∧ SameProp (t.ctx.props r) (s'.ctx.props r)
  queue : QueuedOnce t.ctx s'.ctx
  adds : AddsAlike t.ctx s'.ctx

section Promise

variable {s₀ s s' t : Session}

theorem Returned.alike (h : Returned t s s') (hk : Kept t s) (hok : s'.Ok) (ht : t.Ok)
    (hg : ∀ i, t.ctx.nProps ≤ i → s.ctx.guardVars i = none) : Alike t.ctx s'.ctx := by
  have hguards : s.ctx.guardVars = t.ctx.guardVars := by
    funext i
    by_cases hi : i < t.ctx.nProps
    · exact hk.guards i hi
    · have hs := hg i (by omega)
      rw [hs,hk.unguarded i hs]
  have hprops : ∀ r < t.ctx.poolTop, SameProp (t.ctx.props r) (s'.ctx.props r) := fun r hr =>
    (hk.props r hr).trans (h.props r)
  refine ⟨h.vars,?_,?_,?_,?_,?_,?_,hprops,ht.tables,hok.tables⟩
  · rw [h.ctx]
  · rw [h.ctx]
  · rw [h.ctx]
  · rw [h.ctx]
  · rw [h.ctx]
  · rw [h.ctx]
    exact hguards

theorem Alike.adds {c c' : Ctx} (h : Alike c c') (hok : c.Ok) (hok' : c'.Ok)
    (hg : ∀ i, c.nProps ≤ i → c'.guardVars i = none) : AddsAlike c c' := by
  intro as hv d' hd'
  obtain ⟨d,hd,hdd⟩ := h.addAll hok hok' hv hd'
  refine ⟨d,hd,hdd,fun i r hi hr hnot => ?_⟩
  obtain ⟨ht',_,hguards⟩ := addAll_ok hok' h.tables.2 (h.validAll hok hok' hv) hd'
  rw [propGuard_eq ht',(ht'.ids i r hr).2,hguards i r hr hnot]
  exact hg i hi

/-- A guard that is left where the next ids are goes to a propagator that takes its id. -/
theorem AddsAlike.unguarded {c c' : Ctx} (h : AddsAlike c c') (hn : c'.nProps = c.nProps)
    (hok : c.Ok) (ht : TablesOk c) (hok' : c'.Ok) (ht' : TablesOk c') (hi : c.nProps ≤ i) :
    c'.guardVars i = none := by
  by_contra hne
  have hcap : i < c'.propCapacity := by
    by_contra hcap
    exact hne (ht'.noGuard i (by omega))
  have hmax := ht'.cap.2
  obtain ⟨hv,_⟩ := addAll_idle (n := i+1-c.nProps) hok ht (by omega)
  obtain ⟨hv',d',hd',hdr⟩ := addAll_idle (n := i+1-c.nProps) hok' ht' (by omega)
  obtain ⟨r,hr⟩ := Option.isSome_iff_exists.mp (hdr i (by omega) (Or.inl (by omega)))
  have hnot : ∀ v, Addition.guard r v ∉ List.replicate (i+1-c.nProps) idle := fun v hmem => by
    cases List.eq_of_mem_replicate hmem
  obtain ⟨hdt,_,hguards⟩ := addAll_ok hok' ht' hv' hd'
  obtain ⟨_,_,_,hnone⟩ := h _ hv d' hd'
  have hguard := hnone i r hi hr hnot
  rw [propGuard_eq hdt,(hdt.ids i r hr).2,hguards i r hr hnot] at hguard
  exact hne hguard

end Promise

def oneVar : Session where
  ctx :=
    { vars := fun _ => ⟨0,1,(0,0),1,false,false,false,false⟩
      nVars := 1
      props := fun _ => ⟨none,0,0,false,false,.done .ok⟩
      poolTop := 0
      nProps := 0
      propRefs := fun _ => none
      propCapacity := 0
      guardVars := fun _ => none
      guardIx := none
      guardDirty := false
      growable := true
      watchers := fun _ => []
      queue := .empty
      unassignedMask := 1
      dynamic := []
      trailTop := none
      trailCount := 0
      entailTop := none
      levelMarks := fun _ => ⟨0,none,0,none⟩
      decisionLevel := 0
      currentPropRef := none
      currentFlags := 0 }
  db := none
  nAnalyses := 0
  arenaEmpty := true
  conflictProp := none
  modLinks := []
  mulLinks := []
  extMemo := []
  initialVars := none
  initialNVars := 0
  poolFloor := 0
  checkpoints := []

theorem oneVar_ok : oneVar.Ok where
  ctx := ⟨⟨_,QueueOk.of_empty rfl fun _ => rfl⟩,⟨by simp [oneVar],by simp [oneVar]⟩,by simp [oneVar],
    by simp [oneVar],by simp [oneVar]⟩
  priority _ := by simp [oneVar,nLevels]
  tables := ⟨by simp [oneVar],by simp [oneVar,maxProps],by simp [oneVar],by simp [oneVar],
    by simp [oneVar,IndexOk]⟩
  mod := by simp [oneVar]
  mul := by simp [oneVar]
  memo := by simp [oneVar]
  initial := by simp [oneVar]
  floor := le_refl _

end Solver
end DvSolve
