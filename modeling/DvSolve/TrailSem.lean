import DvSolve.Queue
import DvSolve.Trail

/-! Correctness of backtracking.
Every state reached since a level was pushed evolves from the state at the push: the
records above the mark lead back to it, and undoing them newest first restores its
bounds. Evolutions compose, so any number of levels is popped at once. -/
namespace DvSolve
namespace Solver

open Linked

variable {live : ℕ → Bool} {prev : ℕ → Option ℕ} {base : ℕ} {stop top : Option ℕ} {l : List ℕ}
variable {q : ℕ → List ℕ}

  {o : Op}

theorem setWidth_signExtend (x : BitVec 32) : (x.signExtend 64).setWidth 32 = x := by
  apply BitVec.eq_of_getLsbD_eq
  intro i hi
  rw [BitVec.getLsbD_setWidth,BitVec.getLsbD_signExtend]
  simp [hi]
  intro
  omega

theorem setBound_storedBound (v : Variable) (k : TrailKind) (b : BitVec 64) :
    setBound (setBound v k b) k (storedBound v k) = v := by
  obtain ⟨lo,hi,⟨wlo,whi⟩,w,s,t1,t2,aux⟩ := v
  cases k <;> cases t1 <;> cases t2 <;>
    simp [setBound,storedBound,Variable.tier0,setWidth_signExtend]

section Records

variable {c c' : Ctx} {a : ℕ}

theorem trailAt_of_extends (h : c.dynamic <+: c'.dynamic) (ha : a < c.dynamic.length) :
    trailAt c' a = trailAt c a := by
  obtain ⟨t,ht⟩ := h
  rw [trailAt,trailAt,← ht,List.getElem?_append_left ha]

theorem entailAt_of_extends (h : c.dynamic <+: c'.dynamic) (ha : a < c.dynamic.length) :
    entailAt c' a = entailAt c a := by
  obtain ⟨t,ht⟩ := h
  rw [entailAt,entailAt,← ht,List.getElem?_append_left ha]

theorem lt_of_trailAt (h : (trailAt c a).isSome = true) : a < c.dynamic.length := by
  by_contra hge
  simp [trailAt,List.getElem?_eq_none (not_lt.mp hge)] at h

theorem lt_of_entailAt (h : (entailAt c a).isSome = true) : a < c.dynamic.length := by
  by_contra hge
  simp [entailAt,List.getElem?_eq_none (not_lt.mp hge)] at h

def trailPrev (c : Ctx) (a : ℕ) : Option ℕ := (trailAt c a).bind TrailEntry.prev

def entailPrev (c : Ctx) (a : ℕ) : Option ℕ := (entailAt c a).bind EntailEntry.prev

def entailRef (c : Ctx) (a : ℕ) : Option ℕ := (entailAt c a).map EntailEntry.propRef

/-- The addresses `l` lead from `top` to `stop` through live records made since `base`. -/
structure Chain (live : ℕ → Bool) (prev : ℕ → Option ℕ) (base : ℕ) (stop top : Option ℕ)
    (l : List ℕ) : Prop where
  path : Path prev stop top l
  live : ∀ a ∈ l, live a = true
  since : ∀ a ∈ l, base ≤ a
  nodup : l.Nodup

theorem Chain.nil (live : ℕ → Bool) (prev : ℕ → Option ℕ) (base : ℕ) (top : Option ℕ) :
    Chain live prev base top top [] := ⟨rfl,by simp,by simp,List.nodup_nil⟩

theorem Chain.congr {live' : ℕ → Bool} {prev' : ℕ → Option ℕ} (h : Chain live prev base stop top l)
    (hl : ∀ a ∈ l, live' a = live a) (hp : ∀ a ∈ l, prev' a = prev a) :
    Chain live' prev' base stop top l :=
  ⟨h.path.congr hp,fun a ha => (hl a ha).trans (h.live a ha),h.since,h.nodup⟩

theorem Chain.append {mid : ℕ} {m : Option ℕ} {l' : List ℕ} (h : Chain live prev mid m top l)
    (h' : Chain live prev base stop m l') (hlt : ∀ a ∈ l', a < mid) (hbase : base ≤ mid) :
    Chain live prev base stop top (l ++ l') := by
  refine ⟨h.path.append h'.path,fun a ha => ?_,fun a ha => ?_,?_⟩
  · rcases List.mem_append.mp ha with ha | ha
    · exact h.live a ha
    · exact h'.live a ha
  · rcases List.mem_append.mp ha with ha | ha
    · exact hbase.trans (h.since a ha)
    · exact h'.since a ha
  · refine List.nodup_append.mpr ⟨h.nodup,h'.nodup,fun a ha b hb he => ?_⟩
    have h1 := h.since a ha
    have h2 := hlt b hb
    omega

theorem Chain.cons (h : Chain live prev base stop top l) (hlive : live a = true)
    (hprev : prev a = top) (hbase : base ≤ a) (hnew : a ∉ l) :
    Chain live prev base stop (some a) (a :: l) := by
  refine ⟨⟨rfl,hprev ▸ h.path⟩,?_,?_,List.nodup_cons.mpr ⟨hnew,h.nodup⟩⟩
  · simpa [hlive] using h.live
  · simpa [hbase] using h.since

theorem length_le_of_nodup {n : ℕ} (hl : l.Nodup) (h : ∀ a ∈ l, a < n) :
    l.length ≤ n := by
  have hsub : l.toFinset ⊆ Finset.range n := fun a ha =>
    Finset.mem_range.mpr (h a (List.mem_toFinset.mp ha))
  have hcard := Finset.card_le_card hsub
  rwa [List.toFinset_card_of_nodup hl,Finset.card_range] at hcard

end Records

theorem undoEntry_rest (c : Ctx) (a : ℕ) : undoEntry c a = { c with vars := (undoEntry c a).vars } := by
  unfold undoEntry
  cases trailAt c a <;> rfl

theorem undoEntries_rest (l : List ℕ) (c : Ctx) :
    l.foldl undoEntry c = { c with vars := (l.foldl undoEntry c).vars } := by
  induction l generalizing c with
  | nil => rfl
  | cons a l ih =>
    rw [List.foldl_cons,ih]
    have h := undoEntry_rest c a
    rw [h]

theorem undoEntries_var {c c' : Ctx} {i : ℕ} (h : ∀ a ∈ l, trailAt c' a = trailAt c a)
    (hv : c'.vars i = c.vars i) : (l.foldl undoEntry c').vars i = (l.foldl undoEntry c).vars i := by
  induction l generalizing c c' with
  | nil => exact hv
  | cons a l ih =>
    have ha := h a (by simp)
    have hat : ∀ c b, trailAt (undoEntry c a) b = trailAt c b := fun c b => by
      rw [undoEntry_rest]
      rfl
    refine ih (fun b hb => ?_) ?_
    · rw [hat,hat]
      exact h b (by simp [hb])
    · unfold undoEntry
      rw [ha]
      cases trailAt c a with
      | none => exact hv
      | some e =>
        by_cases hi : i = e.varId
        · subst hi
          simp [Ctx.setVar,hv]
        · simp [Ctx.setVar,hi,hv]

theorem undoEntries_congr {c c' : Ctx} (hv : c'.vars = c.vars)
    (h : ∀ a ∈ l, trailAt c' a = trailAt c a) :
    (l.foldl undoEntry c').vars = (l.foldl undoEntry c).vars :=
  funext fun i => undoEntries_var h (congrFun hv i)

theorem undoEntail_rest (c : Ctx) (a : ℕ) :
    undoEntail c a = { c with props := (undoEntail c a).props } := by
  unfold undoEntail
  cases entailAt c a with
  | none => rfl
  | some x =>
    dsimp only
    split_ifs <;> rfl

def unmarked (p : Propagator) : Propagator := { p with entailed := false }

theorem undoEntail_props (c : Ctx) (a r : ℕ) : (undoEntail c a).props r =
    if entailRef c a = some r ∧ isLive c r = true then unmarked (c.props r) else c.props r := by
  unfold undoEntail entailRef
  cases entailAt c a with
  | none => simp
  | some x =>
    by_cases hx : isLive c x.propRef = true
    · by_cases hr : r = x.propRef
      · subst hr
        simp [Ctx.setProp,hx,unmarked]
      · simp [Ctx.setProp,hx,hr,Ne.symm hr]
    · by_cases hr : r = x.propRef
      · subst hr
        simp [hx]
      · simp [hx,Ne.symm hr]

theorem undoEntail_isLive (c : Ctx) (a r : ℕ) : isLive (undoEntail c a) r = isLive c r := by
  have hid : ((undoEntail c a).props r).propId = (c.props r).propId := by
    rw [undoEntail_props]
    split_ifs <;> rfl
  unfold isLive
  rw [hid,undoEntail_rest c a]

theorem undoEntail_entailRef (c : Ctx) (a : ℕ) : entailRef (undoEntail c a) = entailRef c := by
  funext b
  unfold entailRef entailAt
  rw [undoEntail_rest c a]

theorem undoEntails_eq (l : List ℕ) (c : Ctx) : l.foldl undoEntail c =
    { c with props := fun r =>
        if r ∈ l.filterMap (entailRef c) ∧ isLive c r = true then unmarked (c.props r)
        else c.props r } := by
  induction l generalizing c with
  | nil => simp
  | cons a l ih =>
    have hprops : ∀ r, (if r ∈ l.filterMap (entailRef c) ∧ isLive c r = true
          then unmarked ((undoEntail c a).props r) else (undoEntail c a).props r) =
        if r ∈ (a :: l).filterMap (entailRef c) ∧ isLive c r = true then unmarked (c.props r)
        else c.props r := by
      intro r
      have hmem : r ∈ (a :: l).filterMap (entailRef c) ↔
          entailRef c a = some r ∨ r ∈ l.filterMap (entailRef c) := by simp [List.mem_filterMap]
      simp only [undoEntail_props,hmem]
      by_cases h1 : isLive c r = true <;> by_cases h2 : entailRef c a = some r <;>
        by_cases h3 : r ∈ l.filterMap (entailRef c) <;> simp [h1,h2,h3,unmarked]
    rw [List.foldl_cons,ih,undoEntail_entailRef]
    simp only [undoEntail_isLive,hprops]
    rw [undoEntail_rest c a]

def markOf (s : Ctx) : LevelMark := ⟨s.dynamic.length,s.trailTop,s.trailCount,s.entailTop⟩

structure TopsOk (c : Ctx) : Prop where
  trail : ∀ a, c.trailTop = some a → a < c.dynamic.length
  entail : ∀ a, c.entailTop = some a → a < c.dynamic.length

/-- `c` was reached from `s`, the state at a push, with the propagators `new` marked
entailed on the way. -/
structure Evolves (s : Ctx) (new : List ℕ) (c : Ctx) : Prop where
  level : s.decisionLevel ≤ c.decisionLevel
  mark : c.levelMarks s.decisionLevel = markOf s
  lower : ∀ l < s.decisionLevel, c.levelMarks l = s.levelMarks l
  dynamic : s.dynamic <+: c.dynamic
  trail : ∃ l, Chain (fun a => (trailAt c a).isSome) (trailPrev c) s.dynamic.length s.trailTop
    c.trailTop l ∧ (l.foldl undoEntry c).vars = s.vars
  entail : ∃ l, Chain (fun a => (entailAt c a).isSome) (entailPrev c) s.dynamic.length s.entailTop
    c.entailTop l ∧ ∀ r, r ∈ l.filterMap (entailRef c) ↔ r ∈ new

section Evolves

variable {s c m : Ctx} {new new' : List ℕ}

theorem Chain.trail_of_prefix {c' : Ctx}
    (h : Chain (fun a => (trailAt c a).isSome) (trailPrev c) base stop top l)
    (hd : c.dynamic <+: c'.dynamic) :
    Chain (fun a => (trailAt c' a).isSome) (trailPrev c') base stop top l := by
  have heq : ∀ a ∈ l, trailAt c' a = trailAt c a := fun a ha =>
    trailAt_of_extends hd (lt_of_trailAt (h.live a ha))
  exact h.congr (fun a ha => by rw [heq a ha]) (fun a ha => by rw [trailPrev,trailPrev,heq a ha])

theorem Chain.entail_of_prefix {c' : Ctx}
    (h : Chain (fun a => (entailAt c a).isSome) (entailPrev c) base stop top l)
    (hd : c.dynamic <+: c'.dynamic) :
    Chain (fun a => (entailAt c' a).isSome) (entailPrev c') base stop top l ∧
      l.filterMap (entailRef c') = l.filterMap (entailRef c) := by
  have heq : ∀ a ∈ l, entailAt c' a = entailAt c a := fun a ha =>
    entailAt_of_extends hd (lt_of_entailAt (h.live a ha))
  refine ⟨h.congr (fun a ha => by rw [heq a ha])
    (fun a ha => by rw [entailPrev,entailPrev,heq a ha]),?_⟩
  exact List.filterMap_congr fun a ha => by rw [entailRef,entailRef,heq a ha]

theorem Chain.trail_push
    (h : Chain (fun a => (trailAt c a).isSome) (trailPrev c) base stop c.trailTop l)
    (hbase : base ≤ c.dynamic.length) {id : ℕ} {v : Variable} {e : TrailEntry} (hid : e.varId = id)
    (hv : setBound v e.kind e.oldValue = c.vars id) :
    Chain (fun a => (trailAt (pushEntry (c.setVar id v) e) a).isSome)
        (trailPrev (pushEntry (c.setVar id v) e)) base stop
        (pushEntry (c.setVar id v) e).trailTop (c.dynamic.length :: l) ∧
      ((c.dynamic.length :: l).foldl undoEntry (pushEntry (c.setVar id v) e)).vars =
        (l.foldl undoEntry c).vars := by
  have hd : c.dynamic <+: (pushEntry (c.setVar id v) e).dynamic := List.prefix_append _ _
  have hat : trailAt (pushEntry (c.setVar id v) e) c.dynamic.length =
      some { e with prev := c.trailTop } := by
    simp [trailAt,pushEntry,Ctx.setVar]
  constructor
  · refine (h.trail_of_prefix hd).cons (a := c.dynamic.length) ?_ ?_ hbase
      fun hmem => absurd (lt_of_trailAt (h.live _ hmem)) (lt_irrefl _)
    · rw [hat]
      rfl
    · rw [trailPrev,hat]
      rfl
  · rw [List.foldl_cons]
    refine undoEntries_congr ?_ fun a ha => ?_
    · unfold undoEntry
      rw [hat]
      simp [pushEntry,Ctx.setVar,hid,hv]
    · rw [undoEntry_rest]
      exact trailAt_of_extends hd (lt_of_trailAt (h.live a ha))

theorem Chain.entail_push
    (h : Chain (fun a => (entailAt c a).isSome) (entailPrev c) base stop c.entailTop l)
    (hbase : base ≤ c.dynamic.length) (ref : ℕ) :
    Chain (fun a => (entailAt (trailMarkEntailed c ref) a).isSome)
        (entailPrev (trailMarkEntailed c ref)) base stop (trailMarkEntailed c ref).entailTop
        (c.dynamic.length :: l) ∧
      (c.dynamic.length :: l).filterMap (entailRef (trailMarkEntailed c ref)) =
        ref :: l.filterMap (entailRef c) := by
  have hd : c.dynamic <+: (trailMarkEntailed c ref).dynamic := List.prefix_append _ _
  have hat : entailAt (trailMarkEntailed c ref) c.dynamic.length = some ⟨c.entailTop,ref⟩ := by
    simp [entailAt,trailMarkEntailed,Ctx.setProp]
  constructor
  · refine (h.entail_of_prefix hd).1.cons (a := c.dynamic.length) ?_ ?_ hbase
      fun hmem => absurd (lt_of_entailAt (h.live _ hmem)) (lt_irrefl _)
    · rw [hat]
      rfl
    · rw [entailPrev,hat]
      rfl
  · have href : entailRef (trailMarkEntailed c ref) c.dynamic.length = some ref := by
      rw [entailRef,hat]
      rfl
    rw [List.filterMap_cons_some href,(h.entail_of_prefix hd).2]

theorem Evolves.push (c : Ctx) : Evolves c [] (trailPushLevel c) := by
  refine ⟨Nat.le_succ _,?_,fun l hl => ?_,List.prefix_rfl,⟨[],Chain.nil _ _ _ _,rfl⟩,
    ⟨[],Chain.nil _ _ _ _,by simp⟩⟩
  · simp [trailPushLevel,markOf]
  · simp [trailPushLevel,hl.ne]

/-- A push above the level of `s` keeps what leads back to `s`. -/
theorem Evolves.trans (h : Evolves s new m) (h' : Evolves m new' c)
    (hlt : s.decisionLevel < m.decisionLevel) : Evolves s (new ++ new') c := by
  have hlen : s.dynamic.length ≤ m.dynamic.length := h.dynamic.length_le
  obtain ⟨t,ht,htv⟩ := h.trail
  obtain ⟨t',ht',htv'⟩ := h'.trail
  obtain ⟨x,hx,hxr⟩ := h.entail
  obtain ⟨x',hx',hxr'⟩ := h'.entail
  refine ⟨h.level.trans h'.level,?_,fun l hl => ?_,h.dynamic.trans h'.dynamic,
    ⟨t' ++ t,?_,?_⟩,⟨x' ++ x,?_,fun r => ?_⟩⟩
  · rw [h'.lower _ hlt,h.mark]
  · rw [h'.lower l (hl.trans hlt),h.lower l hl]
  · exact ht'.append (ht.trail_of_prefix h'.dynamic) (fun a ha => lt_of_trailAt (ht.live a ha)) hlen
  · rw [List.foldl_append,← htv]
    refine undoEntries_congr htv' fun a ha => ?_
    rw [undoEntries_rest]
    exact trailAt_of_extends h'.dynamic (lt_of_trailAt (ht.live a ha))
  · exact hx'.append (hx.entail_of_prefix h'.dynamic).1 (fun a ha => lt_of_entailAt (hx.live a ha))
      hlen
  · rw [List.filterMap_append,List.mem_append,List.mem_append,hxr',
      (hx.entail_of_prefix h'.dynamic).2,hxr,or_comm]

theorem Evolves.pushEntry (h : Evolves s new c) {id : ℕ} {v : Variable} {e : TrailEntry}
    (hid : e.varId = id) (hv : setBound v e.kind e.oldValue = c.vars id) :
    Evolves s new (pushEntry (c.setVar id v) e) := by
  have hd : c.dynamic <+: (Solver.pushEntry (c.setVar id v) e).dynamic := List.prefix_append _ _
  obtain ⟨t,ht,htv⟩ := h.trail
  obtain ⟨x,hx,hxr⟩ := h.entail
  obtain ⟨hp,hpv⟩ := ht.trail_push h.dynamic.length_le hid hv
  refine ⟨h.level,h.mark,h.lower,h.dynamic.trans hd,⟨_,hp,hpv.trans htv⟩,⟨x,?_,fun r => ?_⟩⟩
  · exact (hx.entail_of_prefix hd).1
  · rw [(hx.entail_of_prefix hd).2,hxr]

theorem Evolves.markEntailed (h : Evolves s new c) (ref : ℕ) :
    Evolves s (new ++ [ref]) (trailMarkEntailed c ref) := by
  have hd : c.dynamic <+: (trailMarkEntailed c ref).dynamic := List.prefix_append _ _
  obtain ⟨t,ht,htv⟩ := h.trail
  obtain ⟨x,hx,hxr⟩ := h.entail
  obtain ⟨hp,hpr⟩ := hx.entail_push h.dynamic.length_le ref
  refine ⟨h.level,h.mark,h.lower,h.dynamic.trans hd,⟨t,ht.trail_of_prefix hd,?_⟩,⟨_,hp,fun r => ?_⟩⟩
  · rw [← htv]
    exact undoEntries_congr rfl fun a ha => trailAt_of_extends hd (lt_of_trailAt (ht.live a ha))
  · rw [hpr,List.mem_cons,hxr,List.mem_append,List.mem_singleton,or_comm]

end Evolves

/-- The state a backtrack to the mark of `s` leaves. -/
def restored (s : Ctx) (new : List ℕ) (c : Ctx) : Ctx :=
  { c with
    vars := s.vars
    props := fun r =>
      if (c.props r).inQueue then cleared (c.props r)
      else if r ∈ new ∧ isLive c r = true then unmarked (c.props r) else c.props r
    queue := .empty
    unassignedMask := if c.nVars ≤ 64 then openMask s.vars c.nVars else c.unassignedMask
    dynamic := s.dynamic
    trailTop := s.trailTop
    trailCount := s.trailCount
    entailTop := s.entailTop
    decisionLevel := s.decisionLevel }

theorem QueueOk.congr {c c' : Ctx} (hq : QueueOk c q) (hqueue : c'.queue = c.queue)
    (htop : c'.poolTop = c.poolTop) (hprops : ∀ r, (c'.props r).queueNext = (c.props r).queueNext ∧
      (c'.props r).inQueue = (c.props r).inQueue ∧ (c'.props r).priority = (c.props r).priority) :
    QueueOk c' q := by
  refine ⟨fun l => ?_,fun l => ?_,fun l => ?_,fun l r hr => ?_,fun r hr => ?_,hq.nodup,hq.levels⟩
  · rw [hqueue]
    exact (hq.chain l).congr fun r _ => (hprops r).1
  · rw [hqueue,hq.tail]
  · rw [hqueue,hq.mask]
  · rw [(hprops r).2.1,(hprops r).2.2,htop]
    exact hq.mem l r hr
  · rw [(hprops r).2.1] at hr
    rw [(hprops r).2.2]
    exact hq.queued r hr

section Restoring

variable {s c : Ctx} {new : List ℕ}

/-- The walk of the trail stops at the mark and puts the bounds of the push back. -/
theorem Evolves.undoTrail (h : Evolves s new c) (hs : TopsOk s) :
    undoTrail c (markOf s) = some { c with vars := s.vars } := by
  obtain ⟨l,hl,hv⟩ := h.trail
  have hdone : ∀ a ∈ l, (some a == s.trailTop) = false := fun a ha => by
    rw [beq_eq_false_iff_ne]
    intro he
    have h1 := hs.trail a he.symm
    have h2 := hl.since a ha
    omega
  have hwalk := walk_eq (s := c) (· == s.trailTop) (fun c a => (trailAt c a).isSome) trailPrev
    undoEntry (fun c a b => by rw [undoEntry_rest]; rfl)
    (fun c a b _ => by rw [undoEntry_rest]; rfl) s.trailTop (by simp) hdone hl.nodup
    (Nat.lt_succ_of_le (length_le_of_nodup hl.nodup fun a ha => lt_of_trailAt (hl.live a ha)))
    hl.live hl.path
  rw [undoEntries_rest,hv] at hwalk
  exact hwalk

theorem Evolves.undoEntails (h : Evolves s new c) (hs : TopsOk s) :
    undoEntails { c with vars := s.vars } (markOf s) = some { c with
      vars := s.vars
      props := fun r => if r ∈ new ∧ isLive c r = true then unmarked (c.props r) else c.props r } := by
  obtain ⟨l,hl,hr⟩ := h.entail
  have hdone : ∀ a ∈ l, ((some a == none) || (some a == s.entailTop)) = false := fun a ha => by
    rw [Bool.or_eq_false_iff,beq_eq_false_iff_ne,beq_eq_false_iff_ne]
    refine ⟨by simp,fun he => ?_⟩
    have h1 := hs.entail a he.symm
    have h2 := hl.since a ha
    omega
  have hwalk := walk_eq (s := { c with vars := s.vars })
    (fun h => h == none || h == s.entailTop) (fun c a => (entailAt c a).isSome) entailPrev
    undoEntail (fun c a b => by rw [undoEntail_rest]; rfl)
    (fun c a b _ => by rw [undoEntail_rest]; rfl) s.entailTop (by simp) hdone hl.nodup
    (Nat.lt_succ_of_le (length_le_of_nodup hl.nodup fun a ha => lt_of_entailAt (hl.live a ha)))
    hl.live hl.path
  rw [undoEntails_eq] at hwalk
  refine hwalk.trans ?_
  have href : entailRef { c with vars := s.vars } = entailRef c := rfl
  have hlive : isLive { c with vars := s.vars } = isLive c := rfl
  simp only [href,hlive,hr]

theorem rebuildMask_eq (c : Ctx) : rebuildMask c = { c with
    unassignedMask := if c.nVars ≤ 64 then openMask c.vars c.nVars else c.unassignedMask } := by
  unfold rebuildMask
  split_ifs <;> rfl

theorem Evolves.trailBacktrack (h : Evolves s new c) (hs : TopsOk s)
    (hq : QueueOk c q) : trailBacktrack c s.decisionLevel = some (restored s new c) := by
  have hmark : s.dynamic = c.dynamic.take s.dynamic.length := by
    obtain ⟨t,ht⟩ := h.dynamic
    rw [← ht,List.take_left]
  unfold Solver.trailBacktrack
  dsimp only
  rw [h.mark,h.undoTrail hs,Option.bind_eq_bind,Option.bind_some,h.undoEntails hs,Option.bind_some]
  have hq' : QueueOk (rebuildMask (popToMark { c with
      vars := s.vars
      props := fun r => if r ∈ new ∧ isLive c r = true then unmarked (c.props r) else c.props r }
      s.decisionLevel (markOf s))) q := by
    rw [rebuildMask_eq]
    refine hq.congr rfl rfl fun r => ?_
    simp only [popToMark]
    split_ifs <;> exact ⟨rfl,rfl,rfl⟩
  rw [clearQueue_ok hq',rebuildMask_eq]
  simp only [popToMark,markOf,restored,Option.some.injEq]
  congr 1
  · funext r
    by_cases h1 : r ∈ new ∧ isLive c r = true <;> cases h2 : (c.props r).inQueue <;>
      simp [h1,h2,unmarked,cleared]
  · exact hmark.symm

end Restoring

theorem propEnqueue_rest (c : Ctx) (ref : ℕ) : propEnqueue c ref =
    { c with props := (propEnqueue c ref).props, queue := (propEnqueue c ref).queue } := by
  unfold propEnqueue
  dsimp only
  split_ifs
  · rfl
  · split <;> rfl

/-- What waking a variable keeps: what queueing a registered propagator, building the index and
changing the mask keep. -/
structure Waking (P : Ctx → Prop) : Prop where
  enqueue : ∀ {c ref}, P c → (∃ v, ref ∈ c.watchers v) ∨ (∃ i, c.propRefs i = some ref) →
    P (propEnqueue c ref)
  index : ∀ {c} nv np, P c →
    P { c with guardIx := some ⟨nv,np,guardedBy c.guardVars np⟩, guardDirty := false }
  mask : ∀ {c} m, P c → P { c with unassignedMask := m }

section Waking

variable {P : Ctx → Prop} {c : Ctx} (hp : Waking P) (h : P c)
include hp

theorem Waking.wakeIds (l : List ℕ) {c : Ctx} (h : P c) : P (l.foldl wakeId c) := by
  refine List.foldlRecOn (motive := P) l _ h fun c hc i _ => ?_
  unfold wakeId
  cases hi : c.propRefs i with
  | none => exact hc
  | some ref => exact hp.enqueue hc (.inr ⟨i,hi⟩)

theorem Waking.guardIxBuild (nv np : ℕ) {c : Ctx} (h : P c) : P (guardIxBuild c nv np) := by
  unfold Solver.guardIxBuild
  split
  · split_ifs
    · exact h
    · exact hp.index nv np h
  · exact hp.index nv np h

include h

theorem Waking.wakeVar (v : ℕ) : P (wakeVar c v) := by
  have hw : P ((c.watchers v).foldl propEnqueue c) :=
    (List.foldlRecOn (motive := fun d => P d ∧ d.watchers = c.watchers) _ _ ⟨h,rfl⟩ fun d hd r hr =>
      ⟨hp.enqueue hd.1 (.inl ⟨v,hd.2 ▸ hr⟩),by rw [propEnqueue_rest]; exact hd.2⟩).1
  unfold Solver.wakeVar wakeGuards
  dsimp only
  split_ifs
  · split
    · split_ifs
      · exact hp.guardIxBuild _ _ hw
      · exact hp.wakeIds _ (hp.guardIxBuild _ _ hw)
    · exact hp.guardIxBuild _ _ hw
  · exact hp.wakeIds _ hw

theorem Waking.afterTighten (id : ℕ) (empty single : Bool) : P (afterTighten c id empty single).2 := by
  unfold Solver.afterTighten
  split_ifs
  · exact h
  · exact hp.wakeVar (hp.mask _ h) id
  · exact hp.wakeVar h id

end Waking

theorem afterTighten_keeps (c : Ctx) (id : ℕ) (empty single : Bool) :
    (afterTighten c id empty single).2.vars = c.vars :=
  Waking.afterTighten (P := fun d => d.vars = c.vars)
    ⟨fun h _ => by rw [propEnqueue_rest]; exact h,fun _ _ h => h,fun _ h => h⟩ rfl id empty single

/-- A context whose tables, queue and stack are well formed. -/
structure Ctx.Ok (c : Ctx) : Prop where
  queue : ∃ q, QueueOk c q
  tops : TopsOk c
  priority : ∀ r < c.poolTop, (c.props r).priority < nLevels
  watchers : ∀ v, ∀ r ∈ c.watchers v, r < c.poolTop
  refs : ∀ i r, c.propRefs i = some r → r < c.poolTop

/-- A state that differs from `c` in nothing that a backtrack reads or restores, the
queue and the mask of unassigned variables apart. -/
structure Quiet (c c' : Ctx) : Prop where
  rest : c' = { c with
    props := c'.props, queue := c'.queue, unassignedMask := c'.unassignedMask
    guardIx := c'.guardIx, guardDirty := c'.guardDirty
    currentPropRef := c'.currentPropRef, currentFlags := c'.currentFlags }
  priority : ∀ r, (c'.props r).priority = (c.props r).priority

theorem Quiet.refl (c : Ctx) : Quiet c c := ⟨rfl,fun _ => rfl⟩

theorem Quiet.trans {c c' c'' : Ctx} (h : Quiet c c') (h' : Quiet c' c'') : Quiet c c'' := by
  refine ⟨?_,fun r => (h'.priority r).trans (h.priority r)⟩
  rw [h'.rest,h.rest]

theorem QueueStep.quiet {c c' : Ctx} (h : QueueStep c c') : Quiet c c' := by
  refine ⟨?_,h.priority⟩
  rw [h.rest]

def QuietOk (c c' : Ctx) : Prop := Quiet c c' ∧ c'.Ok

section Ops

variable {c c' : Ctx}

theorem Quiet.ok (h : Quiet c c') (hok : c.Ok) (hq : ∃ q, QueueOk c' q) : QuietOk c c' := by
  refine ⟨h,hq,?_,fun r hr => ?_,?_,?_⟩
  · rw [h.rest]
    exact ⟨hok.tops.trail,hok.tops.entail⟩
  · rw [h.priority]
    rw [h.rest] at hr
    exact hok.priority r hr
  · rw [h.rest]
    exact hok.watchers
  · rw [h.rest]
    exact hok.refs

theorem propEnqueue_quiet (hok : c.Ok) {ref : ℕ} (hr : ref < c.poolTop) :
    QuietOk c (propEnqueue c ref) := by
  obtain ⟨q,hq⟩ := hok.queue
  exact (propEnqueue_step hq ref).quiet.ok hok ⟨_,propEnqueue_ok hq hr (hok.priority ref hr)⟩

theorem quietOk_waking (c : Ctx) : Waking (QuietOk c) := by
  have hset : ∀ {d e : Ctx}, QuietOk c d → Quiet d e → e.queue = d.queue → e.props = d.props →
      QuietOk c e := by
    intro d e h hde hqueue hprops
    obtain ⟨q,hq⟩ := h.2.queue
    have htop : e.poolTop = d.poolTop := by rw [hde.rest]
    have he := hde.ok h.2 ⟨q,hq.congr hqueue htop fun _ => by rw [hprops]; exact ⟨rfl,rfl,rfl⟩⟩
    exact ⟨h.1.trans he.1,he.2⟩
  refine ⟨fun h hk => ?_,fun _ _ h => hset h ⟨rfl,fun _ => rfl⟩ rfl rfl,fun _ h =>
    hset h ⟨rfl,fun _ => rfl⟩ rfl rfl⟩
  obtain ⟨hq,hok⟩ := propEnqueue_quiet h.2
    (hk.elim (fun hv => h.2.watchers _ _ hv.choose_spec) fun hi => h.2.refs _ _ hi.choose_spec)
  exact ⟨h.1.trans hq,hok⟩

theorem afterTighten_quiet (hok : c.Ok) (id : ℕ) (empty single : Bool) :
    QuietOk c (afterTighten c id empty single).2 :=
  (quietOk_waking c).afterTighten ⟨.refl c,hok⟩ id empty single

theorem ctxTighten_cases (t : Tighten) (c : Ctx) (id : ℕ) (b : BitVec 64) :
    (ctxTighten t c id b).2 = c ∨ ∃ k new empty single,
      (ctxTighten t c id b).2 = (afterTighten (trailRecord k c id new) id empty single).2 := by
  cases t
  · simp only [ctxTighten,ctxTightenLb32]
    split_ifs
    · exact Or.inl rfl
    · exact Or.inr ⟨.lb,_,_,_,rfl⟩
  · simp only [ctxTighten,ctxTightenUb32]
    split_ifs
    · exact Or.inl rfl
    · exact Or.inr ⟨.ub,_,_,_,rfl⟩
  · simp only [ctxTighten,ctxTightenLb64]
    split_ifs
    · exact Or.inl rfl
    · exact Or.inl rfl
    · exact Or.inr ⟨.lb,_,_,_,rfl⟩
  · simp only [ctxTighten,ctxTightenUb64]
    split_ifs
    · exact Or.inl rfl
    · exact Or.inl rfl
    · exact Or.inr ⟨.ub,_,_,_,rfl⟩

theorem Waking.ctxTighten {P : Ctx → Prop} (hp : Waking P) (h : P c) {id : ℕ}
    (hrec : ∀ k new, P (trailRecord k c id new)) (t : Tighten) (b : BitVec 64) :
    P (ctxTighten t c id b).2 := by
  rcases ctxTighten_cases t c id b with he | ⟨k,new,empty,single,he⟩
  · rwa [he]
  · rw [he]
    exact hp.afterTighten (hrec k new) id empty single

theorem trailRecord_cases (k : TrailKind) (c : Ctx) (id : ℕ) (new : BitVec 64) :
    trailRecord k c id new = c ∨ ∃ v e, e.varId = id ∧ setBound v e.kind e.oldValue = c.vars id ∧
      trailRecord k c id new = pushEntry (c.setVar id v) e := by
  unfold trailRecord
  dsimp only
  split_ifs
  · exact Or.inr ⟨_,_,rfl,setBound_storedBound _ _ _,rfl⟩
  · exact Or.inr ⟨_,_,rfl,setBound_storedBound _ _ _,rfl⟩
  · exact Or.inl rfl

theorem Ctx.setVar_self (c : Ctx) (id : ℕ) : c.setVar id (c.vars id) = c := by
  simp [Ctx.setVar]

theorem pushEntry_ok (hok : c.Ok) (id : ℕ) (v : Variable) (e : TrailEntry) :
    (pushEntry (c.setVar id v) e).Ok := by
  obtain ⟨q,hq⟩ := hok.queue
  refine ⟨⟨q,hq.congr rfl rfl fun _ => ⟨rfl,rfl,rfl⟩⟩,⟨fun a ha => ?_,fun a ha => ?_⟩,
    hok.priority,hok.watchers,hok.refs⟩
  · obtain rfl : c.dynamic.length = a := by simpa [pushEntry,Ctx.setVar] using ha
    simp [pushEntry,Ctx.setVar]
  · have := hok.tops.entail a ha
    simp only [pushEntry,Ctx.setVar,List.length_append]
    omega

theorem trailMarkEntailed_ok (hok : c.Ok) (ref : ℕ) : (trailMarkEntailed c ref).Ok := by
  obtain ⟨q,hq⟩ := hok.queue
  have hprops : ∀ r, ((trailMarkEntailed c ref).props r).queueNext = (c.props r).queueNext ∧
      ((trailMarkEntailed c ref).props r).inQueue = (c.props r).inQueue ∧
      ((trailMarkEntailed c ref).props r).priority = (c.props r).priority := by
    intro r
    by_cases h : r = ref
    · subst h
      simp [trailMarkEntailed,Ctx.setProp]
    · simp [trailMarkEntailed,Ctx.setProp,h]
  refine ⟨⟨q,hq.congr rfl rfl hprops⟩,⟨fun a ha => ?_,fun a ha => ?_⟩,fun r hr => ?_,
    hok.watchers,hok.refs⟩
  · have := hok.tops.trail a ha
    simp only [trailMarkEntailed,Ctx.setProp,List.length_append]
    omega
  · obtain rfl : c.dynamic.length = a := by simpa [trailMarkEntailed,Ctx.setProp] using ha
    simp [trailMarkEntailed,Ctx.setProp]
  · rw [(hprops r).2.2]
    exact hok.priority r hr

theorem Evolves.quiet {s : Ctx} {new : List ℕ} (h : Evolves s new c) (hq : Quiet c c') :
    Evolves s new c' := by
  obtain ⟨l,hl,hv⟩ := h.trail
  rw [hq.rest]
  refine ⟨h.level,h.mark,h.lower,h.dynamic,⟨l,hl,?_⟩,h.entail⟩
  rw [← hv]
  exact undoEntries_congr rfl fun _ _ => rfl

def Op.marks : Op → List ℕ
  | .markEntailed ref => [ref]
  | _ => []

/-- The operation names an allocated propagator. -/
def Op.Valid (c : Ctx) : Op → Prop
  | .enqueue ref => ref < c.poolTop
  | _ => True

/-- An operation leaves the trail alone, pushes the old value of a bound it changes, or marks
a propagator entailed. -/
theorem Op.run_cases (hok : c.Ok) (ho : o.Valid c) : (o.run c).Ok ∧
    ((o.marks = [] ∧ (Quiet c (o.run c) ∨ ∃ id v e, e.varId = id ∧
        setBound v e.kind e.oldValue = c.vars id ∧ Quiet (pushEntry (c.setVar id v) e) (o.run c))) ∨
      ∃ ref, o = .markEntailed ref) := by
  cases o with
  | tighten t id b =>
    simp only [Op.run]
    rcases ctxTighten_cases t c id b with h | ⟨k,new,empty,single,h⟩
    · rw [h]
      exact ⟨hok,.inl ⟨rfl,.inl (.refl c)⟩⟩
    · rw [h]
      rcases trailRecord_cases k c id new with hr | ⟨v,e,hid,hv,hr⟩
      · rw [hr]
        have hq := afterTighten_quiet hok id empty single
        exact ⟨hq.2,.inl ⟨rfl,.inl hq.1⟩⟩
      · rw [hr]
        have hq := afterTighten_quiet (pushEntry_ok hok id v e) id empty single
        exact ⟨hq.2,.inl ⟨rfl,.inr ⟨id,v,e,hid,hv,hq.1⟩⟩⟩
  | hole id removed =>
    have h := pushEntry_ok hok id (c.vars id) ⟨none,id,.hole,.size32,c.decisionLevel % 2^16,removed,
      c.currentPropRef,c.currentFlags⟩
    refine ⟨?_,.inl ⟨rfl,.inr ⟨id,c.vars id,⟨none,id,.hole,.size32,c.decisionLevel % 2^16,removed,
      c.currentPropRef,c.currentFlags⟩,rfl,rfl,?_⟩⟩⟩
    · rwa [c.setVar_self] at h
    · rw [c.setVar_self]
      exact .refl _
  | markEntailed ref => exact ⟨trailMarkEntailed_ok hok ref,.inr ⟨ref,rfl⟩⟩
  | enqueue ref =>
    have hq := propEnqueue_quiet hok ho
    exact ⟨hq.2,.inl ⟨rfl,.inl hq.1⟩⟩
  | setReason ref flags =>
    obtain ⟨q,hq⟩ := hok.queue
    have h : Quiet c ((Op.setReason ref flags).run c) := ⟨rfl,fun _ => rfl⟩
    exact ⟨(h.ok hok ⟨q,hq.congr rfl rfl fun _ => ⟨rfl,rfl,rfl⟩⟩).2,.inl ⟨rfl,.inl h⟩⟩

theorem Op.run_ok (hok : c.Ok) (ho : o.Valid c) : (o.run c).Ok := (Op.run_cases hok ho).1

theorem Op.run_evolves {s : Ctx} {new : List ℕ} (hok : c.Ok) (ho : o.Valid c) (h : Evolves s new c) :
    Evolves s (new ++ o.marks) (o.run c) := by
  obtain ⟨-,⟨hm,hq | ⟨id,v,e,hid,hv,hq⟩⟩ | ⟨ref,rfl⟩⟩ := Op.run_cases hok ho
  · rw [hm,List.append_nil]
    exact h.quiet hq
  · rw [hm,List.append_nil]
    exact (h.pushEntry hid hv).quiet hq
  · exact h.markEntailed ref

end Ops

/-- A level pushed and not yet undone: the state at its push, and what had been marked
entailed by then. -/
structure Frame where
  start : Ctx
  log : List ℕ

/-- The states a context passes through: the operations, pushes, and backtracks to a
pushed level. The log lists the propagators marked entailed, oldest first; the frames
are the pushed levels, newest first. -/
inductive Run (c₀ : Ctx) : Ctx → List ℕ → List Frame → Prop
  | init : Run c₀ c₀ [] []
  | op {c : Ctx} {log : List ℕ} {fs : List Frame} (h : Run c₀ c log fs) (o : Op)
      (ho : o.Valid c) : Run c₀ (o.run c) (log ++ o.marks) fs
  | push {c : Ctx} {log : List ℕ} {fs : List Frame} (h : Run c₀ c log fs) :
      Run c₀ (trailPushLevel c) log
        (⟨c,log⟩ :: fs.filter fun f => f.start.decisionLevel < c.decisionLevel)
  | back {c c' : Ctx} {log : List ℕ} {above fs : List Frame} {f : Frame}
      (h : Run c₀ c log (above ++ f :: fs))
      (hb : trailBacktrack c f.start.decisionLevel = some c') : Run c₀ c' f.log (f :: fs)

/-- Every frame leads to the one above it, and the top one to `c`. -/
def FramesOk : Ctx → List ℕ → List Frame → Prop
  | _, _, [] => True
  | c, log, f :: fs => f.start.Ok ∧ (∃ new, log = f.log ++ new ∧ Evolves f.start new c) ∧
      (∀ g ∈ fs, g.start.decisionLevel < f.start.decisionLevel) ∧ FramesOk f.start f.log fs

section Run

variable {c : Ctx} {log : List ℕ} {f : Frame} {fs : List Frame}

theorem FramesOk.tail (h : FramesOk c log (f :: fs)) : FramesOk c log fs := by
  obtain ⟨_,⟨new,hlog,hev⟩,hlt,hrest⟩ := h
  cases fs with
  | nil => trivial
  | cons g gs =>
    obtain ⟨hok,⟨new',hlog',hev'⟩,hlt',hrest'⟩ := hrest
    refine ⟨hok,⟨new' ++ new,?_,hev'.trans hev (hlt g (by simp))⟩,hlt',hrest'⟩
    rw [hlog,hlog',List.append_assoc]

theorem FramesOk.drop {above : List Frame} (h : FramesOk c log (above ++ fs)) : FramesOk c log fs := by
  induction above with
  | nil => exact h
  | cons g above ih => exact ih h.tail

theorem FramesOk.filter {c : Ctx} {log : List ℕ} {fs : List Frame} (p : Frame → Bool)
    (h : FramesOk c log fs) : FramesOk c log (fs.filter p) := by
  induction fs generalizing c log with
  | nil => trivial
  | cons f fs ih =>
    cases hp : p f with
    | false =>
      rw [List.filter_cons_of_neg (by simp [hp])]
      exact ih h.tail
    | true =>
      rw [List.filter_cons_of_pos hp]
      obtain ⟨hok,hev,hlt,hrest⟩ := h
      exact ⟨hok,hev,fun g hg => hlt g (List.mem_of_mem_filter hg),ih hrest⟩

theorem FramesOk.op (hok : c.Ok) (ho : o.Valid c) (h : FramesOk c log fs) :
    FramesOk (o.run c) (log ++ o.marks) fs := by
  cases fs with
  | nil => trivial
  | cons f fs =>
    obtain ⟨hf,⟨new,hlog,hev⟩,hlt,hrest⟩ := h
    refine ⟨hf,⟨new ++ o.marks,?_,o.run_evolves hok ho hev⟩,hlt,hrest⟩
    rw [hlog,List.append_assoc]

theorem trailPushLevel_ok (hok : c.Ok) : (trailPushLevel c).Ok := by
  obtain ⟨q,hq⟩ := hok.queue
  exact ⟨⟨q,hq.congr rfl rfl fun _ => ⟨rfl,rfl,rfl⟩⟩,⟨hok.tops.trail,hok.tops.entail⟩,
    hok.priority,hok.watchers,hok.refs⟩

theorem restored_ok {s : Ctx} {new : List ℕ} (hok : c.Ok) (hs : TopsOk s) :
    (restored s new c).Ok := by
  have hprops : ∀ r, ((restored s new c).props r).inQueue = false ∧
      ((restored s new c).props r).priority = (c.props r).priority := by
    intro r
    cases h1 : (c.props r).inQueue <;> by_cases h2 : r ∈ new ∧ isLive c r = true <;>
      simp [restored,h1,h2,cleared,unmarked]
  refine ⟨⟨_,QueueOk.of_empty rfl fun r => (hprops r).1⟩,⟨hs.trail,hs.entail⟩,fun r hr => ?_,
    hok.watchers,hok.refs⟩
  rw [(hprops r).2]
  exact hok.priority r hr

theorem Evolves.restored {s : Ctx} {new : List ℕ} (h : Evolves s new c) :
    Evolves s [] (restored s new c) :=
  ⟨le_refl _,h.mark,h.lower,List.prefix_rfl,⟨[],Chain.nil _ _ _ _,rfl⟩,⟨[],Chain.nil _ _ _ _,by simp⟩⟩

theorem Run.ok {c₀ : Ctx} (h₀ : c₀.Ok) (h : Run c₀ c log fs) : c.Ok ∧ FramesOk c log fs := by
  induction h with
  | init => exact ⟨h₀,trivial⟩
  | op _ o ho ih => exact ⟨o.run_ok ih.1 ho,ih.2.op ih.1 ho⟩
  | @push c log fs _ ih =>
    refine ⟨trailPushLevel_ok ih.1,ih.1,⟨[],by simp,Evolves.push c⟩,fun g hg => ?_,ih.2.filter _⟩
    simpa using (List.mem_filter.mp hg).2
  | @back c c' log above fs f _ hb ih =>
    obtain ⟨hf,⟨new,hlog,hev⟩,hlt,hrest⟩ := ih.2.drop
    obtain ⟨q,hq⟩ := ih.1.queue
    rw [hev.trailBacktrack hf.tops hq,Option.some.injEq] at hb
    subst hb
    exact ⟨restored_ok ih.1 hf.tops,hf,⟨[],by simp,hev.restored⟩,hlt,hrest⟩

theorem openMask_getLsbD (vars : ℕ → Variable) (n i : ℕ) (hi : i < 64) :
    (openMask vars n).getLsbD i =
      decide (i < n ∧ (vars i).aux = false ∧ varLo64 (vars i) ≠ varHi64 (vars i)) := by
  induction n with
  | zero => simp [openMask]
  | succ n ih =>
    have hbit : (1#64 <<< n).getLsbD i = decide (i = n) := by
      rw [BitVec.getLsbD_shiftLeft,BitVec.getLsbD_one]
      by_cases h : i < n
      · simp [h,h.ne]
      · simp [hi,h]
        omega
    rw [openMask]
    split_ifs with h
    · rw [ih,decide_eq_decide]
      refine ⟨fun ⟨h1,h2⟩ => ⟨by omega,h2⟩,fun ⟨h1,h2,h3⟩ => ⟨?_,h2,h3⟩⟩
      rcases Nat.lt_succ_iff_lt_or_eq.mp h1 with h1 | rfl
      · exact h1
      · simp [h2,h3] at h
    · rw [BitVec.getLsbD_or,ih,hbit]
      rcases lt_trichotomy i n with h1 | rfl | h1
      · simp [h1,h1.ne,Nat.lt_succ_of_lt h1]
      · simp only [not_or,Bool.not_eq_true] at h
        simp [h]
      · simp [h1.ne',not_lt.mpr h1.le,show ¬i < n+1 by omega]

/-- From every state of a run, backtracking to a pushed level whose push has not been
undone restores the bounds, the trail and the level, clears `ENTAILED` on the live
propagators marked since the push and on those still queued, empties the queue and
recomputes the mask. -/
theorem trailBacktrack_restores {c₀ c : Ctx} {log : List ℕ} {above fs : List Frame} {f : Frame}
    (h₀ : c₀.Ok) (h : Run c₀ c log (above ++ f :: fs)) :
    ∃ new, log = f.log ++ new ∧ f.start.decisionLevel ≤ c.decisionLevel ∧
    ∃ c', trailBacktrack c f.start.decisionLevel = some c' ∧ c'.vars = f.start.vars ∧
      c'.trailTop = f.start.trailTop ∧ c'.trailCount = f.start.trailCount ∧
      c'.decisionLevel = f.start.decisionLevel ∧
      (∀ r, (c'.props r).entailed = true ↔ (c.props r).entailed = true ∧
        ¬(r ∈ new ∧ isLive c r = true) ∧ (c.props r).inQueue = false) ∧
      (∀ r, (c'.props r).inQueue = false) ∧
      (∀ l, c'.queue.heads l = none ∧ c'.queue.tails l = none) ∧ c'.queue.nonEmptyMask = 0 ∧
      (c'.nVars ≤ 64 → ∀ i < 64, c'.unassignedMask.getLsbD i = decide (i < c'.nVars ∧
        (c'.vars i).aux = false ∧ varLo64 (c'.vars i) ≠ varHi64 (c'.vars i))) := by
  obtain ⟨hok,hframes⟩ := h.ok h₀
  obtain ⟨hf,⟨new,hlog,hev⟩,_,_⟩ := hframes.drop
  obtain ⟨q,hq⟩ := hok.queue
  refine ⟨new,hlog,hev.level,restored f.start new c,hev.trailBacktrack hf.tops hq,rfl,rfl,rfl,rfl,
    fun r => ?_,fun r => ?_,fun l => ⟨rfl,rfl⟩,rfl,fun hn i hi => ?_⟩
  · cases h1 : (c.props r).inQueue <;> by_cases h2 : r ∈ new ∧ isLive c r = true <;>
      simp [restored,h1,h2,cleared,unmarked]
  · cases h1 : (c.props r).inQueue <;> by_cases h2 : r ∈ new ∧ isLive c r = true <;>
      simp [restored,h1,h2,cleared,unmarked]
  · have hn' : c.nVars ≤ 64 := hn
    simp only [restored,if_pos hn']
    exact openMask_getLsbD _ _ i hi

def oneProp : Ctx where
  vars := fun _ => ⟨0#32,10#32,(0#64,0#64),8,false,false,false,false⟩
  nVars := 1
  props := fun _ => ⟨none,0,0,false,false,.done .ok⟩
  poolTop := 1
  nProps := 1
  propRefs := fun i => if i = 0 then some 0 else none
  propCapacity := 1
  guardVars := fun _ => none
  guardIx := none
  guardDirty := false
  growable := true
  watchers := fun _ => []
  queue := .empty
  unassignedMask := 1#64
  dynamic := []
  trailTop := none
  trailCount := 0
  entailTop := none
  levelMarks := fun _ => ⟨0,none,0,none⟩
  decisionLevel := 0
  currentPropRef := none
  currentFlags := 0

theorem oneProp_ok : oneProp.Ok := by
  refine ⟨⟨_,QueueOk.of_empty rfl fun _ => rfl⟩,⟨by simp [oneProp],by simp [oneProp]⟩,
    fun _ _ => by simp [oneProp,nLevels],by simp [oneProp],fun i r h => ?_⟩
  simp only [oneProp] at h ⊢
  split_ifs at h
  simp_all

/-- One level with a tightening and an entailment is taken back. -/
theorem trailBacktrack_restores_level :
    ∃ c', trailBacktrack ((Op.markEntailed 0).run ((Op.tighten .lb32 0 3#64).run
        (trailPushLevel oneProp))) 0 = some c' ∧
      c'.vars = oneProp.vars ∧ (c'.props 0).entailed = false := by
  have hrun : Run oneProp _ _ ([] ++ ⟨oneProp,[]⟩ :: []) := Run.op (.op (.push .init)
    (.tighten .lb32 0 3#64) trivial) (.markEntailed 0) trivial
  obtain ⟨new,hnew,_,c',hc,hv,_,_,_,hent,_⟩ := trailBacktrack_restores oneProp_ok hrun
  refine ⟨c',hc,hv,?_⟩
  rw [← Bool.not_eq_true,hent]
  intro h
  refine h.2.1 ⟨?_,by decide⟩
  rw [← List.nil_append new,← hnew]
  decide

/-- A propagator that is queued when it is marked entailed loses the flag to a backtrack
that leaves its entailment record alone, and a backtrack to the current level after the
push of that level was undone follows a stale mark off the end of the trail. -/
theorem trailBacktrack_queued_stale :
    (∃ c f, Run oneProp c f.log [f] ∧ isLive c 0 = true ∧ (f.start.props 0).entailed = true ∧
      (c.props 0).entailed = true ∧
      (trailBacktrack c f.start.decisionLevel).map (fun c' => (c'.props 0).entailed) = some false) ∧
    ∃ c₁ c₂ log f, Run oneProp c₁ log [f,⟨oneProp,[]⟩] ∧ f.start.decisionLevel = 1 ∧
      trailBacktrack c₁ 0 = some c₂ ∧
      Run oneProp ((Op.tighten .lb32 0 5#64).run (trailPushLevel c₂)) [] [⟨c₂,[]⟩] ∧
      ((Op.tighten .lb32 0 5#64).run (trailPushLevel c₂)).decisionLevel = 1 ∧
      (trailBacktrack ((Op.tighten .lb32 0 5#64).run (trailPushLevel c₂)) 1).isNone = true := by
  have hqueued : Run oneProp _ _ _ := .push (.op (.op .init (.enqueue 0)
    (show 0 < oneProp.poolTop by decide)) (.markEntailed 0) trivial)
  refine ⟨⟨_,⟨_,_⟩,hqueued,rfl,rfl,rfl,?_⟩,?_⟩
  · decide
  have hrun : Run oneProp _ _ _ := .push (.op (.op (.push .init)
    (.tighten .lb32 0 3#64) trivial) (.tighten .ub32 0 8#64) trivial)
  have hrun' : Run oneProp _ _ ([_] ++ ⟨oneProp,[]⟩ :: []) := hrun
  refine ⟨_,_,_,_,hrun,rfl,rfl,?_,rfl,by decide⟩
  exact .op (.push (.back hrun' rfl)) (.tighten .lb32 0 5#64) trivial

end Run

end Solver
end DvSolve
