import DvSolve.Diversify

/-! The flip sweeps leave a model.
A flip is kept just when the assertions hold in the valuation that the flipped inputs give.
The cone-propagating loop and the memoized one both decide this, so that they agree. -/
namespace DvSolve
namespace Bbsolver

open Function Aig Aigsim MinHeap

variable {m : Aig} {asserts : List ℤ} {nv nv' : ℕ → Bool}
variable {id : ℕ} {c : ℕ × Bool} {s : Flip}

theorem leftOf_and (h : leftOf m id ≠ 0) :
    2 ≤ id ∧ id ≤ m.nodes.size ∧ m.isAndId id = true := by
  unfold leftOf at h
  split_ifs at h with hc
  · obtain ⟨_,hle,_⟩ := isAndId_iff.mp hc.2
    exact ⟨hc.1,by simpa using hle,hc.2⟩
  · exact absurd rfl h

theorem leftOf_eq (h2 : 2 ≤ id) (hand : m.isAndId id = true) :
    leftOf m id = (m.childrenOf id).1 ∧ rightOf m id = (m.childrenOf id).2 := by
  rw [leftOf,rightOf,if_pos ⟨h2,hand⟩,if_pos ⟨h2,hand⟩]
  exact ⟨rfl,rfl⟩

theorem leftOf_lt (hm : m.Wf) (h : leftOf m id ≠ 0) :
    (1 ≤ (leftOf m id).natAbs ∧ (leftOf m id).natAbs < id) ∧
      (1 ≤ (rightOf m id).natAbs ∧ (rightOf m id).natAbs < id) := by
  obtain ⟨h2,_,hand⟩ := leftOf_and h
  obtain ⟨hl,hr⟩ := leftOf_eq h2 hand
  obtain ⟨h1,h1',h3,h4⟩ := children_valid hm hand
  rw [hl,hr]
  exact ⟨⟨Int.natAbs_pos.mpr h1.1,h3⟩,Int.natAbs_pos.mpr h1'.1,h4⟩

theorem gate_congr (hm : m.Wf) (h : leftOf m id ≠ 0) (heq : ∀ j, 1 ≤ j → j < id → nv j = nv' j) :
    gate m nv id = gate m nv' id := by
  obtain ⟨hl,hr⟩ := leftOf_lt hm h
  rw [gate,gate,litVal,litVal,litVal,litVal,heq _ hl.1 hl.2,heq _ hr.1 hr.2]

def Settled (m : Aig) (nv : ℕ → Bool) : Prop := ∀ id, leftOf m id ≠ 0 → nv id = gate m nv id

theorem settled_iff (hm : m.Wf) : Settled m nv ↔ Consistent m nv := by
  constructor
  · intro h id h2 _ hand
    obtain ⟨hl,hr⟩ := leftOf_eq h2 hand
    have hne : leftOf m id ≠ 0 := by
      rw [hl]
      exact (children_valid hm hand).1.1
    rw [h id hne,gate,hl,hr]
  · intro h id hne
    obtain ⟨h2,hle,hand⟩ := leftOf_and hne
    obtain ⟨hl,hr⟩ := leftOf_eq h2 hand
    rw [h id h2 hle hand,gate,hl,hr]

theorem Settled.unique (hm : m.Wf) (h : Settled m nv) (h' : Settled m nv')
    (hleaf : ∀ id, leftOf m id = 0 → nv id = nv' id) : nv = nv' := by
  funext id
  induction id using Nat.strong_induction_on with
  | _ id ih =>
    by_cases hl : leftOf m id = 0
    · exact hleaf id hl
    · rw [h id hl,h' id hl]
      exact gate_congr hm hl fun j _ => ih j

def evalAt (m : Aig) (nv : ℕ → Bool) (id : ℕ) : Bool :=
  if leftOf m id ≠ 0 then gate m nv id else nv id

/-- The valuation that the leaves of `nv` give. -/
def settle (m : Aig) (nv : ℕ → Bool) : ℕ → Bool := Sweep.sweep (evalAt m) 1 m.nodes.size nv

theorem settle_leaf (h : leftOf m id = 0) : settle m nv id = nv id := by
  by_cases hid : 1 ≤ id ∧ id < 1+m.nodes.size
  · rw [settle,Sweep.sweep_inside hid.1 hid.2,evalAt,if_neg (by simpa using h),if_neg (lt_irrefl _)]
  · exact Sweep.sweep_outside (by omega)

theorem settle_settled (hm : m.Wf) (nv : ℕ → Bool) : Settled m (settle m nv) := by
  intro id h
  obtain ⟨h2,hle,_⟩ := leftOf_and h
  have hin := Sweep.sweep_inside (f:=evalAt m) (t:=nv) (show 1 ≤ id by omega)
    (show id < 1+m.nodes.size by omega)
  rw [settle,hin,evalAt,if_pos h]
  exact gate_congr hm h fun j _ hj => by rw [if_pos hj]

theorem settle_congr (hm : m.Wf) (h : ∀ id, leftOf m id = 0 → nv id = nv' id) :
    settle m nv = settle m nv' :=
  (settle_settled hm nv).unique hm (settle_settled hm nv') fun id hid => by
    rw [settle_leaf hid,settle_leaf hid,h id hid]

theorem Settled.settle_eq (hm : m.Wf) (h : Settled m nv) : settle m nv = nv :=
  (settle_settled hm nv).unique hm h fun _ hid => settle_leaf hid

def Sat (asserts : List ℤ) (nv : ℕ → Bool) : Prop := ∀ a ∈ asserts, litVal nv a = true

instance (asserts : List ℤ) (nv : ℕ → Bool) : Decidable (Sat asserts nv) :=
  inferInstanceAs (Decidable (∀ a ∈ asserts, _))

theorem litVal_marked {lit : ℤ} (h1 : lit.natAbs ≠ 1) :
    litVal nv lit = true ↔ nv lit.natAbs ≠ decide (lit < 0) := by
  have hb : (lit.natAbs == 1) = false := by simpa using h1
  rw [litVal,hb,Bool.or_false]
  cases nv lit.natAbs <;> cases decide (lit < 0) <;> simp

theorem barred_iff {b : Bool} : barred m asserts id b = true ↔
    ∃ lit ∈ asserts, lit ≠ 0 ∧ lit.natAbs ≤ m.nodes.size ∧ lit.natAbs ≠ 1 ∧ lit.natAbs = id ∧
      decide (lit < 0) = b := by
  simp only [barred,List.any_eq_true,decide_eq_true_eq]
  constructor
  · rintro ⟨lit,hmem,h0,hle,ht,hf,hid,hb⟩
    simp only [aigTrue,aigFalse] at ht hf
    exact ⟨lit,hmem,h0,hle,by omega,hid,hb⟩
  · rintro ⟨lit,hmem,h0,hle,h1,hid,hb⟩
    refine ⟨lit,hmem,h0,hle,?_,?_,hid,hb⟩
    · rintro rfl
      exact h1 rfl
    · rintro rfl
      exact h1 rfl

theorem not_sat_of_barred (h : barred m asserts id (nv id) = true) : ¬ Sat asserts nv := by
  obtain ⟨lit,hmem,_,_,h1,rfl,hb⟩ := barred_iff.mp h
  intro hs
  exact (litVal_marked h1).mp (hs lit hmem) hb.symm

theorem sat_of_barred (hv : ∀ a ∈ asserts, m.Valid a) (hf : aigFalse ∉ asserts)
    (h : ∀ id, 1 ≤ id → id ≤ m.nodes.size → barred m asserts id (nv id) = false) :
    Sat asserts nv := by
  intro a ha
  have hva := hv a ha
  by_cases h1 : a.natAbs = 1
  · have hpos : a = 1 := by
      rcases Int.natAbs_eq_iff.mp h1 with h | h
      · exact h
      · exact absurd ha (by rw [h]; exact hf)
    rw [hpos,litVal]
    simp
  · rw [litVal_marked h1]
    intro heq
    have hid := h a.natAbs (Nat.pos_of_ne_zero (by simpa using hva.1)) hva.2
    rw [Bool.eq_false_iff] at hid
    exact hid (barred_iff.mpr ⟨a,ha,hva.1,hva.2,h1,rfl,heq.symm⟩)

/-- The model that a candidate leaves. -/
def accept (m : Aig) (asserts : List ℤ) (nv : ℕ → Bool) (c : ℕ × Bool) : ℕ → Bool :=
  if Sat asserts (settle m (Function.update nv c.1 c.2)) then
    settle m (Function.update nv c.1 c.2)
  else nv

/-- A settled valuation with its assertions. -/
structure Holds (m : Aig) (asserts : List ℤ) (nv : ℕ → Bool) : Prop where
  settled : Settled m nv
  sat : Sat asserts nv

theorem Holds.no_false (h : Holds m asserts nv) : aigFalse ∉ asserts := by
  intro hf
  have := h.sat _ hf
  simp [litVal,aigFalse] at this

theorem Holds.accept (hm : m.Wf) (h : Holds m asserts nv) (c : ℕ × Bool) :
    Holds m asserts (accept m asserts nv c) := by
  unfold Bbsolver.accept
  split_ifs with hs
  · exact ⟨settle_settled hm _,hs⟩
  · exact h

theorem accept_same (hm : m.Wf) (h : Settled m nv) (hc : nv c.1 = c.2) :
    accept m asserts nv c = nv := by
  unfold accept
  rw [← hc,Function.update_eq_self,h.settle_eq hm,ite_self]

theorem accept_barred (hleaf : leftOf m c.1 = 0) (hb : barred m asserts c.1 c.2 = true) :
    accept m asserts nv c = nv := by
  have hbar : barred m asserts c.1 (settle m (Function.update nv c.1 c.2) c.1) = true := by
    rw [settle_leaf hleaf,update_self]
    exact hb
  exact if_neg (not_sat_of_barred hbar)

theorem mem_fanout {c : ℕ} : id ∈ fanout m c ↔
    1 < c ∧ leftOf m id ≠ 0 ∧ ((leftOf m id).natAbs = c ∨ (rightOf m id).natAbs = c) := by
  unfold fanout
  split_ifs with hc
  · simp only [List.not_mem_nil,false_iff]
    omega
  · simp only [List.mem_flatMap,List.mem_range'_1]
    constructor
    · rintro ⟨j,_,hj⟩
      split_ifs at hj with h0 h1 h2 h2
      · exact absurd hj (by simp)
      · obtain rfl : id = j := by simpa using hj
        exact ⟨by omega,h0,.inl h1⟩
      · obtain rfl : id = j := by simpa using hj
        exact ⟨by omega,h0,.inl h1⟩
      · obtain rfl : id = j := by simpa using hj
        exact ⟨by omega,h0,.inr h2⟩
      · exact absurd hj (by simp)
    · rintro ⟨_,h0,h⟩
      obtain ⟨h2,hle,_⟩ := leftOf_and h0
      refine ⟨id,by omega,?_⟩
      rw [if_neg h0]
      rcases h with h | h
      · simp [h]
      · simp [h]

/-- The worklist is a heap of distinct nodes, those marked. -/
structure Flip.Queue (s : Flip) : Prop where
  heap : IsHeap s.wl s.n
  nodup : (entries s.wl s.n).Nodup
  inq : ∀ id, s.inq id = true ↔ id ∈ entries s.wl s.n

theorem Flip.Queue.enqueue (h : s.Queue) (e : ℕ) :
    (s.enqueue e).Queue ∧ (s.enqueue e).nv = s.nv ∧ (s.enqueue e).trail = s.trail ∧
      ∀ id, id ∈ entries (s.enqueue e).wl (s.enqueue e).n ↔ id = e ∨ id ∈ entries s.wl s.n := by
  unfold Flip.enqueue
  by_cases he : s.inq e = true
  · rw [if_pos he]
    refine ⟨h,rfl,rfl,fun id => ⟨.inr,?_⟩⟩
    rintro (rfl | hid)
    · exact (h.inq _).mp he
    · exact hid
  · rw [if_neg he]
    have hentries := entries_push s.wl s.n e
    refine ⟨⟨h.heap.push e,?_,fun id => ?_⟩,rfl,rfl,fun id => ?_⟩
    · change (entries (push s.wl s.n e) (s.n+1)).Nodup
      rw [hentries,Multiset.nodup_cons]
      exact ⟨fun hmem => he ((h.inq e).mpr hmem),h.nodup⟩
    · change Function.update s.inq e true id = true ↔ id ∈ entries (push s.wl s.n e) (s.n+1)
      rw [hentries,Multiset.mem_cons]
      by_cases hid : id = e
      · simp [hid]
      · simp [hid,h.inq id]
    · change id ∈ entries (push s.wl s.n e) (s.n+1) ↔ _
      rw [hentries,Multiset.mem_cons]

theorem Flip.Queue.enqueueAll (h : s.Queue) (es : List ℕ) :
    (es.foldl Flip.enqueue s).Queue ∧ (es.foldl Flip.enqueue s).nv = s.nv ∧
      (es.foldl Flip.enqueue s).trail = s.trail ∧
      ∀ id, id ∈ entries (es.foldl Flip.enqueue s).wl (es.foldl Flip.enqueue s).n ↔
        id ∈ es ∨ id ∈ entries s.wl s.n := by
  induction es generalizing s with
  | nil => exact ⟨h,rfl,rfl,by simp⟩
  | cons e es ih =>
    obtain ⟨h1,h2,h3,h4⟩ := h.enqueue e
    obtain ⟨h5,h6,h7,h8⟩ := ih h1
    refine ⟨h5,h6.trans h2,h7.trans h3,fun id => ?_⟩
    rw [List.foldl_cons,h8,h4,List.mem_cons]
    tauto

/-- The first node of the worklist, and the worklist without it. -/
theorem Flip.Queue.take (h : s.Queue) (hn : s.n ≠ 0) :
    ({ s with
      wl := pop s.wl (s.n-1)
      n := s.n-1
      inq := Function.update s.inq (s.wl 0) false } : Flip).Queue ∧
    (∀ id ∈ entries (pop s.wl (s.n-1)) (s.n-1), s.wl 0 < id) ∧
    ∀ id, id ∈ entries s.wl s.n ↔ id = s.wl 0 ∨ id ∈ entries (pop s.wl (s.n-1)) (s.n-1) := by
  obtain ⟨n,hn'⟩ : ∃ n, s.n = n+1 := ⟨s.n-1,by omega⟩
  have hentries := entries_pop s.wl n
  have hnodup := h.nodup
  have hheap := h.heap
  rw [hn'] at hnodup hheap
  rw [hentries,Multiset.nodup_cons] at hnodup
  simp only [hn',Nat.add_sub_cancel]
  have hless : ∀ id ∈ entries (pop s.wl n) n, s.wl 0 < id := by
    intro id hid
    have hmem : id ∈ entries s.wl (n+1) := by
      rw [hentries]
      exact Multiset.mem_cons_of_mem hid
    obtain ⟨i,hi,rfl⟩ := mem_entries.mp hmem
    refine lt_of_le_of_ne (hheap.root_le hi) ?_
    intro heq
    rw [← heq] at hid
    exact hnodup.1 hid
  refine ⟨⟨hheap.pop,hnodup.2,fun id => ?_⟩,hless,fun id => ?_⟩
  · change Function.update s.inq (s.wl 0) false id = true ↔ id ∈ entries (pop s.wl n) n
    by_cases hid : id = s.wl 0
    · rw [hid,update_self]
      exact iff_of_false (by simp) hnodup.1
    · rw [update_of_ne hid,h.inq id,hn',hentries,Multiset.mem_cons,or_iff_right hid]
  · rw [hentries,Multiset.mem_cons]

/-- What the propagation of a flip of `start` keeps: a node not waiting is settled, one
changed is not barred, and the trail leads back to `nv`. -/
structure Flip.Cone (m : Aig) (asserts : List ℤ) (nv : ℕ → Bool) (c : ℕ × Bool) (s : Flip) :
    Prop where
  queue : s.Queue
  gates : ∀ id ∈ entries s.wl s.n, leftOf m id ≠ 0
  settled : ∀ id, leftOf m id ≠ 0 → id ∉ entries s.wl s.n → s.nv id = gate m s.nv id
  leaves : ∀ id, leftOf m id = 0 → s.nv id = Function.update nv c.1 c.2 id
  kept : ∀ id, s.nv id = nv id ∨ barred m asserts id (s.nv id) = false
  trail : s.trail.foldl toggle s.nv = nv

def Flip.Quiet (s : Flip) : Prop := ∀ id, s.inq id = false

/-- What the propagation gives: the settled valuation, or a barred node in it. -/
def Flip.Ended (m : Aig) (asserts : List ℤ) (nv : ℕ → Bool) (c : ℕ × Bool) (r : Bool × Flip) :
    Prop :=
  r.2.Quiet ∧ if r.1 then r.2.nv = settle m (Function.update nv c.1 c.2) ∧
      ∀ id, r.2.nv id = nv id ∨ barred m asserts id (r.2.nv id) = false
    else r.2.trail.foldl toggle r.2.nv = nv ∧
      ∃ id, barred m asserts id (settle m (Function.update nv c.1 c.2) id) = true

def Flip.above (m : Aig) (s : Flip) : ℕ := if s.n = 0 then 0 else m.nodes.size+1-s.wl 0

theorem Flip.Cone.final (hm : m.Wf) (h : s.Cone m asserts nv c)
    (hid : ∀ j ∈ entries s.wl s.n, id ≤ j) (j : ℕ) (hj : j < id) :
    s.nv j = settle m (Function.update nv c.1 c.2) j := by
  induction j using Nat.strong_induction_on with
  | _ j ih =>
    by_cases hl : leftOf m j = 0
    · rw [h.leaves j hl,settle_leaf hl]
    · have hout : j ∉ entries s.wl s.n := fun hmem => by
        have := hid j hmem
        omega
      rw [h.settled j hl hout,settle_settled hm _ j hl]
      exact gate_congr hm hl fun i _ hi => ih i hi (by omega)

theorem clear_range (q : ℕ → Bool) (wl : ℕ → ℕ) (n : ℕ) (id : ℕ) :
    (List.range n).foldl (fun q i => Function.update q (wl i) false) q id =
      if id ∈ entries wl n then false else q id := by
  induction n with
  | zero => simp [entries]
  | succ n ih =>
    have hentries : entries wl (n+1) = wl n ::ₘ entries wl n := by
      rw [entries,entries,Multiset.range_succ,Multiset.map_cons]
    rw [List.range_succ,List.foldl_append,List.foldl_cons,List.foldl_nil,hentries]
    simp only [Multiset.mem_cons]
    by_cases hid : id = wl n
    · rw [hid,update_self,if_pos (.inl rfl)]
    · rw [update_of_ne hid,ih]
      simp [hid]

theorem foldl_toggle_append (nv : ℕ → Bool) (trail : List ℕ) (t : ℕ) :
    (trail ++ [t]).foldl toggle nv = toggle (trail.foldl toggle nv) t := by
  rw [List.foldl_append]
  rfl

theorem toggle_comm (nv : ℕ → Bool) (t : ℕ) (trail : List ℕ) :
    trail.foldl toggle (toggle nv t) = toggle (trail.foldl toggle nv) t := by
  induction trail generalizing nv with
  | nil => rfl
  | cons u trail ih =>
    rw [List.foldl_cons,List.foldl_cons,← ih]
    congr 1
    by_cases hut : u = t
    · rw [hut]
    · simp only [toggle,update_of_ne hut,update_of_ne (Ne.symm hut)]
      exact Function.update_comm (Ne.symm hut) _ _ _

theorem toggle_toggle (nv : ℕ → Bool) (t : ℕ) : toggle (toggle nv t) t = nv := by
  simp [toggle]

theorem update_eq_toggle {t : ℕ} {b : Bool} (h : nv t ≠ b) : Function.update nv t b = toggle nv t := by
  have : b = !nv t := by
    revert h
    cases nv t <;> cases b <;> simp
  rw [this]
  rfl

theorem Flip.Cone.trail_next (h : s.Cone m asserts nv c) {t : ℕ} {b : Bool} (hb : s.nv t ≠ b) :
    (s.trail ++ [t]).foldl toggle (Function.update s.nv t b) = nv := by
  rw [update_eq_toggle hb,foldl_toggle_append,toggle_comm,toggle_toggle,h.trail]

theorem gate_outside {t : ℕ} (b : Bool) (ht : 2 ≤ t) (hl : leftOf m id ≠ 0) (hout : id ∉ fanout m t) :
    gate m (Function.update nv t b) id = gate m nv id := by
  have hne : (leftOf m id).natAbs ≠ t ∧ (rightOf m id).natAbs ≠ t := by
    rw [mem_fanout] at hout
    constructor
    · intro h
      exact hout ⟨ht,hl,.inl h⟩
    · intro h
      exact hout ⟨ht,hl,.inr h⟩
  rw [gate,gate,litVal,litVal,litVal,litVal,update_of_ne hne.1,update_of_ne hne.2]

theorem Flip.Cone.recompute (hm : m.Wf) (h : s.Cone m asserts nv c) (hn : s.n ≠ 0) :
    leftOf m (s.wl 0) ≠ 0 ∧ gate m s.nv (s.wl 0) = settle m (Function.update nv c.1 c.2) (s.wl 0) := by
  have hmem : s.wl 0 ∈ entries s.wl s.n := mem_entries.mpr ⟨0,Nat.pos_of_ne_zero hn,rfl⟩
  have hl := h.gates _ hmem
  have hfirst : ∀ j ∈ entries s.wl s.n, s.wl 0 ≤ j := by
    intro j hj
    obtain ⟨_,hless,hiff⟩ := h.queue.take hn
    rcases (hiff j).mp hj with rfl | hj
    · exact le_rfl
    · exact (hless j hj).le
  rw [settle_settled hm _ _ hl]
  exact ⟨hl,gate_congr hm hl fun j _ hj => h.final hm hfirst j hj⟩

theorem Flip.above_lt {t : Flip} (hn : s.n ≠ 0) (hle : s.wl 0 ≤ m.nodes.size)
    (hlt : ∀ id ∈ entries t.wl t.n, s.wl 0 < id) : t.above m < s.above m := by
  unfold Flip.above
  rw [if_neg hn]
  split_ifs with ht
  · omega
  · have := hlt (t.wl 0) (mem_entries.mpr ⟨0,Nat.pos_of_ne_zero ht,rfl⟩)
    omega

theorem coneRound_good (hm : m.Wf) (h : s.Cone m asserts nv c) :
    (coneRound m asserts s).Good (fun s => s.Cone m asserts nv c) (Flip.Ended m asserts nv c)
      (fun s => s.above m) s := by
  unfold coneRound
  by_cases hn : s.n = 0
  · rw [if_pos hn]
    have hnone : ∀ id, id ∉ entries s.wl s.n := by simp [hn,entries]
    refine ⟨fun id => ?_,?_⟩
    · exact Bool.eq_false_iff.mpr fun hid => hnone id ((h.queue.inq id).mp hid)
    · rw [if_pos rfl]
      refine ⟨Settled.unique hm (fun id hl => h.settled id hl (hnone id)) (settle_settled hm _) ?_,
        h.kept⟩
      intro id hl
      rw [h.leaves id hl,settle_leaf hl]
  rw [if_neg hn]
  obtain ⟨hl,hnp⟩ := h.recompute hm hn
  obtain ⟨hqueue,hless,hmem⟩ := h.queue.take hn
  obtain ⟨h2,hle,_⟩ := leftOf_and hl
  have hgates : ∀ id ∈ entries (pop s.wl (s.n-1)) (s.n-1), leftOf m id ≠ 0 := fun id hid =>
    h.gates id ((hmem id).mpr (.inr hid))
  by_cases hsame : gate m s.nv (s.wl 0) = s.nv (s.wl 0)
  · rw [if_pos hsame]
    refine ⟨⟨hqueue,hgates,fun id hid hout => ?_,h.leaves,h.kept,h.trail⟩,Flip.above_lt hn hle hless⟩
    by_cases hpn : id = s.wl 0
    · rw [hpn]
      exact hsame.symm
    · refine h.settled id hid fun hin => ?_
      rcases (hmem id).mp hin with h1 | h1
      · exact hpn h1
      · exact hout h1
  rw [if_neg hsame]
  have htrail := h.trail_next (Ne.symm hsame)
  by_cases hb : barred m asserts (s.wl 0) (gate m s.nv (s.wl 0)) = true
  · rw [if_pos hb]
    refine ⟨fun id => ?_,?_⟩
    · change (List.range (s.n-1)).foldl (fun q i => Function.update q (pop s.wl (s.n-1) i) false)
        (Function.update s.inq (s.wl 0) false) id = false
      rw [clear_range]
      split_ifs with hid
      · rfl
      · exact Bool.eq_false_iff.mpr fun hq => hid ((hqueue.inq id).mp hq)
    · rw [if_neg (by simp)]
      refine ⟨htrail,s.wl 0,?_⟩
      rw [← hnp]
      exact hb
  rw [if_neg hb]
  -- the gates that read the node join the worklist
  set t : Flip := { s with
    nv := Function.update s.nv (s.wl 0) (gate m s.nv (s.wl 0))
    wl := pop s.wl (s.n-1)
    n := s.n-1
    inq := Function.update s.inq (s.wl 0) false
    trail := s.trail ++ [s.wl 0] } with ht
  have htq : t.Queue := ⟨hqueue.heap,hqueue.nodup,hqueue.inq⟩
  obtain ⟨hq',hnv,htr,hin⟩ := htq.enqueueAll (fanout m (s.wl 0))
  have habove : ∀ id ∈ fanout m (s.wl 0), s.wl 0 < id := by
    intro id hid
    obtain ⟨_,hid0,hread⟩ := mem_fanout.mp hid
    obtain ⟨h1,h1'⟩ := leftOf_lt hm hid0
    omega
  refine ⟨⟨hq',fun id hid => ?_,fun id hid hout => ?_,fun id hid => ?_,fun id => ?_,?_⟩,
    Flip.above_lt hn hle fun id hid => ?_⟩
  · rcases (hin id).mp hid with h1 | h1
    · exact (mem_fanout.mp h1).2.1
    · exact hgates id h1
  · rw [hnv]
    have hout' : id ∉ fanout m (s.wl 0) ∧ id ∉ entries t.wl t.n := by
      rw [hin] at hout
      exact not_or.mp hout
    rw [ht]
    dsimp only
    rw [gate_outside _ h2 hid hout'.1]
    by_cases hpn : id = s.wl 0
    · rw [hpn,update_self]
    · rw [update_of_ne hpn]
      refine h.settled id hid fun hin' => ?_
      rcases (hmem id).mp hin' with h1 | h1
      · exact hpn h1
      · exact hout'.2 h1
  · rw [hnv]
    change Function.update s.nv (s.wl 0) _ id = _
    have hpn : id ≠ s.wl 0 := by
      rintro rfl
      exact hl hid
    rw [update_of_ne hpn,h.leaves id hid]
  · rw [hnv]
    change Function.update s.nv (s.wl 0) _ id = nv id ∨
      barred m asserts id (Function.update s.nv (s.wl 0) _ id) = false
    by_cases hpn : id = s.wl 0
    · rw [hpn,update_self]
      exact .inr (Bool.eq_false_iff.mpr hb)
    · rw [update_of_ne hpn]
      exact h.kept id
  · rw [hnv,htr]
    exact htrail
  · rcases (hin id).mp hid with h1 | h1
    · exact habove id h1
    · exact hless id h1

def Turns (m : Aig) (c : ℕ × Bool) : Prop := 2 ≤ c.1 ∧ leftOf m c.1 = 0

/-- What is waiting when the propagation starts. -/
theorem Flip.Quiet.cone (hq : s.Quiet) (h : Settled m s.nv) (hc : Turns m c) (hne : s.nv c.1 ≠ c.2)
    (hb : barred m asserts c.1 c.2 = false) :
    ((fanout m c.1).foldl Flip.enqueue (s.start c)).Cone m asserts s.nv c := by
  have hnone : ∀ id, id ∉ entries (s.start c).wl (s.start c).n := by simp [Flip.start,entries]
  have hempty : (s.start c).Queue := by
    refine ⟨?_,by simp [Flip.start,entries],fun id => ?_⟩
    · intro i _ hi
      exact absurd hi (by simp [Flip.start])
    · exact iff_of_false (by simp [Flip.start,hq id]) (hnone id)
  obtain ⟨hqueue,hnv,htr,hin⟩ := hempty.enqueueAll (fanout m c.1)
  refine ⟨hqueue,fun id hid => ?_,fun id hid hout => ?_,fun id _ => ?_,fun id => ?_,?_⟩
  · rcases (hin id).mp hid with h1 | h1
    · exact (mem_fanout.mp h1).2.1
    · exact absurd h1 (hnone id)
  · have hpn : id ≠ c.1 := by
      rintro rfl
      exact hid hc.2
    rw [hnv,Flip.start,gate_outside c.2 hc.1 hid fun h1 => hout ((hin id).mpr (.inl h1))]
    dsimp only
    rw [update_of_ne hpn]
    exact h id hid
  · rw [hnv,Flip.start]
  · rw [hnv,Flip.start]
    by_cases hpn : id = c.1
    · rw [hpn]
      dsimp only
      rw [update_self]
      exact .inr hb
    · dsimp only
      rw [update_of_ne hpn]
      exact .inl rfl
  · rw [hnv,htr,Flip.start]
    rw [update_eq_toggle hne]
    exact toggle_toggle s.nv c.1

theorem propCone_spec (hm : m.Wf) (hq : s.Quiet) (h : Settled m s.nv) (hc : Turns m c)
    (hne : s.nv c.1 ≠ c.2) (hb : barred m asserts c.1 c.2 = false) :
    ∃ r, propCone m asserts (s.start c) c.1 = some r ∧ Flip.Ended m asserts s.nv c r := by
  have hround : ∀ t : Flip, t.Cone m asserts s.nv c → _ := fun t ht => coneRound_good hm ht
  refine Loop.loop_spec (fun t => t.above m) hround _ _ (hq.cone h hc hne hb) ?_
  unfold Flip.above
  split_ifs <;> omega

variable (hv : ∀ a ∈ asserts, m.Valid a) (hm : m.Wf)
include hv hm

/-- A flip leaves the model it should, and its buffers ready for the next. -/
theorem flip_spec (hq : s.Quiet) (h : Holds m asserts s.nv) (hc : Turns m c) :
    (flip m asserts s c).Quiet ∧ (flip m asserts s c).nv = accept m asserts s.nv c := by
  unfold flip
  by_cases hsame : s.nv c.1 = c.2
  · rw [if_pos hsame,accept_same hm h.settled hsame]
    exact ⟨hq,rfl⟩
  rw [if_neg hsame]
  by_cases hb : barred m asserts c.1 c.2 = true
  · rw [if_pos hb,accept_barred hc.2 hb]
    exact ⟨hq,rfl⟩
  rw [if_neg hb]
  obtain ⟨⟨ok,t⟩,hr,hquiet,hended⟩ := propCone_spec hm hq h.settled hc hsame (Bool.eq_false_iff.mpr hb)
  rw [hr]
  cases ok with
  | true =>
    obtain ⟨hnv,hkept⟩ := hended
    have hsat : Sat asserts (settle m (Function.update s.nv c.1 c.2)) := by
      rw [← hnv]
      refine sat_of_barred hv h.no_false fun id _ _ => ?_
      rcases hkept id with h1 | h1
      · rw [h1]
        exact Bool.eq_false_iff.mpr fun hid => not_sat_of_barred hid h.sat
      · exact h1
    refine ⟨hquiet,?_⟩
    rw [accept,if_pos hsat]
    exact hnv
  | false =>
    obtain ⟨hnv,id,hid⟩ := hended
    refine ⟨hquiet,?_⟩
    rw [accept,if_neg (not_sat_of_barred hid)]
    exact hnv

theorem flips_spec (cand : List (ℕ × Bool)) (hc : ∀ c ∈ cand, Turns m c) (hq : s.Quiet)
    (h : Holds m asserts s.nv) :
    (cand.foldl (flip m asserts) s).Quiet ∧
      (cand.foldl (flip m asserts) s).nv = cand.foldl (accept m asserts) s.nv ∧
      Holds m asserts (cand.foldl (accept m asserts) s.nv) := by
  induction cand generalizing s with
  | nil => exact ⟨hq,rfl,h⟩
  | cons c cand ih =>
    obtain ⟨h1,h2⟩ := flip_spec hv hm hq h (hc c List.mem_cons_self)
    have h3 : Holds m asserts (flip m asserts s c).nv := by
      rw [h2]
      exact h.accept hm c
    obtain ⟨h4,h5,h6⟩ := ih (fun d hd => hc d (List.mem_cons_of_mem _ hd)) h1 h3
    rw [h2] at h5 h6
    exact ⟨h4,h5,h6⟩

omit hv hm

end Bbsolver
end DvSolve
