import DvSolve.Restore

/-! Watcher chains and the guard index as they lie in memory: `_register_watcher` and the
wide registrations of `dvs_prop_templates.c`, `_wake_var` and `_guard_ix_build` of
`dvs_propagate.c`. -/
namespace DvSolve
namespace Solver

open Function Linked

def maxPropWatches : ℕ := 4

def maxDisjWatches : ℕ := 2*16

/-- The watch words after a propagator's header: the variables, then as many links as the
layout has room for. A wide propagator stores its capacity. -/
structure Watches where
  wide : Bool
  nWatches : ℕ
  capacity : ℕ
  words : ℕ → Option ℕ

def Watches.cap (p : Watches) : ℕ := if p.wide then p.capacity else maxPropWatches

/-- `_watch_next`, as `_wake_var` reads it: the link of the first slot that names the
variable. -/
def watchNext (p : Watches) (v : ℕ) : Option ℕ :=
  ((List.range p.nWatches).find? fun i => p.words i == some v).bind fun i => p.words (p.cap+i)

structure Chains where
  heads : ℕ → Option ℕ
  props : ℕ → Watches

def Watches.setWord (p : Watches) (a : ℕ) (w : Option ℕ) : Watches :=
  { p with words := Function.update p.words a w }

def Chains.setWord (c : Chains) (ref a : ℕ) (w : Option ℕ) : Chains :=
  { c with props := Function.update c.props ref ((c.props ref).setWord a w) }

def registerWatcher (ref : ℕ) (c : Chains) (slot v : ℕ) : Chains :=
  let c' := c.setWord ref ((c.props ref).cap+slot) (c.heads v)
  { c' with heads := Function.update c.heads v (some ref) }

def storeVar (ref : ℕ) (c : Chains) (slot v : ℕ) : Chains := c.setWord ref slot (some v)

def clearSlot (ref : ℕ) (c : Chains) (slot v : ℕ) : Chains :=
  (storeVar ref c slot v).setWord ref ((c.props ref).cap+slot) none

def eachSlot (f : Chains → ℕ → ℕ → Chains) : List ℕ → ℕ → Chains → Chains
  | [],_,c => c
  | v :: ids,i,c => eachSlot f ids (i+1) (f c i v)

/-- How a propagator is registered: by `_alloc_prop`, by the two loops of a wide propagator,
or by the one loop of a disjunction. -/
inductive Layout
  | narrow
  | wide (capacity : ℕ)
  | disj

def Layout.blank (n : ℕ) : Layout → Watches
  | .narrow => ⟨false,n,0,fun _ => some 0⟩
  | .wide capacity => ⟨true,n,capacity,fun _ => some 0⟩
  | .disj => ⟨true,n,maxDisjWatches,fun _ => some 0⟩

/-- The watches of a new propagator at `ref` are stored and pushed on the chains. -/
def registerProp (k : Layout) (ref : ℕ) (ids : List ℕ) (c : Chains) : Chains :=
  let c := { c with props := Function.update c.props ref (k.blank ids.length) }
  match k with
  | .narrow => eachSlot (registerWatcher ref) ids 0 (eachSlot (clearSlot ref) ids 0 c)
  | .wide _ => eachSlot (registerWatcher ref) ids 0 (eachSlot (storeVar ref) ids 0 c)
  | .disj => eachSlot (fun c i v => registerWatcher ref (storeVar ref c i v) i v) ids 0 c

def wakeChain {σ : Type} (c : Chains) (v : ℕ) (f : σ → ℕ → σ) (n : ℕ) (s : σ) : Option σ :=
  walk (· == none) (fun _ _ => true) (fun _ ref => watchNext (c.props ref) v) f n (c.heads v) s

section Slots

variable {f : Chains → ℕ → ℕ → Chains} {c₀ c : Chains} {ref n m cap : ℕ} {ids : List ℕ}

theorem eachSlot_inv {P : ℕ → Chains → Prop}
    (hf : ∀ i c, ∀ h : i < ids.length, P i c → P (i+1) (f c i ids[i])) (h0 : P 0 c) :
    P ids.length (eachSlot f ids 0 c) := by
  have main : ∀ vs i c, ids.drop i = vs → i ≤ ids.length → P i c → P ids.length (eachSlot f vs i c) := by
    intro vs
    induction vs with
    | nil =>
      intro i c hd hi h
      have hlen : ids.length ≤ i := List.drop_eq_nil_iff.mp hd
      rwa [le_antisymm hlen hi]
    | cons v vs ih =>
      intro i c hd hi h
      have hlt : i < ids.length := by
        by_contra hge
        simp [List.drop_eq_nil_of_le (not_lt.mp hge)] at hd
      rw [List.drop_eq_getElem_cons hlt,List.cons.injEq] at hd
      rw [← hd.1]
      exact ih (i+1) _ hd.2 hlt (hf i c hlt h)
  exact main ids 0 c rfl (Nat.zero_le _) h0

structure Slots (c₀ : Chains) (ref : ℕ) (ids : List ℕ) (cap n m : ℕ) (c : Chains) : Prop where
  heads : ∀ v, c.heads v = if v ∈ ids.take m then some ref else c₀.heads v
  other : ∀ r, r ≠ ref → c.props r = c₀.props r
  count : (c.props ref).nWatches = ids.length
  room : (c.props ref).cap = cap
  stored : ∀ i < n, (c.props ref).words i = ids[i]?
  link : ∀ v ∈ ids.take m, (c.props ref).words (cap+ids.idxOf v) = c₀.heads v

theorem Slots.store (h : Slots c₀ ref ids cap n m c) (hcap : ids.length ≤ cap)
    (hn : n < ids.length) : Slots c₀ ref ids cap (n+1) m (storeVar ref c n ids[n]) := by
  refine ⟨h.heads,fun r hr => ?_,?_,?_,fun i hi => ?_,fun v hv => ?_⟩
  · simpa [storeVar,Chains.setWord,hr] using h.other r hr
  · simpa [storeVar,Chains.setWord,Watches.setWord] using h.count
  · simpa [storeVar,Chains.setWord,Watches.setWord,Watches.cap] using h.room
  · simp only [storeVar,Chains.setWord,Watches.setWord,update_self]
    by_cases hin : i = n
    · subst hin
      rw [update_self,List.getElem?_eq_getElem hn]
    · rw [update_of_ne hin]
      exact h.stored i (by omega)
  · simp only [storeVar,Chains.setWord,Watches.setWord,update_self]
    rw [update_of_ne (by omega)]
    exact h.link v hv

theorem Slots.clear (h : Slots c₀ ref ids cap n 0 c) (hn : n ≤ cap) (a : ℕ) (w : Option ℕ) :
    Slots c₀ ref ids cap n 0 (c.setWord ref (cap+a) w) := by
  refine ⟨h.heads,fun r hr => ?_,?_,?_,fun i hi => ?_,fun v hv => by simp at hv⟩
  · simpa [Chains.setWord,hr] using h.other r hr
  · simpa [Chains.setWord,Watches.setWord] using h.count
  · simpa [Chains.setWord,Watches.setWord,Watches.cap] using h.room
  · simp only [Chains.setWord,Watches.setWord,update_self]
    rw [update_of_ne (by omega)]
    exact h.stored i hi

theorem Slots.register (h : Slots c₀ ref ids cap n m c) (hn : n ≤ cap) (hm : m < ids.length) :
    Slots c₀ ref ids cap n (m+1) (registerWatcher ref c m ids[m]) := by
  have htake : ids.take (m+1) = ids.take m ++ [ids[m]] := (List.take_append_getElem hm).symm
  have hids : ids.take m ++ ids[m] :: ids.drop (m+1) = ids := by
    rw [← List.drop_eq_getElem_cons hm,List.take_append_drop]
  have hlen : (ids.take m).length = m := by
    rw [List.length_take]
    omega
  have hold : ∀ v ∈ ids.take m, ids.idxOf v < m := fun v hv => by
    have hlt := List.idxOf_lt_length_of_mem hv
    rw [hlen] at hlt
    rwa [← hids,List.idxOf_append_of_mem hv]
  have hnew : ids[m] ∉ ids.take m → ids.idxOf ids[m] = m := fun hv => by
    have hi : (ids.take m ++ ids[m] :: ids.drop (m+1)).idxOf ids[m] = m := by
      rw [List.idxOf_append_of_notMem hv,List.idxOf_cons_self,hlen,Nat.add_zero]
    rwa [hids] at hi
  refine ⟨fun v => ?_,fun r hr => ?_,?_,?_,fun i hi => ?_,fun v hv => ?_⟩
  · simp only [registerWatcher,htake,List.mem_append,List.mem_singleton]
    by_cases hv : v = ids[m]
    · simp [hv]
    · rw [update_of_ne hv,h.heads v]
      simp [hv]
  · simpa [registerWatcher,Chains.setWord,hr] using h.other r hr
  · simpa [registerWatcher,Chains.setWord,Watches.setWord] using h.count
  · simpa [registerWatcher,Chains.setWord,Watches.setWord,Watches.cap] using h.room
  · simp only [registerWatcher,Chains.setWord,Watches.setWord,update_self,h.room]
    rw [update_of_ne (by omega)]
    exact h.stored i hi
  · simp only [registerWatcher,Chains.setWord,Watches.setWord,update_self,h.room]
    by_cases hin : v ∈ ids.take m
    · have := hold v hin
      rw [update_of_ne (by omega)]
      exact h.link v hin
    · rw [htake,List.mem_append,List.mem_singleton,or_iff_right hin] at hv
      subst hv
      rw [hnew hin,update_self,h.heads,if_neg hin]

/-- A registered propagator heads the chains of what it watches, and the link of each is
the old head, also where a variable has several slots. -/
structure Registered (c₀ : Chains) (ref : ℕ) (ids : List ℕ) (c : Chains) : Prop where
  heads : ∀ v, c.heads v = if v ∈ ids then some ref else c₀.heads v
  other : ∀ r, r ≠ ref → c.props r = c₀.props r
  count : (c.props ref).nWatches = ids.length
  stored : ∀ i < ids.length, (c.props ref).words i = ids[i]?
  next : ∀ v ∈ ids, watchNext (c.props ref) v = c₀.heads v

theorem Slots.registered (h : Slots c₀ ref ids cap ids.length ids.length c) :
    Registered c₀ ref ids c := by
  refine ⟨by simpa using h.heads,h.other,h.count,h.stored,fun v hv => ?_⟩
  have hlt := List.idxOf_lt_length_of_mem hv
  have hfind : ((List.range ids.length).find? fun i => (c.props ref).words i == some v) =
      some (ids.idxOf v) := by
    rw [List.find?_range_eq_some]
    refine ⟨?_,List.mem_range.mpr hlt,fun j hj => ?_⟩
    · rw [h.stored _ hlt,List.getElem?_eq_getElem hlt,List.getElem_idxOf hlt]
      exact beq_self_eq_true _
    · rw [h.stored j (by omega),List.getElem?_eq_getElem (by omega)]
      simpa using List.not_of_lt_findIdx hj
  rw [watchNext,h.count,hfind,Option.bind_some,h.room]
  exact h.link v (by simpa using hv)

def Layout.Fits (n : ℕ) : Layout → Prop
  | .narrow => n ≤ maxPropWatches
  | .wide capacity => n ≤ capacity
  | .disj => n ≤ maxDisjWatches

theorem registerProp_registered {k : Layout} (hk : k.Fits ids.length) :
    Registered c ref ids (registerProp k ref ids c) := by
  have hblank : ids.length ≤ (k.blank ids.length).cap := by
    cases k <;> exact hk
  generalize hcap : (k.blank ids.length).cap = cap at hblank
  have h0 : Slots c ref ids cap 0 0
      { c with props := Function.update c.props ref (k.blank ids.length) } := by
    refine ⟨by simp,fun r hr => by simp [hr],?_,by simpa using hcap,by simp,by simp⟩
    cases k <;> simp [Layout.blank]
  have push : ∀ c', Slots c ref ids cap ids.length 0 c' →
      Registered c ref ids (eachSlot (registerWatcher ref) ids 0 c') := fun c' h =>
    (eachSlot_inv (P := fun i => Slots c ref ids cap ids.length i)
      (fun i _ hi hs => hs.register hblank hi) h).registered
  cases k with
  | narrow =>
    refine push _ (eachSlot_inv (P := fun i => Slots c ref ids cap i 0) (fun i c' hi hs => ?_) h0)
    have hs' := (hs.store hblank hi).clear (by omega) i none
    rwa [← hs.room] at hs' ⊢
  | wide capacity =>
    exact push _ (eachSlot_inv (P := fun i => Slots c ref ids cap i 0)
      (fun i _ hi hs => hs.store hblank hi) h0)
  | disj =>
    exact (eachSlot_inv (P := fun i => Slots c ref ids cap i i)
      (fun i _ hi hs => (hs.store hblank hi).register (by omega) hi) h0).registered

end Slots

/-- The loop of `_guard_ix_build` over the propagators whose guard is one of the first `nv`
variables. -/
def eachGuarded {σ : Type} (g : ℕ → Option ℕ) (nv : ℕ) (f : σ → ℕ → ℕ → σ) (np : ℕ) (s : σ) : σ :=
  (List.range np).foldl
    (fun s i => match (g i).filter (· < nv) with | some w => f s i w | none => s) s

def countGuards (g : ℕ → Option ℕ) (nv np : ℕ) : ℕ → ℕ :=
  eachGuarded g nv (fun off _ w => Function.update off (w+1) (off (w+1)+1)) np fun _ => 0

def sumOffsets (nv : ℕ) (off : ℕ → ℕ) : ℕ → ℕ :=
  (List.range nv).foldl (fun off v => Function.update off (v+1) (off (v+1)+off v)) off

def fillGuards (g : ℕ → Option ℕ) (nv np : ℕ) (s : (ℕ → ℕ) × (ℕ → ℕ)) : (ℕ → ℕ) × (ℕ → ℕ) :=
  eachGuarded g nv
    (fun s i w => (Function.update s.1 w (s.1 w+1),Function.update s.2 (s.1 w) i)) np s

def shiftOffsets (nv : ℕ) (off : ℕ → ℕ) : ℕ → ℕ :=
  Function.update
    ((List.range nv).reverse.foldl (fun off v => Function.update off (v+1) (off v)) off) 0 0

def guardTable (g : ℕ → Option ℕ) (nv np : ℕ) (old : ℕ → ℕ) : (ℕ → ℕ) × (ℕ → ℕ) :=
  let s := fillGuards g nv np (sumOffsets nv (countGuards g nv np),old)
  (shiftOffsets nv s.1,s.2)

def tableSlice (t : (ℕ → ℕ) × (ℕ → ℕ)) (v : ℕ) : List ℕ :=
  (List.range' (t.1 v) (t.1 (v+1)-t.1 v)).map t.2

section Table

variable {g : ℕ → Option ℕ} {nv np : ℕ}

theorem guardedBy_succ (g : ℕ → Option ℕ) (i v : ℕ) :
    guardedBy g (i+1) v = guardedBy g i v ++ if g i = some v then [i] else [] := by
  by_cases h : g i = some v <;> simp [guardedBy,List.range_succ,List.filter_append,h]

theorem eachGuarded_inv {σ : Type} {f : σ → ℕ → ℕ → σ} {P : ℕ → σ → Prop} {s : σ} (h0 : P 0 s)
    (hit : ∀ i s w, i < np → w < nv → g i = some w → P i s → P (i+1) (f s i w))
    (miss : ∀ i s, (∀ v < nv, g i ≠ some v) → P i s → P (i+1) s) :
    P np (eachGuarded g nv f np s) := by
  have main : ∀ n ≤ np, P n (eachGuarded g nv f n s) := by
    intro n
    induction n with
    | zero => exact fun _ => h0
    | succ n ih =>
      intro hn
      have hp := ih (by omega)
      rw [eachGuarded,List.range_succ,List.foldl_append,List.foldl_cons,List.foldl_nil]
      split
      · rename_i w hw
        obtain ⟨hg,hlt⟩ := Option.filter_eq_some_iff.mp hw
        exact hit n _ w hn (by simpa using hlt) hg hp
      · rename_i hw
        refine miss n _ (fun v hv hg => ?_) hp
        simp [hg] at hw
        omega
  exact main np (le_refl _)

theorem countGuards_eq : countGuards g nv np 0 = 0 ∧
    ∀ v < nv, countGuards g nv np (v+1) = (guardedBy g np v).length := by
  refine eachGuarded_inv
    (P := fun i (off : ℕ → ℕ) => off 0 = 0 ∧ ∀ v < nv, off (v+1) = (guardedBy g i v).length)
    ⟨rfl,fun v _ => rfl⟩ (fun i off w _ _ hg h => ⟨?_,fun v hv => ?_⟩)
    (fun i off hg h => ⟨h.1,fun v hv => ?_⟩)
  · rw [update_of_ne (by omega)]
    exact h.1
  · rw [guardedBy_succ,hg]
    by_cases hvw : v = w
    · subst hvw
      simp [h.2 v hv]
    · have hne : ¬w = v := fun he => hvw he.symm
      simp [hvw,hne,h.2 v hv]
  · rw [guardedBy_succ,if_neg (hg v hv),List.append_nil]
    exact h.2 v hv

def sliceStart (g : ℕ → Option ℕ) (np v : ℕ) : ℕ := ∑ u ∈ Finset.range v, (guardedBy g np u).length

theorem sliceStart_succ (g : ℕ → Option ℕ) (np v : ℕ) :
    sliceStart g np (v+1) = sliceStart g np v+(guardedBy g np v).length :=
  Finset.sum_range_succ _ v

theorem sliceStart_mono (g : ℕ → Option ℕ) (np : ℕ) : Monotone (sliceStart g np) :=
  monotone_nat_of_le_succ fun v => by rw [sliceStart_succ]; omega

theorem sumOffsets_eq {off : ℕ → ℕ} (h0 : off 0 = 0)
    (hoff : ∀ v < nv, off (v+1) = (guardedBy g np v).length) {v : ℕ} (hv : v ≤ nv) :
    sumOffsets nv off v = sliceStart g np v := by
  have main : ∀ n ≤ nv, (∀ v ≤ n, sumOffsets n off v = sliceStart g np v) ∧
      ∀ v, n < v → sumOffsets n off v = off v := by
    intro n
    induction n with
    | zero =>
      refine fun _ => ⟨fun v hv => ?_,fun v _ => rfl⟩
      obtain rfl : v = 0 := by omega
      exact h0
    | succ n ih =>
      intro hn
      obtain ⟨hle,hgt⟩ := ih (by omega)
      have hstep : sumOffsets (n+1) off =
          Function.update (sumOffsets n off) (n+1) (sumOffsets n off (n+1)+sumOffsets n off n) := by
        simp [sumOffsets,List.range_succ]
      refine ⟨fun v hv => ?_,fun v hv => ?_⟩
      · rw [hstep]
        by_cases he : v = n+1
        · rw [he,update_self,hgt _ (Nat.lt_succ_self n),hle n (le_refl n),
            hoff n (by omega),sliceStart_succ,Nat.add_comm]
        · rw [update_of_ne he,hle v (by omega)]
      · rw [hstep,update_of_ne (by omega),hgt v (by omega)]
  exact (main nv (le_refl _)).1 v hv

theorem shiftOffsets_eq (off : ℕ → ℕ) {v : ℕ} (hv : v ≤ nv) :
    shiftOffsets nv off v = if v = 0 then 0 else off (v-1) := by
  have main : ∀ n (off : ℕ → ℕ) v,
      (List.range n).reverse.foldl (fun off v => Function.update off (v+1) (off v)) off v =
        if 0 < v ∧ v ≤ n then off (v-1) else off v := by
    intro n
    induction n with
    | zero =>
      intro off v
      rw [if_neg (by omega)]
      rfl
    | succ n ih =>
      intro off v
      rw [List.range_succ,List.reverse_append,List.reverse_singleton,List.singleton_append,
        List.foldl_cons,ih]
      by_cases he : v = n+1
      · rw [if_neg (by omega),if_pos (by omega),he,update_self,Nat.add_sub_cancel]
      · by_cases hin : 0 < v ∧ v ≤ n
        · rw [if_pos hin,if_pos (by omega),update_of_ne (by omega)]
        · rw [if_neg hin,if_neg (by omega),update_of_ne he]
  unfold shiftOffsets
  split_ifs with h
  · rw [h,update_self]
  · rw [update_of_ne h,main,if_pos (by omega)]

/-- The list up to propagator `i`: each cursor stands behind the propagators of its
variable that are already in the list. -/
def Filled (g : ℕ → Option ℕ) (nv np i : ℕ) (s : (ℕ → ℕ) × (ℕ → ℕ)) : Prop :=
  ∀ v < nv, s.1 v = sliceStart g np v+(guardedBy g i v).length ∧
    (List.range' (sliceStart g np v) (guardedBy g i v).length).map s.2 = guardedBy g i v

theorem guardedBy_length_mono (g : ℕ → Option ℕ) (v : ℕ) : Monotone fun i => (guardedBy g i v).length :=
  monotone_nat_of_le_succ fun i => by simp [guardedBy_succ]

theorem Filled.step {i w : ℕ} {s : (ℕ → ℕ) × (ℕ → ℕ)} (h : Filled g nv np i s) (hi : i < np)
    (hw : w < nv) (hg : g i = some w) :
    Filled g nv np (i+1) (Function.update s.1 w (s.1 w+1),Function.update s.2 (s.1 w) i) := by
  have hroom : (guardedBy g i w).length < (guardedBy g np w).length := by
    have := guardedBy_length_mono g w (Nat.succ_le_of_lt hi)
    simp only [Nat.succ_eq_add_one,guardedBy_succ,hg,if_true,List.length_append,
      List.length_singleton] at this
    omega
  -- the cursor of `w` stays inside the slice of `w`, away from that of any other variable
  have hkeep : ∀ v < nv, (List.range' (sliceStart g np v) (guardedBy g i v).length).map
        (Function.update s.2 (s.1 w) i) = guardedBy g i v := by
    intro v hv
    refine (List.map_congr_left fun a ha => ?_).trans (h v hv).2
    obtain ⟨hge,hlt⟩ := List.mem_range'_1.mp ha
    have hcursor := (h w hw).1
    have hmono := guardedBy_length_mono g v hi.le
    dsimp only at hmono
    rw [update_of_ne]
    rcases Nat.lt_trichotomy v w with hlo | rfl | hhi
    · have := sliceStart_mono g np (Nat.succ_le_of_lt hlo)
      rw [Nat.succ_eq_add_one,sliceStart_succ] at this
      omega
    · omega
    · have := sliceStart_mono g np (Nat.succ_le_of_lt hhi)
      rw [Nat.succ_eq_add_one,sliceStart_succ] at this
      omega
  intro v hv
  dsimp only
  by_cases hvw : v = w
  · subst hvw
    rw [guardedBy_succ,hg,if_pos rfl,List.length_append,List.length_singleton]
    refine ⟨by rw [update_self,(h v hv).1,Nat.add_assoc],?_⟩
    rw [List.range'_1_concat,List.map_append,List.map_singleton,hkeep v hv,← (h v hv).1,update_self]
  · have hne : ¬g i = some v := fun he => hvw (Option.some.inj (he.symm.trans hg))
    rw [guardedBy_succ,if_neg hne,List.append_nil,update_of_ne hvw]
    exact ⟨(h v hv).1,hkeep v hv⟩

theorem tableSlice_guardTable (old : ℕ → ℕ) {v : ℕ} (hv : v < nv) :
    tableSlice (guardTable g nv np old) v = guardedBy g np v := by
  obtain ⟨h0,hcount⟩ := @countGuards_eq g nv np
  have hfill : Filled g nv np np (fillGuards g nv np (sumOffsets nv (countGuards g nv np),old)) := by
    refine eachGuarded_inv (P := Filled g nv np) (fun v hv => ⟨?_,rfl⟩)
      (fun i s w hi hw hg h => h.step hi hw hg) (fun i s hg h v hv => ?_)
    · exact sumOffsets_eq h0 hcount hv.le
    · rw [guardedBy_succ,if_neg (hg v hv),List.append_nil]
      exact h v hv
  have hend : (guardTable g nv np old).1 (v+1) = sliceStart g np (v+1) := by
    rw [sliceStart_succ,← (hfill v hv).1]
    exact shiftOffsets_eq _ hv
  have hstart : (guardTable g nv np old).1 v = sliceStart g np v := by
    refine (shiftOffsets_eq _ hv.le).trans ?_
    split_ifs with h
    · rw [h]
      rfl
    · obtain ⟨u,rfl⟩ := Nat.exists_eq_succ_of_ne_zero h
      rw [Nat.succ_sub_one,(hfill u (by omega)).1,← sliceStart_succ]
  rw [tableSlice,hstart,hend,sliceStart_succ,Nat.add_sub_cancel_left]
  exact (hfill v hv).2

end Table

/-- The guarded propagators a variable wakes when every propagator is looked at. -/
def scanGuards (c : Ctx) (v : ℕ) : Ctx :=
  (guardedBy c.guardVars (min c.nProps c.propCapacity) v).foldl wakeId c

section Index

variable (c : Ctx) (ix : Option GuardIx) (dirty : Bool)

theorem propEnqueue_index (ref : ℕ) : propEnqueue { c with guardIx := ix, guardDirty := dirty } ref =
    { propEnqueue c ref with guardIx := ix, guardDirty := dirty } := by
  unfold propEnqueue
  dsimp only [Ctx.setProp]
  split_ifs
  · rfl
  · split
    · rfl
    · rfl
    · rfl

theorem wakeIds_index (l : List ℕ) : l.foldl wakeId { c with guardIx := ix, guardDirty := dirty } =
    { l.foldl wakeId c with guardIx := ix, guardDirty := dirty } := by
  induction l generalizing c with
  | nil => rfl
  | cons i l ih =>
    have hi : wakeId { c with guardIx := ix, guardDirty := dirty } i =
        { wakeId c i with guardIx := ix, guardDirty := dirty } := by
      unfold wakeId
      cases c.propRefs i with
      | none => rfl
      | some ref => exact propEnqueue_index c ix dirty ref
    rw [List.foldl_cons,List.foldl_cons,hi,ih]

theorem wakeGuards_scan {c : Ctx} (hix : IndexOk c) {v : ℕ} (hv : v < c.nVars) :
    ∃ ix dirty, wakeGuards c v = { scanGuards c v with guardIx := ix, guardDirty := dirty } := by
  have hbuild : ∃ dirty, guardIxBuild c c.nVars (min c.nProps c.propCapacity) = { c with
        guardIx := some ⟨c.nVars,min c.nProps c.propCapacity,
          guardedBy c.guardVars (min c.nProps c.propCapacity)⟩
        guardDirty := dirty } := by
    unfold guardIxBuild
    split
    · rename_i ix hc
      split_ifs with h
      · obtain ⟨hd,hnv,hnp⟩ := h
        have hcix : some ⟨c.nVars,min c.nProps c.propCapacity,
            guardedBy c.guardVars (min c.nProps c.propCapacity)⟩ = c.guardIx := by
          rw [hc,← hnv,← hnp,← hix ix hc (by simpa using hd)]
        exact ⟨c.guardDirty,by rw [hcix]⟩
      · exact ⟨false,rfl⟩
    · exact ⟨false,rfl⟩
  unfold wakeGuards
  dsimp only
  split_ifs with hgrow
  · obtain ⟨dirty,hb⟩ := hbuild
    rw [hb]
    dsimp only
    rw [if_neg (not_le.mpr hv)]
    exact ⟨_,dirty,wakeIds_index c _ dirty _⟩
  · exact ⟨(scanGuards c v).guardIx,(scanGuards c v).guardDirty,rfl⟩

end Index

def Watches.Names (p : Watches) (v : ℕ) : Prop := ∃ i < p.nWatches, p.words i = some v

def Act.chain (a : Act) (k : Layout) (s : Session) (c : Chains) : Chains :=
  match a with
  | .newVar _ => { c with heads := Function.update c.heads s.ctx.nVars none }
  | .addProp fire priority watches =>
    if (allocProp s.ctx fire priority watches).isSome then registerProp k s.ctx.poolTop watches c
    else c
  | _ => c

def Act.Fits (k : Layout) : Act → Prop
  | .addProp _ _ watches => k.Fits watches.length
  | _ => True

/-- A session and its chains, from one in which nothing is watched. -/
inductive Threading : Session → Chains → Prop
  | init {s : Session} {c : Chains} (hok : s.Ok) (hw : ∀ v, s.ctx.watchers v = [])
      (hh : ∀ v < s.ctx.nVars, c.heads v = none) (hp : ∀ r, (c.props r).nWatches = 0) : Threading s c
  | act {s : Session} {c : Chains} (h : Threading s c) (a : Act) (k : Layout) (hv : a.Valid s 0 0)
      (hk : a.Fits k) : Threading (a.run s) (a.chain k s c)

structure Threaded (s : Session) (c : Chains) : Prop where
  ok : s.Ok
  path : ∀ v < s.ctx.nVars,
    Path (fun ref => watchNext (c.props ref) v) none (c.heads v) (s.ctx.watchers v)
  nodup : ∀ v, (s.ctx.watchers v).Nodup
  mem : ∀ v ref, ref ∈ s.ctx.watchers v ↔ (c.props ref).Names v

section Thread

variable {s : Session} {c c' : Chains}

theorem Registered.names {ref : ℕ} {ids : List ℕ} (h : Registered c ref ids c') (v : ℕ) :
    (c'.props ref).Names v ↔ v ∈ ids := by
  rw [Watches.Names,h.count,List.mem_iff_getElem?]
  constructor
  · rintro ⟨i,hi,hv⟩
    exact ⟨i,by rw [← h.stored i hi,hv]⟩
  · rintro ⟨i,hv⟩
    have hi := (List.getElem?_eq_some_iff.mp hv).1
    exact ⟨i,hi,by rw [h.stored i hi,hv]⟩

theorem Threaded.registered (h : Threaded s c) {d : Ctx} {fire : Fire} {priority : ℕ}
    {watches : List ℕ} (hok : Session.Ok { s with ctx := d })
    (ha : Allocated s.ctx fire priority watches d)
    (hr : Registered c s.ctx.poolTop watches c') : Threaded { s with ctx := d } c' := by
  have hw : d.watchers = fun v =>
      if v ∈ watches then s.ctx.poolTop :: s.ctx.watchers v else s.ctx.watchers v := by rw [ha.rest]
  have hnv : d.nVars = s.ctx.nVars := by rw [ha.rest]
  have hfresh : ∀ v, s.ctx.poolTop ∉ s.ctx.watchers v := fun v hm =>
    (h.ok.ctx.watchers v _ hm).ne rfl
  refine ⟨hok,fun v hv => ?_,fun v => ?_,fun v ref => ?_⟩
  · have hold : Path (fun ref => watchNext (c'.props ref) v) none (c.heads v) (s.ctx.watchers v) :=
      (h.path v (by rwa [← hnv])).congr fun ref hm => by
        rw [hr.other ref fun he => hfresh v (he ▸ hm)]
    rw [hw,hr.heads]
    dsimp only
    split_ifs with hm
    · refine ⟨rfl,?_⟩
      dsimp only
      rw [hr.next v hm]
      exact hold
    · exact hold
  · dsimp only
    rw [hw]
    dsimp only
    split_ifs
    · exact List.nodup_cons.mpr ⟨hfresh v,h.nodup v⟩
    · exact h.nodup v
  · dsimp only
    rw [hw]
    dsimp only
    by_cases he : ref = s.ctx.poolTop
    · rw [he,hr.names]
      split_ifs with hm
      · simp [hm]
      · simp [hm,hfresh v]
    · rw [hr.other ref he,← h.mem v ref]
      split_ifs
      · simp [he]
      · rfl

theorem Threaded.same (h : Threaded s c) {t : Session} (hok : t.Ok)
    (hnv : t.ctx.nVars = s.ctx.nVars) (hw : t.ctx.watchers = s.ctx.watchers) : Threaded t c := by
  refine ⟨hok,fun v hv => ?_,fun v => ?_,fun v ref => ?_⟩
  · rw [hw]
    exact h.path v (hnv ▸ hv)
  · rw [hw]
    exact h.nodup v
  · rw [hw]
    exact h.mem v ref

theorem Threaded.act (h : Threaded s c) {a : Act} {k : Layout} (hv : a.Valid s 0 0)
    (hk : a.Fits k) : Threaded (a.run s) (a.chain k s c) := by
  have hok := Act.run_ok h.ok hv
  cases a with
  | newVar v =>
    have hnone := h.ok.tables.noWatch s.ctx.nVars (le_refl _)
    have hw : ∀ w, ((Act.newVar v).run s).ctx.watchers w = s.ctx.watchers w := fun w => by
      by_cases he : w = s.ctx.nVars
      · simp [Act.run,Session.withCtx,addVar,he,hnone]
      · simp [Act.run,Session.withCtx,addVar,Ctx.setVar,he]
    refine ⟨hok,fun w hlt => ?_,fun w => ?_,fun w ref => ?_⟩
    · rw [hw]
      by_cases he : w = s.ctx.nVars
      · rw [he,hnone]
        exact update_self ..
      · have hlt' : w < s.ctx.nVars+1 := hlt
        have hp := h.path w (by omega)
        simpa [Act.chain,he] using hp
    · rw [hw]
      exact h.nodup w
    · rw [hw]
      exact h.mem w ref
  | addProp fire priority watches =>
    cases ha : allocProp s.ctx fire priority watches with
    | none => simpa [Act.run,Act.chain,Session.withCtx,ha] using h
    | some d =>
      have hd := allocProp_spec h.ok.ctx h.ok.tables hv.1 ha
      have hrun : (Act.addProp fire priority watches).run s = { s with ctx := d } := by
        simp [Act.run,Session.withCtx,ha]
      rw [hrun] at hok ⊢
      simp only [Act.chain,ha,Option.isSome_some,if_true]
      exact h.registered hok hd (registerProp_registered hk)
  | setGuard ref v =>
    refine h.same hok ?_ ?_
    · simp only [Act.run,Session.withCtx,propSetGuard]
      split_ifs <;> rfl
    · simp only [Act.run,Session.withCtx,propSetGuard]
      split_ifs <;> rfl
  | trail o => exact h.same hok (Op.run_tables s.ctx o).nVars (Op.run_tables s.ctx o).watchers
  | take size => exact h.same hok rfl rfl
  | modLink prop => exact h.same hok rfl rfl
  | mulLink prop => exact h.same hok rfl rfl
  | memo r => exact h.same hok rfl rfl
  | learn db n e => exact h.same hok rfl rfl
  | conflict ref => exact h.same hok rfl rfl
  | snapshot ref n => exact h.same hok rfl rfl
  | overwrite l m => exact h.same hok rfl rfl

theorem Threading.threaded (h : Threading s c) : Threaded s c := by
  induction h with
  | init hok hw hh hp =>
    refine ⟨hok,fun v hv => ?_,fun v => ?_,fun v ref => ?_⟩
    · rw [hw]
      exact hh v hv
    · simp [hw]
    · simp [hw,Watches.Names,hp]
  | act _ a k hv hk ih => exact ih.act hv hk

end Thread

/-- The walk along a variable's chain ends and meets each propagator that watches the
variable once; the index then enqueues what a scan of the guards would, in its order. -/
theorem wakeVar_exact {s : Session} {c : Chains} (h : Threading s c) {v : ℕ} (hv : v < s.ctx.nVars) :
    (∀ {σ : Type} (f : σ → ℕ → σ) (x : σ) (n : ℕ), (s.ctx.watchers v).length < n →
      wakeChain c v f n x = some ((s.ctx.watchers v).foldl f x)) ∧
    (s.ctx.watchers v).Nodup ∧ (∀ ref, ref ∈ s.ctx.watchers v ↔ (c.props ref).Names v) ∧
    (∃ ix dirty, wakeVar s.ctx v = { scanGuards ((s.ctx.watchers v).foldl propEnqueue s.ctx) v with
      guardIx := ix, guardDirty := dirty }) ∧
    ∀ g np old, tableSlice (guardTable g s.ctx.nVars np old) v = guardedBy g np v := by
  have ht := h.threaded
  refine ⟨fun f x n hn => ?_,ht.nodup v,ht.mem v,?_,fun g np old => tableSlice_guardTable old hv⟩
  · exact walk_eq (· == none) (fun _ _ => true) (fun _ ref => watchNext (c.props ref) v) f
      (fun _ _ _ => rfl) (fun _ _ _ _ => rfl) none rfl (fun _ _ => rfl) (ht.nodup v) hn
      (fun _ _ => rfl) (ht.path v hv)
  · have hsame : ∀ (l : List ℕ) (d : Ctx), SameTables d (l.foldl propEnqueue d) := by
      intro l
      induction l with
      | nil => exact SameTables.refl
      | cons r l ih => exact fun d => (propEnqueue_tables d r).trans (ih _)
    have hs := hsame (s.ctx.watchers v) s.ctx
    exact wakeGuards_scan (hs.index ht.ok.tables.index) (by rwa [hs.nVars])

/-- One variable, named by both slots of a propagator. -/
theorem wakeVar_exact_twice :
    wakeChain ((Act.addProp (.done .ok) 0 [0,0]).chain .narrow oneVar
      ⟨fun _ => none,fun _ => ⟨false,0,0,fun _ => none⟩⟩) 0 (fun l r => r :: l) 2 [] = some [0] :=
  have h0 : Threading oneVar ⟨fun _ => none,fun _ => ⟨false,0,0,fun _ => none⟩⟩ :=
    .init oneVar_ok (fun _ => rfl) (fun _ _ => rfl) fun _ => rfl
  have h1 := h0.act (.addProp (.done .ok) 0 [0,0]) .narrow ⟨by decide,by simp [oneVar]⟩
    (by decide : 2 ≤ maxPropWatches)
  (wakeVar_exact h1 (v := 0) (by decide)).1 (fun l r => r :: l) [] 2 (by decide)

end Solver
end DvSolve
