import DvSolve.Aigsim
import DvSolve.AigSem

/-! Simulation decides the assertions of a graph.
Every lane of a pass is one assignment of the inputs of the cone, and the passes of a
sweep go through all of them. -/
namespace DvSolve
namespace Aigsim

open Loop

variable {id i : ℕ}

/-- The nodes the assertions depend on, TRUE apart. -/
inductive InCone (m : Aig) (asserts : List ℤ) : ℕ → Prop
  | root {a : ℤ} (ha : a ∈ asserts) (h : 1 < a.natAbs) : InCone m asserts a.natAbs
  | left {id : ℕ} (h : InCone m asserts id) (hl : leftOf m id ≠ 0)
      (h1 : 1 < (leftOf m id).natAbs) : InCone m asserts (leftOf m id).natAbs
  | right {id : ℕ} (h : InCone m asserts id) (hl : leftOf m id ≠ 0)
      (h1 : 1 < (rightOf m id).natAbs) : InCone m asserts (rightOf m id).natAbs

/-- The search has counted what it looked at. -/
structure ConeOk (m : Aig) (asserts : List ℤ) (c : Cone) : Prop where
  marked : ∀ i ∈ c.marked, 2 ≤ i ∧ i ≤ m.nodes.size ∧ InCone m asserts i
  stack : c.stack.Nodup ∧ ∀ i ∈ c.stack, i ∈ c.marked
  total : c.nInputs+c.nGates+c.stack.length = c.marked.card
  inputs : c.nInputs = ((c.marked \ c.stack.toFinset).filter fun i => leftOf m i = 0).card

def ChildrenMarked (m : Aig) (marked : Finset ℕ) (i : ℕ) : Prop :=
  leftOf m i ≠ 0 → (1 < (leftOf m i).natAbs → (leftOf m i).natAbs ∈ marked) ∧
    (1 < (rightOf m i).natAbs → (rightOf m i).natAbs ∈ marked)

def ConeInv (m : Aig) (asserts : List ℤ) (seeds : Finset ℕ) (c : Cone) : Prop :=
  ConeOk m asserts c ∧ (∀ i ∈ c.marked, i ∉ c.stack → ChildrenMarked m c.marked i) ∧ seeds ⊆ c.marked

section Search

variable {m : Aig} {asserts : List ℤ} {seeds : Finset ℕ} {c : Cone}

theorem leftOf_ne_zero (h : leftOf m id ≠ 0) : 2 ≤ id ∧ m.isAndId id = true ∧
    leftOf m id = (m.childrenOf id).1 ∧ rightOf m id = (m.childrenOf id).2 := by
  by_cases hc : 2 ≤ id ∧ m.isAndId id = true
  · exact ⟨hc.1,hc.2,by rw [leftOf,if_pos hc],by rw [rightOf,if_pos hc]⟩
  · rw [leftOf,if_neg hc] at h
    exact absurd rfl h

theorem leftOf_children (hm : m.Wf) (h : leftOf m id ≠ 0) :
    m.Valid (leftOf m id) ∧ m.Valid (rightOf m id) ∧ (leftOf m id).natAbs < id ∧
      (rightOf m id).natAbs < id := by
  obtain ⟨_,hand,hl,hr⟩ := leftOf_ne_zero h
  rw [hl,hr]
  simpa using hm.and_children hand

theorem ConeOk.mark (h : ConeOk m asserts c) {l : ℤ} (hl : l.natAbs ≤ m.nodes.size)
    (hc : 1 < l.natAbs → InCone m asserts l.natAbs) : ConeOk m asserts (c.mark l) := by
  unfold Cone.mark
  split_ifs with hnew
  · obtain ⟨h1,hnot⟩ := hnew
    refine ⟨fun i hi => ?_,⟨?_,fun i hi => ?_⟩,?_,?_⟩
    · rcases Finset.mem_insert.mp hi with rfl | hi
      · exact ⟨by omega,hl,hc h1⟩
      · exact h.marked i hi
    · exact List.nodup_cons.mpr ⟨fun hs => hnot (h.stack.2 _ hs),h.stack.1⟩
    · rcases List.mem_cons.mp hi with rfl | hi
      · exact Finset.mem_insert_self _ _
      · exact Finset.mem_insert_of_mem (h.stack.2 i hi)
    · have := h.total
      simp only [List.length_cons,Finset.card_insert_of_notMem hnot]
      omega
    · have hdiff : insert l.natAbs c.marked \ (l.natAbs :: c.stack).toFinset =
          c.marked \ c.stack.toFinset := by
        ext i
        simp only [Finset.mem_sdiff,Finset.mem_insert,List.toFinset_cons]
        constructor
        · rintro ⟨hi,hn⟩
          exact ⟨hi.resolve_left fun he => hn (Or.inl he),fun hs => hn (Or.inr hs)⟩
        · rintro ⟨hi,hn⟩
          refine ⟨Or.inr hi,fun hs => ?_⟩
          rcases hs with rfl | hs
          · exact hnot hi
          · exact hn hs
      simp only [hdiff]
      exact h.inputs
  · exact h

theorem Cone.mark_marked (c : Cone) (l : ℤ) : c.marked ⊆ (c.mark l).marked ∧
    (1 < l.natAbs → l.natAbs ∈ (c.mark l).marked) ∧
    ∀ i ∈ (c.mark l).marked, i ∉ (c.mark l).stack → i ∈ c.marked ∧ i ∉ c.stack := by
  unfold Cone.mark
  split_ifs with hnew
  · refine ⟨Finset.subset_insert _ _,fun _ => Finset.mem_insert_self _ _,fun i hi hn => ?_⟩
    simp only [List.mem_cons,not_or] at hn
    exact ⟨(Finset.mem_insert.mp hi).resolve_left hn.1,hn.2⟩
  · refine ⟨subset_rfl,fun h1 => ?_,fun i hi hn => ⟨hi,hn⟩⟩
    by_contra hnot
    exact hnew ⟨h1,hnot⟩

theorem ChildrenMarked.mono {marked marked' : Finset ℕ} (h : ChildrenMarked m marked i)
    (hsub : marked ⊆ marked') : ChildrenMarked m marked' i :=
  fun hl => ⟨fun h1 => hsub ((h hl).1 h1),fun h1 => hsub ((h hl).2 h1)⟩

theorem ConeOk.pop (h : ConeOk m asserts c) {stack : List ℕ} (hs : c.stack = id :: stack) :
    ConeOk m asserts { c with
      stack := stack
      nInputs := if leftOf m id = 0 then c.nInputs+1 else c.nInputs
      nGates := if leftOf m id = 0 then c.nGates else c.nGates+1 } := by
  obtain ⟨hnodup,hmem⟩ := h.stack
  rw [hs] at hnodup hmem
  obtain ⟨hid,hnodup⟩ := List.nodup_cons.mp hnodup
  have hdiff : c.marked \ stack.toFinset = insert id (c.marked \ c.stack.toFinset) := by
    ext i
    simp only [hs,Finset.mem_sdiff,Finset.mem_insert,List.toFinset_cons,List.mem_toFinset]
    constructor
    · rintro ⟨hi,hn⟩
      by_cases he : i = id
      · exact Or.inl he
      · exact Or.inr ⟨hi,fun h => h.elim he hn⟩
    · rintro (rfl | ⟨hi,hn⟩)
      · exact ⟨hmem i (by simp),hid⟩
      · exact ⟨hi,fun hs => hn (Or.inr hs)⟩
  have hnot : id ∉ c.marked \ c.stack.toFinset := by simp [hs]
  refine ⟨h.marked,⟨hnodup,fun i hi => hmem i (List.mem_cons_of_mem id hi)⟩,?_,?_⟩
  · have := h.total
    rw [hs,List.length_cons] at this
    dsimp only
    split_ifs <;> omega
  · have := h.inputs
    simp only [hdiff,Finset.filter_insert]
    split_ifs with hl
    · rw [Finset.card_insert_of_notMem fun hm => hnot (Finset.mem_of_mem_filter id hm),← this]
    · exact this

/-- A round of the search, that goes on while nodes are left. -/
theorem coneRound_good (hm : m.Wf) (h : ConeInv m asserts seeds c) :
    (coneRound (leftOf m) (rightOf m) c).Good (ConeInv m asserts seeds)
      (fun c => ConeInv m asserts seeds c ∧ c.stack = [])
      (fun c => m.nodes.size-(c.nInputs+c.nGates)) c := by
  obtain ⟨hok,hclosed,hseeds⟩ := h
  unfold coneRound
  split
  · rename_i hs
    exact ⟨⟨hok,hclosed,hseeds⟩,hs⟩
  · rename_i id stack hs
    have hpop := hok.pop hs
    have hsize : c.marked.card < m.nodes.size := by
      have hsub : c.marked ⊆ Finset.Icc 2 m.nodes.size := fun i hi => by
        obtain ⟨h1,h2,_⟩ := hok.marked i hi
        exact Finset.mem_Icc.mpr ⟨h1,h2⟩
      have hid := hok.marked id (hok.stack.2 id (by simp [hs]))
      have := Finset.card_le_card hsub
      rw [Nat.card_Icc] at this
      omega
    have htotal := hok.total
    rw [hs,List.length_cons] at htotal
    have hold : ∀ i ∈ c.marked, i ∉ stack → i ≠ id → ChildrenMarked m c.marked i :=
      fun i hi hn hne => hclosed i hi (by simp [hs,hne,hn])
    dsimp only
    split_ifs with hl
    · simp only [hl,if_true] at hpop
      refine ⟨⟨hpop,fun i hi hn => ?_,hseeds⟩,by dsimp only; omega⟩
      by_cases hid : i = id
      · exact fun hne => absurd (hid ▸ hl) hne
      · exact hold i hi hn hid
    · simp only [if_neg hl] at hpop
      have hcone := (hok.marked id (hok.stack.2 id (by simp [hs]))).2.2
      obtain ⟨hvl,hvr,_,_⟩ := leftOf_children hm hl
      have h1 := hpop.mark (l := leftOf m id) hvl.2 fun h1 => hcone.left hl h1
      have h2 := h1.mark (l := rightOf m id) hvr.2 fun h1 => hcone.right hl h1
      generalize hc0 : ({ c with stack := stack, nGates := c.nGates+1 } : Cone) = c0 at h1 h2
      have hm0 : c0.marked = c.marked ∧ c0.stack = stack ∧ c0.nInputs = c.nInputs ∧
          c0.nGates = c.nGates+1 := by
        rw [← hc0]
        exact ⟨rfl,rfl,rfl,rfl⟩
      obtain ⟨hsub1,hleft,hback1⟩ := Cone.mark_marked c0 (leftOf m id)
      obtain ⟨hsub2,hright,hback2⟩ := Cone.mark_marked (c0.mark (leftOf m id)) (rightOf m id)
      have hcounts : ∀ (c : Cone) (l : ℤ), (c.mark l).nInputs = c.nInputs ∧
          (c.mark l).nGates = c.nGates := fun c l => by
        unfold Cone.mark
        split_ifs <;> exact ⟨rfl,rfl⟩
      have hsub : c.marked ⊆ ((c0.mark (leftOf m id)).mark (rightOf m id)).marked := by
        rw [← hm0.1]
        exact hsub1.trans hsub2
      refine ⟨⟨h2,fun i hi hn => ?_,hseeds.trans hsub⟩,?_⟩
      · obtain ⟨hi1,hn1⟩ := hback2 i hi hn
        obtain ⟨hi0,hn0⟩ := hback1 i hi1 hn1
        by_cases hid : i = id
        · subst hid
          exact fun _ => ⟨fun h1 => hsub2 (hleft h1),hright⟩
        · exact (hold i (hm0.1 ▸ hi0) (hm0.2.1 ▸ hn0) hid).mono hsub
      · obtain ⟨e1,e2⟩ := hcounts (c0.mark (leftOf m id)) (rightOf m id)
        obtain ⟨e3,e4⟩ := hcounts c0 (leftOf m id)
        dsimp only
        rw [e1,e2,e3,e4,hm0.2.2.1,hm0.2.2.2]
        omega

theorem seedCone_spec (as : List ℤ) (hsub : ∀ a ∈ as, a ∈ asserts)
    (hle : ∀ a ∈ as, a.natAbs ≤ m.nodes.size) (h : ConeOk m asserts c)
    (hs : ∀ i ∈ c.marked, i ∈ c.stack) : ∃ c', seedCone m.nodes.size as c = some c' ∧
      ConeOk m asserts c' ∧ (∀ i ∈ c'.marked, i ∈ c'.stack) ∧ c.marked ⊆ c'.marked ∧
      ∀ a ∈ as, 1 < a.natAbs → a.natAbs ∈ c'.marked := by
  induction as generalizing c with
  | nil => exact ⟨c,rfl,h,hs,subset_rfl,by simp⟩
  | cons a as ih =>
    have ha := hle a (by simp)
    rw [seedCone,if_neg (by omega)]
    obtain ⟨hsub1,hmark,hback⟩ := Cone.mark_marked c a
    have h1 := h.mark ha fun h1 => .root (hsub a (by simp)) h1
    have hs1 : ∀ i ∈ (c.mark a).marked, i ∈ (c.mark a).stack := fun i hi => by
      by_contra hn
      obtain ⟨hi0,hn0⟩ := hback i hi hn
      exact hn0 (hs i hi0)
    obtain ⟨c',hc',hok,hs',hsub',hmem⟩ := ih (fun b hb => hsub b (by simp [hb]))
      (fun b hb => hle b (by simp [hb])) h1 hs1
    refine ⟨c',hc',hok,hs',hsub1.trans hsub',fun b hb hb1 => ?_⟩
    rcases List.mem_cons.mp hb with rfl | hb
    · exact hsub' (hmark hb1)
    · exact hmem b hb hb1

structure ConeDone (m : Aig) (asserts : List ℤ) (c : Cone) : Prop where
  mem : ∀ i ∈ c.marked, 2 ≤ i ∧ i ≤ m.nodes.size ∧ InCone m asserts i
  children : ∀ i ∈ c.marked, ChildrenMarked m c.marked i
  asserts : ∀ a ∈ asserts, 1 < a.natAbs → a.natAbs ∈ c.marked
  inputs : c.nInputs = (c.marked.filter fun i => leftOf m i = 0).card

theorem new_spec (hm : m.Wf) (hsize : m.nodes.size ≤ 0x3FFFFFF0) (hv : ∀ a ∈ asserts, m.Valid a) :
    ∃ c, new m asserts = some (ofCone m asserts c) ∧ ConeDone m asserts c := by
  have hpos := hm.size_pos
  have hempty : ConeOk m asserts ⟨∅,[],0,0⟩ := ⟨by simp,by simp,rfl,by simp⟩
  obtain ⟨c0,hc0,hok0,hs0,_,hmem0⟩ := seedCone_spec asserts (fun _ h => h)
    (fun a ha => (hv a ha).2) hempty (by simp)
  have hinv0 : ConeInv m asserts c0.marked c0 :=
    ⟨hok0,fun i hi hn => absurd (hs0 i hi) hn,subset_rfl⟩
  have hgood : ∀ c, ConeInv m asserts c0.marked c → (coneRound (leftOf m) (rightOf m) c).Good
      (ConeInv m asserts c0.marked) (fun c => ConeInv m asserts c0.marked c ∧ c.stack = [])
      (fun c => m.nodes.size-(c.nInputs+c.nGates)) c := fun c h => coneRound_good hm h
  obtain ⟨c,hc,⟨hok,hclosed,hseeds⟩,hstack⟩ := loop_spec _ hgood (m.nodes.size+1) c0 hinv0 (by omega)
  refine ⟨c,?_,hok.marked,fun i hi => hclosed i hi (by simp [hstack]),
    fun a ha h1 => hseeds (hmem0 a ha h1),by simpa [hstack] using hok.inputs⟩
  rw [new,if_neg (by omega),hc0,Option.bind_some,hc,Option.map_some]

theorem ConeDone.mem_iff (h : ConeDone m asserts c) (i : ℕ) : i ∈ c.marked ↔ InCone m asserts i := by
  constructor
  · exact fun hi => (h.mem i hi).2.2
  · intro hi
    induction hi with
    | root ha h1 => exact h.asserts _ ha h1
    | left _ hl h1 ih => exact (h.children _ ih hl).1 h1
    | right _ hl h1 ih => exact (h.children _ ih hl).2 h1

end Search

section Slots

variable {m : Aig} {asserts : List ℤ} {c : Cone}

theorem mem_ids {N : ℕ} {marked : Finset ℕ} (h : ∀ i ∈ marked, 2 ≤ i ∧ i ≤ N) :
    i ∈ (List.range' 2 (N-1)).filter (· ∈ marked) ↔ i ∈ marked := by
  simp only [List.mem_filter,List.mem_range'_1,decide_eq_true_eq]
  constructor
  · exact fun hi => hi.2
  · intro hi
    obtain ⟨h1,h2⟩ := h i hi
    exact ⟨by omega,hi⟩

theorem ConeDone.mem_inputs (h : ConeDone m asserts c) (i : ℕ) :
    i ∈ (ofCone m asserts c).inputs ↔ i ∈ c.marked ∧ leftOf m i = 0 := by
  simp only [ofCone]
  rw [List.mem_filter,mem_ids fun i hi => ⟨(h.mem i hi).1,(h.mem i hi).2.1⟩,decide_eq_true_eq]

theorem ConeDone.mem_gates (h : ConeDone m asserts c) (i : ℕ) :
    i ∈ (ofCone m asserts c).gateId ↔ i ∈ c.marked ∧ leftOf m i ≠ 0 := by
  simp only [ofCone]
  rw [List.mem_filter,mem_ids fun i hi => ⟨(h.mem i hi).1,(h.mem i hi).2.1⟩,decide_eq_true_eq]

theorem ofCone_sorted (m : Aig) (asserts : List ℤ) (c : Cone) :
    (ofCone m asserts c).inputs.Pairwise (· < ·) ∧ (ofCone m asserts c).gateId.Pairwise (· < ·) := by
  have h := ((List.pairwise_lt_range' (s := 2) (n := m.nodes.size-1)).filter
    (fun i => decide (i ∈ c.marked)))
  exact ⟨h.filter _,h.filter _⟩

theorem ConeDone.inputs_length (h : ConeDone m asserts c) :
    (ofCone m asserts c).inputs.length = c.nInputs := by
  have hnodup : (ofCone m asserts c).inputs.Nodup := (ofCone_sorted m asserts c).1.imp fun h => h.ne
  rw [h.inputs,← List.toFinset_card_of_nodup hnodup]
  congr 1
  ext i
  rw [List.mem_toFinset,h.mem_inputs,Finset.mem_filter]

/-- The slot of a node in the simulator of cone `c`. -/
def slotIn (m : Aig) (asserts : List ℤ) (c : Cone) : ℕ → ℕ :=
  slotOf (ofCone m asserts c).inputs (ofCone m asserts c).gateId c.nInputs

theorem slotIn_input (h : i ∈ (ofCone m asserts c).inputs) :
    slotIn m asserts c i = 1+(ofCone m asserts c).inputs.idxOf i := by
  rw [slotIn,slotOf,if_pos h]

theorem ConeDone.slotIn_gate (h : ConeDone m asserts c) (hi : i ∈ (ofCone m asserts c).gateId) :
    slotIn m asserts c i = 1+c.nInputs+(ofCone m asserts c).gateId.idxOf i := by
  have hnot : i ∉ (ofCone m asserts c).inputs := fun hin =>
    ((h.mem_gates i).mp hi).2 ((h.mem_inputs i).mp hin).2
  rw [slotIn,slotOf,if_neg hnot,if_pos hi]

theorem ConeDone.slotIn_true (h : ConeDone m asserts c) (hi : i ≤ 1) :
    slotIn m asserts c i = 0 := by
  have hnot : i ∉ c.marked := fun hm => by
    have := (h.mem i hm).1
    omega
  rw [slotIn,slotOf,if_neg fun hin => hnot ((h.mem_inputs i).mp hin).1,
    if_neg fun hin => hnot ((h.mem_gates i).mp hin).1]

theorem pack_slot (slot : ℕ → ℕ) (l : ℤ) : pack slot l/2 = slot l.natAbs ∧
    (pack slot l % 2 = 1 ↔ l < 0) := by
  unfold pack
  split_ifs with h
  · exact ⟨by omega,by simp [h]⟩
  · exact ⟨by omega,by simp [h]⟩

end Slots

def laneBit (val : ℕ → Words) (slot lane : ℕ) : Bool := (val slot (lane/64)).getLsbD (lane % 64)

section Pass

variable {m : Aig} {asserts : List ℤ} {c : Cone} {val : ℕ → Words}

theorem operand_lane (val : ℕ → Words) (slot : ℕ → ℕ) (l : ℤ) (lane : ℕ) :
    (operand val (pack slot l) (lane/64)).getLsbD (lane % 64) =
      (laneBit val (slot l.natAbs) lane ^^ decide (l < 0)) := by
  obtain ⟨h1,h2⟩ := pack_slot slot l
  have hlt : lane % 64 < 64 := Nat.mod_lt _ (by decide)
  rw [operand,laneBit,h1,BitVec.getLsbD_xor]
  by_cases hl : l < 0
  · rw [if_pos (h2.mpr hl),BitVec.getLsbD_allOnes]
    simp [hl,hlt]
  · rw [if_neg fun he => hl (h2.mp he)]
    simp [hl]

theorem evalNode_gate (hm : m.Wf) (ρ : ℕ → Bool) (h : leftOf m id ≠ 0) :
    m.evalNode ρ id = (m.evalLit ρ (leftOf m id) && m.evalLit ρ (rightOf m id)) := by
  obtain ⟨_,hand,hl,hr⟩ := leftOf_ne_zero h
  have := hm.evalLit_and ρ hand
  rw [hl,hr]
  simpa [Aig.evalLit] using this

theorem evalNode_input (ρ : ℕ → Bool) (h2 : 2 ≤ id) (hN : id ≤ m.nodes.size) (h : leftOf m id = 0) :
    m.evalNode ρ id = ρ id := by
  have hleft : (m.node id).left = 0 := by
    by_contra hne
    have hand : m.isAndId (id : ℤ) = true := Aig.isAndId_iff.mpr ⟨h2,hN,hne⟩
    rw [leftOf,if_pos ⟨h2,hand⟩] at h
    exact hne h
  rw [Aig.evalNode,if_neg (by omega),if_pos hleft]

/-- In every lane a set of nodes holds the values it has under the lane's assignment. -/
def LanesOk (m : Aig) (slot : ℕ → ℕ) (ρ : ℕ → ℕ → Bool) (val : ℕ → Words) (P : ℕ → Prop) : Prop :=
  ∀ id, P id → ∀ lane < lanes, laneBit val (slot id) lane = m.evalNode (ρ lane) id

theorem LanesOk.lit {slot : ℕ → ℕ} {ρ : ℕ → ℕ → Bool} {P : ℕ → Prop} (h : LanesOk m slot ρ val P)
    {l : ℤ} (hl : P l.natAbs) {lane : ℕ} (hlane : lane < lanes) :
    (operand val (pack slot l) (lane/64)).getLsbD (lane % 64) = m.evalLit (ρ lane) l := by
  rw [operand_lane,h _ hl lane hlane,Aig.evalLit]

theorem runGates_ok (hm : m.Wf) (h : ConeDone m asserts c) {ρ : ℕ → ℕ → Bool} (rest : List ℕ) :
    ∀ done : List ℕ, (ofCone m asserts c).gateId = done ++ rest → ∀ val,
    LanesOk m (slotIn m asserts c) ρ val
      (fun id => id = 1 ∨ id ∈ (ofCone m asserts c).inputs ∨ id ∈ done) →
    LanesOk m (slotIn m asserts c) ρ
      (runGates (1+c.nInputs+done.length) (rest.map fun id =>
        (pack (slotIn m asserts c) (leftOf m id),pack (slotIn m asserts c) (rightOf m id))) val)
      (fun id => id = 1 ∨ id ∈ (ofCone m asserts c).inputs ∨ id ∈ (ofCone m asserts c).gateId) := by
  induction rest with
  | nil =>
    intro done hdone val hval
    rw [List.append_nil] at hdone
    rw [hdone]
    exact hval
  | cons id rest ih =>
    intro done hdone val hval
    have hid : id ∈ (ofCone m asserts c).gateId := by rw [hdone]; simp
    obtain ⟨hmarked,hgate⟩ := (h.mem_gates id).mp hid
    have hsorted := (ofCone_sorted m asserts c).2
    rw [hdone] at hsorted
    obtain ⟨_,hcons,hcross⟩ := List.pairwise_append.mp hsorted
    have hrest := List.pairwise_cons.mp hcons
    have hnew : slotIn m asserts c id = 1+c.nInputs+done.length := by
      have hnot : id ∉ done := fun hd => absurd (hcross id hd id (by simp)) (lt_irrefl _)
      rw [h.slotIn_gate hid,hdone,List.idxOf_append_of_notMem hnot]
      simp
    -- the children have smaller ids, so they are among what was evaluated
    have hchild : ∀ l : ℤ, m.Valid l → l.natAbs < id → (1 < l.natAbs → l.natAbs ∈ c.marked) →
        l.natAbs = 1 ∨ l.natAbs ∈ (ofCone m asserts c).inputs ∨ l.natAbs ∈ done := by
      intro l hv hlt hmem
      rcases Nat.lt_or_ge 1 l.natAbs with h1 | h1
      · by_cases hl : leftOf m l.natAbs = 0
        · exact Or.inr (Or.inl ((h.mem_inputs _).mpr ⟨hmem h1,hl⟩))
        · have hg := (h.mem_gates _).mpr ⟨hmem h1,hl⟩
          rw [hdone] at hg
          rcases List.mem_append.mp hg with hg | hg
          · exact Or.inr (Or.inr hg)
          · rcases List.mem_cons.mp hg with he | hg
            · omega
            · have := hrest.1 _ hg
              omega
      · have := hv.1
        exact Or.inl (by omega)
    obtain ⟨hvl,hvr,hltl,hltr⟩ := leftOf_children hm hgate
    obtain ⟨hcl,hcr⟩ := h.children id hmarked hgate
    have hl := hchild _ hvl hltl hcl
    have hr := hchild _ hvr hltr hcr
    rw [List.map_cons,runGates]
    have hlen : 1+c.nInputs+done.length+1 = 1+c.nInputs+(done ++ [id]).length := by simp; omega
    rw [hlen]
    apply ih (done ++ [id]) (by rw [hdone]; simp)
    intro i hi lane hlane
    by_cases he : i = id
    · subst he
      rw [hnew,laneBit,Function.update_self,BitVec.getLsbD_and,hval.lit hl hlane,hval.lit hr hlane,
        evalNode_gate hm _ hgate]
    · have hi' : i = 1 ∨ i ∈ (ofCone m asserts c).inputs ∨ i ∈ done := by simpa [he] using hi
      have hslot : slotIn m asserts c i ≠ 1+c.nInputs+done.length := by
        rcases hi' with rfl | hi | hi
        · rw [h.slotIn_true (le_refl 1)]
          omega
        · have := List.idxOf_lt_length_of_mem hi
          rw [h.inputs_length] at this
          rw [slotIn_input hi]
          omega
        · have := List.idxOf_lt_length_of_mem hi
          rw [h.slotIn_gate (by rw [hdone]; simp [hi]),hdone,List.idxOf_append_of_mem hi]
          omega
      rw [laneBit,Function.update_of_ne hslot]
      exact hval i hi' lane hlane

end Pass

end Aigsim
end DvSolve
