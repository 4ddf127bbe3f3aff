import DvSolve.Affine
import DvSolve.AigSem
import DvSolve.Bits

/-! Soundness of gate classification.
In every valuation that respects the gates an XOR is the sum of its operands, and a
table is the sum of its leaves and its constant: the values of the independent
leaves name a lane of the simulation, and in that lane every node of the cut has
its own value. -/
namespace DvSolve
namespace Affine

open Function Loop
open List (mem_append mem_cons)

variable {id k : ℕ} {v : ℕ → Bool} {a : Gates} {cone : Finset ℕ} {s : Tables}

/-- A valuation of the nodes that respects every gate. -/
structure Consistent (L R : ℕ → ℤ) (v : ℕ → Bool) : Prop where
  true_one : v 1 = true
  gate : ∀ id, L id ≠ 0 → v id = (litVal v (L id) && litVal v (R id))

theorem litVal_neg (v : ℕ → Bool) {lit : ℤ} (h : lit ≠ 0) : litVal v (-lit) = !litVal v lit := by
  have hs : decide (-lit < 0) = !decide (lit < 0) := by
    rcases lt_or_gt_of_ne h with h | h
    · simp [h,h.le]
    · simp [h,h.le]
  rw [litVal,litVal,idOf,idOf,hs,Int.natAbs_neg,Bool.xor_not]

/-- Parity of a list. -/
def xorAll : List Bool → Bool
  | [] => false
  | b :: bs => b ^^ xorAll bs

@[simp] theorem xorAll_append (bs cs : List Bool) :
    xorAll (bs ++ cs) = (xorAll bs ^^ xorAll cs) := by
  induction bs with
  | nil => simp [xorAll]
  | cons b bs ih => simp [xorAll,ih]

theorem xorAll_filter {α : Type} (l : List α) (p : α → Bool) (f : α → Bool) :
    xorAll ((l.filter p).map f) = xorAll (l.map fun x => p x && f x) := by
  induction l with
  | nil => rfl
  | cons x l ih =>
    by_cases hp : p x = true
    · simp [hp,xorAll,ih]
    · simp [hp,xorAll,ih]

structure TableOk (L R : ℕ → ℤ) (id : ℕ) (t : List ℕ × Bool) : Prop where
  gate : L id ≠ 0
  below : ∀ c ∈ t.1, 0 < c ∧ c < id
  length : t.1.length ≤ smLeaves
  value : ∀ v, Consistent L R v → v id = (t.2 ^^ xorAll (t.1.map v))

structure Gates.Ok (a : Gates) : Prop where
  range : ∀ id, a.L id ≠ 0 → 2 ≤ id ∧ id ≤ a.N
  children : ∀ id, a.L id ≠ 0 →
    0 < idOf (a.L id) ∧ idOf (a.L id) < id ∧ 0 < idOf (a.R id) ∧ idOf (a.R id) < id
  xor_gate : ∀ id, a.xa id ≠ 0 → a.L id ≠ 0 ∧
    0 < idOf (a.xa id) ∧ idOf (a.xa id) < id ∧ 0 < idOf (a.xb id) ∧ idOf (a.xb id) < id
  xor_value : ∀ id, a.xa id ≠ 0 → ∀ v, Consistent a.L a.R v →
    v id = (litVal v (a.xa id) ^^ litVal v (a.xb id))
  table : ∀ id t, a.sm id = some t → TableOk a.L a.R id t

theorem findXor_spec {L R : ℕ → ℤ} (h : (findXor L R id).1 ≠ 0) :
    L id < 0 ∧ R id < 0 ∧ L (idOf (L id)) ≠ 0 ∧ L (idOf (R id)) ≠ 0 ∧
      findXor L R id = (L (idOf (L id)),R (idOf (L id))) ∧
      ((L (idOf (R id)) = -L (idOf (L id)) ∧ R (idOf (R id)) = -R (idOf (L id))) ∨
        (L (idOf (R id)) = -R (idOf (L id)) ∧ R (idOf (R id)) = -L (idOf (L id)))) := by
  unfold findXor at h ⊢
  by_cases h1 : L id = 0 ∨ L id ≥ 0 ∨ R id ≥ 0
  · rw [if_pos h1] at h
    exact absurd rfl h
  · rw [if_neg h1] at h ⊢
    by_cases h2 : L (idOf (L id)) = 0 ∨ L (idOf (R id)) = 0
    · rw [if_pos h2] at h
      exact absurd rfl h
    · rw [if_neg h2] at h ⊢
      push Not at h1 h2
      by_cases h3 : (L (idOf (R id)) = -L (idOf (L id)) ∧ R (idOf (R id)) = -R (idOf (L id))) ∨
          (L (idOf (R id)) = -R (idOf (L id)) ∧ R (idOf (R id)) = -L (idOf (L id)))
      · rw [if_pos h3]
        exact ⟨h1.2.1,h1.2.2,h2.1,h2.2,rfl,h3⟩
      · rw [if_neg h3] at h
        exact absurd rfl h

theorem loadGates_ok {m : Aig} (hm : m.Wf) : (loadGates m).Ok := by
  have hL : ∀ id, (loadGates m).L id ≠ 0 → (2 ≤ id ∧ id ≤ m.nodes.size) ∧
      (loadGates m).L id = (m.childrenOf id).1 ∧ (loadGates m).R id = (m.childrenOf id).2 ∧
      m.isAndId id = true := by
    intro id h
    simp only [loadGates] at h ⊢
    by_cases hc : 2 ≤ id ∧ id ≤ m.nodes.size ∧ m.isAndId id = true
    · rw [if_pos hc,if_pos hc]
      exact ⟨⟨hc.1,hc.2.1⟩,rfl,rfl,hc.2.2⟩
    · rw [if_neg hc] at h
      exact absurd rfl h
  have hchildren : ∀ id, (loadGates m).L id ≠ 0 → 0 < idOf ((loadGates m).L id) ∧
      idOf ((loadGates m).L id) < id ∧ 0 < idOf ((loadGates m).R id) ∧
      idOf ((loadGates m).R id) < id := by
    intro id h
    obtain ⟨_,h1,h2,hand⟩ := hL id h
    obtain ⟨hv1,hv2,hlt1,hlt2⟩ := hm.and_children hand
    rw [h1,h2]
    exact ⟨Int.natAbs_pos.mpr hv1.1,hlt1,Int.natAbs_pos.mpr hv2.1,hlt2⟩
  have hxor : ∀ id, (loadGates m).xa id ≠ 0 → (findXor (loadGates m).L (loadGates m).R id).1 ≠ 0 ∧
      (loadGates m).xa id = (findXor (loadGates m).L (loadGates m).R id).1 ∧
      (loadGates m).xb id = (findXor (loadGates m).L (loadGates m).R id).2 := by
    intro id h
    by_cases hr : 2 ≤ id ∧ id ≤ m.nodes.size
    · have h1 : (loadGates m).xa id = (findXor (loadGates m).L (loadGates m).R id).1 := by
        simp only [loadGates,if_pos hr]
      have h2 : (loadGates m).xb id = (findXor (loadGates m).L (loadGates m).R id).2 := by
        simp only [loadGates,if_pos hr]
      exact ⟨h1 ▸ h,h1,h2⟩
    · simp only [loadGates,if_neg hr] at h
      exact absurd rfl h
  refine ⟨fun id h => (hL id h).1,hchildren,fun id h => ?_,fun id h v hv => ?_,
    fun id t h => by simp [loadGates] at h⟩
  · obtain ⟨hne,ha,hb⟩ := hxor id h
    obtain ⟨hl,_,hp,_,heq,_⟩ := findXor_spec hne
    rw [heq] at ha hb
    dsimp only at ha hb
    have hid := hchildren id (by omega)
    have hc := hchildren _ hp
    rw [ha,hb]
    exact ⟨by omega,hc.1,by omega,hc.2.2.1,by omega⟩
  · obtain ⟨hne,ha,hb⟩ := hxor id h
    obtain ⟨hl,hr,hp,hq,heq,hcase⟩ := findXor_spec hne
    rw [heq] at ha hb
    have hc := hchildren _ hp
    have hR : (loadGates m).R (idOf ((loadGates m).L id)) ≠ 0 :=
      Int.natAbs_pos.mp hc.2.2.1
    -- the gate over its two inner gates
    have hv0 := hv.gate id (by omega)
    have hv1 := hv.gate _ hp
    have hv2 := hv.gate _ hq
    rw [litVal,litVal,decide_eq_true hl,decide_eq_true hr,hv1,hv2] at hv0
    rw [hv0,ha,hb]
    rcases hcase with ⟨e1,e2⟩ | ⟨e1,e2⟩
    · rw [e1,e2,litVal_neg v hp,litVal_neg v hR]
      cases litVal v ((loadGates m).L (idOf ((loadGates m).L id))) <;>
        cases litVal v ((loadGates m).R (idOf ((loadGates m).L id))) <;> rfl
    · rw [e1,e2,litVal_neg v hp,litVal_neg v hR]
      cases litVal v ((loadGates m).L (idOf ((loadGates m).L id))) <;>
        cases litVal v ((loadGates m).R (idOf ((loadGates m).L id))) <;> rfl

theorem smPat_lane : ∀ j < 8, ∀ k < 256, (smPat j).getLsbD k = k.testBit j := by
  decide +kernel

theorem negMask_lane (b : Bool) (hk : k < 256) : (negMask b).getLsbD k = b := by
  cases b
  · simp [negMask]
  · rw [negMask,if_pos rfl,BitVec.getLsbD_allOnes]
    exact decide_eq_true hk

theorem laneLit_lane {val : ℕ → Lanes} (hk : k < 256) {lit : ℤ}
    (h : (val (idOf lit)).getLsbD k = v (idOf lit)) :
    (laneLit val lit).getLsbD k = litVal v lit := by
  rw [laneLit,BitVec.getLsbD_xor,h,negMask_lane _ hk,litVal]

theorem affineOf_lane (f : Lanes) {n : ℕ} (hn : n ≤ 8) (hk : k < 256) :
    (affineOf f n).getLsbD k =
      (f.getLsbD 0 ^^ xorAll ((List.range n).map fun j => coef f j && k.testBit j)) := by
  induction n with
  | zero => simp [affineOf,negMask_lane _ hk,xorAll]
  | succ n ih =>
    have hpat := smPat_lane n (by omega) k hk
    rw [affineOf,List.range_succ,List.map_append,xorAll_append]
    by_cases hc : coef f n = true
    · rw [if_pos hc,BitVec.getLsbD_xor,ih (by omega),hpat]
      simp [xorAll,hc]
    · rw [if_neg hc,ih (by omega)]
      simp [xorAll,hc]

/-- Lane `k` gives the independent leaves their values. -/
def LaneOf (v : ℕ → Bool) (indep : List ℕ) (k : ℕ) : Prop :=
  k < 256 ∧ ∀ j (hj : j < indep.length), k.testBit j = v indep[j]

theorem exists_laneOf (v : ℕ → Bool) {indep : List ℕ} (h : indep.length ≤ 8) :
    ∃ k, LaneOf v indep k := by
  refine ⟨Bits.low (fun j => v (indep.getD j 0)) 8,Bits.low_lt _ 8,fun j hj => ?_⟩
  rw [Bits.testBit_low]
  simp [hj,show j < 8 by omega]

theorem LaneOf.left {indep : List ℕ} {leaf : ℕ} (h : LaneOf v (indep ++ [leaf]) k) :
    LaneOf v indep k := by
  refine ⟨h.1,fun j hj => ?_⟩
  have hj' := h.2 j (by simp; omega)
  rwa [List.getElem_append_left hj] at hj'

theorem simLeaves_append (a : Gates) (leaves : List ℕ) (leaf : ℕ) :
    simLeaves a (leaves ++ [leaf]) = simLeaf a (simLeaves a leaves) leaf := by
  simp [simLeaves]

theorem simLeaves_earlier (a : Gates) (leaves : List ℕ) : (simLeaves a leaves).earlier = leaves := by
  induction leaves using List.reverseRecOn with
  | nil => rfl
  | append_singleton leaves leaf ih =>
    rw [simLeaves_append,simLeaf]
    split_ifs <;> simp [ih]

theorem simLeaves_indep (a : Gates) (leaves : List ℕ) :
    (simLeaves a leaves).indep.Sublist leaves := by
  induction leaves using List.reverseRecOn with
  | nil => exact .slnil
  | append_singleton leaves leaf ih =>
    rw [simLeaves_append,simLeaf]
    split_ifs
    · exact ih.trans (List.sublist_append_left _ _)
    · exact ih.append (List.Sublist.refl _)

theorem simLeaves_lane (ha : a.Ok) (hv : Consistent a.L a.R v) {leaves : List ℕ}
    (hlen : (simLeaves a leaves).indep.length ≤ 8) (hk : LaneOf v (simLeaves a leaves).indep k)
    {n : ℕ} (hn : n = 1 ∨ n ∈ leaves) :
    ((simLeaves a leaves).val n).getLsbD k = v n := by
  induction leaves using List.reverseRecOn generalizing n with
  | nil =>
    obtain rfl : n = 1 := by simpa using hn
    rw [hv.true_one]
    exact negMask_lane true hk.1
  | append_singleton leaves leaf ih =>
    have hearlier := simLeaves_earlier a leaves
    rw [simLeaves_append] at hlen hk ⊢
    unfold simLeaf at hlen hk ⊢
    split_ifs at hlen hk ⊢ with hd
    · -- a derived leaf
      dsimp only at hlen hk ⊢
      rw [hearlier] at hd
      by_cases hnl : n = leaf
      · subst hnl
        simp only [derivedLeaf,Bool.and_eq_true,decide_eq_true_eq,Bool.or_eq_true] at hd
        obtain ⟨⟨hx,_⟩,h1,h2⟩ := hd
        rw [update_self,BitVec.getLsbD_xor,laneLit_lane hk.1 (ih hlen hk h1),
          laneLit_lane hk.1 (ih hlen hk h2)]
        exact (ha.xor_value n hx v hv).symm
      · rw [update_of_ne hnl]
        refine ih hlen hk (hn.imp_right fun h => ?_)
        simpa [hnl] using h
    · dsimp only at hlen hk ⊢
      have hlen' : (simLeaves a leaves).indep.length < 8 := by
        simp only [List.length_append,List.length_singleton] at hlen
        omega
      by_cases hnl : n = leaf
      · subst hnl
        have hlast := hk.2 (simLeaves a leaves).indep.length (by simp)
        rw [update_self,smPat_lane _ hlen' k hk.1,hlast]
        simp
      · rw [update_of_ne hnl]
        refine ih hlen'.le hk.left (hn.imp_right fun h => ?_)
        simpa [hnl] using h

theorem simGates_lane (hv : Consistent a.L a.R v) (hk : k < 256) (known : List ℕ) {gates : List ℕ}
    {val : ℕ → Lanes} (hknown : ∀ n ∈ known, (val n).getLsbD k = v n)
    (hgates : ∀ pre g post, gates = pre ++ g :: post → a.L g ≠ 0 ∧
      (idOf (a.L g) ∈ known ∨ idOf (a.L g) ∈ pre) ∧ (idOf (a.R g) ∈ known ∨ idOf (a.R g) ∈ pre)) :
    ∀ n, n ∈ known ∨ n ∈ gates → ((gates.foldl (simGate a) val) n).getLsbD k = v n := by
  induction gates using List.reverseRecOn with
  | nil => exact fun n hn => hknown n (hn.resolve_right (by simp))
  | append_singleton gates g ih =>
    have hpre := ih fun pre g' post h =>
      hgates pre g' (post ++ [g]) (by rw [h]; simp)
    obtain ⟨hL,hl,hr⟩ := hgates gates g [] rfl
    intro n hn
    rw [List.foldl_append,List.foldl_cons,List.foldl_nil,simGate]
    by_cases hng : n = g
    · subst hng
      rw [update_self,BitVec.getLsbD_and,laneLit_lane hk (hpre _ hl),laneLit_lane hk (hpre _ hr)]
      exact (hv.gate n hL).symm
    · rw [update_of_ne hng]
      refine hpre n (hn.imp_right fun h => ?_)
      simpa [hng] using h

/-- A cut of gate `id`: the children of every inner gate, and of `id`, are TRUE,
leaves or inner gates. -/
structure CutOf (a : Gates) (id : ℕ) (leaves inner : List ℕ) : Prop where
  closed : ∀ g, g = id ∨ g ∈ inner → ∀ c, c = idOf (a.L g) ∨ c = idOf (a.R g) →
    c = 1 ∨ c ∈ leaves ∨ c ∈ inner
  below : ∀ c, c ∈ leaves ∨ c ∈ inner → 0 < c ∧ c < id
  gates : ∀ g ∈ inner, a.L g ≠ 0

theorem affineTable_ok (ha : a.Ok) (hid : a.L id ≠ 0) {leaves inner : List ℕ}
    (hcut : CutOf a id leaves inner) {t : List ℕ × Bool}
    (h : affineTable a id leaves inner = some t) : TableOk a.L a.R id t := by
  unfold affineTable at h
  dsimp only at h
  split_ifs at h with hlen haff
  obtain rfl := (Option.some.inj h).symm
  have hlen' : (simLeaves a (leaves.mergeSort (· ≤ ·))).indep.length ≤ 8 := by
    simpa [smLeaves] using hlen
  have hind : ∀ c ∈ (simLeaves a (leaves.mergeSort (· ≤ ·))).indep, c ∈ leaves := fun c hc =>
    List.mem_mergeSort.mp ((simLeaves_indep _ _).subset hc)
  generalize hs : simLeaves a (leaves.mergeSort (· ≤ ·)) = s at *
  generalize hf : (inner.mergeSort (· ≤ ·) ++ [id]).foldl (simGate a) s.val id = f at *
  refine ⟨hid,fun c hc => ?_,?_,fun v hv => ?_⟩
  · simp only [List.mem_map,List.mem_filter] at hc
    obtain ⟨⟨x,j⟩,⟨hx,-⟩,rfl⟩ := hc
    exact hcut.below _ (.inl (hind _ (List.fst_mem_of_mem_zipIdx hx)))
  · rw [List.length_map]
    refine (List.length_filter_le _ _).trans ?_
    rw [List.length_zipIdx]
    exact hlen'
  · obtain ⟨k,hk⟩ := exists_laneOf v hlen'
    -- the root's lane is its value
    have hroot : f.getLsbD k = v id := by
      rw [← hf]
      refine simGates_lane hv hk.1 (1 :: leaves) (fun n hn => ?_) ?_ id (.inr (by simp))
      · rw [← hs]
        refine simLeaves_lane ha hv (by rwa [hs]) (by rwa [hs]) ?_
        simpa using hn
      · intro pre g post hsplit
        have hg : g = id ∨ g ∈ inner := by
          have hmem : g ∈ inner.mergeSort (· ≤ ·) ++ [id] := by rw [hsplit]; simp
          rcases mem_append.mp hmem with h | h
          · exact .inr (List.mem_mergeSort.mp h)
          · exact .inl (by simpa using h)
        have hLg : a.L g ≠ 0 := hg.elim (fun h => h ▸ hid) (hcut.gates g)
        have hlt := ha.children g hLg
        -- an inner gate below `g` stands before it
        have hbefore : ∀ c ∈ inner, c < g → c ∈ pre := by
          intro c hc hcg
          have hsorted : (inner.mergeSort (· ≤ ·) ++ [id]).Pairwise (· ≤ ·) := by
            rw [List.pairwise_append]
            refine ⟨?_,by simp,fun x hx y hy => ?_⟩
            · have hms : (inner.mergeSort fun x y => decide (x ≤ y)).Pairwise
                  fun x y => decide (x ≤ y) = true :=
                List.pairwise_mergeSort (by simpa using fun x y z => le_trans)
                  (by simpa using le_total) inner
              simpa using hms
            · obtain rfl : y = id := by simpa using hy
              exact (hcut.below x (.inr (List.mem_mergeSort.mp hx))).2.le
          have hmem : c ∈ pre ++ g :: post := by
            rw [← hsplit]
            exact List.mem_append_left _ (List.mem_mergeSort.mpr hc)
          rw [hsplit,List.pairwise_append] at hsorted
          rcases mem_append.mp hmem with h | h
          · exact h
          · rcases mem_cons.mp h with rfl | h
            · exact absurd hcg (lt_irrefl _)
            · exact absurd (List.rel_of_pairwise_cons hsorted.2.1 h) (by omega)
        have hchild : ∀ c, c = idOf (a.L g) ∨ c = idOf (a.R g) → c ∈ 1 :: leaves ∨ c ∈ pre := by
          intro c hc
          have hcg : c < g := by rcases hc with rfl | rfl <;> omega
          rcases hcut.closed g hg c hc with rfl | h | h
          · exact .inl List.mem_cons_self
          · exact .inl (List.mem_cons_of_mem _ h)
          · exact .inr (hbefore c h hcg)
        exact ⟨hLg,hchild _ (.inl rfl),hchild _ (.inr rfl)⟩
    -- and the lane of an affine function is the sum of the leaves
    have hlane := affineOf_lane f hlen' hk.1
    rw [haff,hroot] at hlane
    rw [hlane,List.map_map,xorAll_filter]
    congr 2
    refine List.ext_getElem (by simp) fun j h1 h2 => ?_
    have hj : j < s.indep.length := by simpa using h1
    simp [hk.2 j hj]

/-- Nodes known to the search: every node of `cone` below `id` that is no gate is
linear, and tables are gates. -/
structure LinOk (a : Gates) (cone : Finset ℕ) (lin : ℕ → Bool) (id : ℕ) : Prop where
  closed : ∀ c ∈ cone, a.L c ≠ 0 → ∀ d, d = idOf (a.L c) ∨ d = idOf (a.R c) → d = 1 ∨ d ∈ cone
  leaf : ∀ c ∈ cone, c < id → a.L c = 0 → lin c = true

structure CutOk (a : Gates) (cone : Finset ℕ) (id : ℕ) (s : Cut) : Prop where
  closed : ∀ g, g = id ∨ g ∈ s.inner → ∀ c, c = idOf (a.L g) ∨ c = idOf (a.R g) →
    c = 1 ∨ c ∈ s.leaves ∨ c ∈ s.inner ∨ c ∈ s.stack
  below : ∀ c, c ∈ s.leaves ∨ c ∈ s.inner ∨ c ∈ s.stack → 0 < c ∧ c < id ∧ (c = 1 ∨ c ∈ cone)
  gates : ∀ g ∈ s.inner, a.L g ≠ 0
  visited : ∀ c ∈ s.visited, c ∈ s.leaves ∨ c ∈ s.inner
  inner_le : s.inner.length ≤ smInternal

def cutVariant (s : Cut) : ℕ := s.stack.length + 2 * (smInternal - s.inner.length)

theorem cutRound_good (ha : a.Ok) {lin : ℕ → Bool} (hlin : LinOk a cone lin id) (pierce : Bool)
    (s : Cut) (hs : CutOk a cone id s) :
    (cutRound a lin pierce s).Good (CutOk a cone id)
      (fun r => ∀ leaves inner, r.1 = some (leaves,inner) → CutOf a id leaves inner)
      cutVariant s := by
  obtain ⟨leaves,inner,visited,stack,budget⟩ := s
  unfold cutRound
  cases stack with
  | nil =>
    intro l i h
    obtain ⟨rfl,rfl⟩ : leaves = l ∧ inner = i := by simpa using h
    refine ⟨fun g hg c hc => ?_,fun c hc => ?_,hs.gates⟩
    · simpa using hs.closed g hg c hc
    · have hb := hs.below c (hc.imp_right .inl)
      exact ⟨hb.1,hb.2.1⟩
  | cons c stack =>
    have hc := hs.below c (by simp)
    have hrest : ∀ d, d ∈ leaves ∨ d ∈ inner ∨ d ∈ stack → 0 < d ∧ d < id ∧ (d = 1 ∨ d ∈ cone) :=
      fun d hd => hs.below d (by
        rcases hd with h | h | h
        · exact .inl h
        · exact .inr (.inl h)
        · exact .inr (.inr (List.mem_cons_of_mem _ h)))
    -- what a node is once `c` has left the stack for `leaves'` or `inner'`
    have hmove : ∀ {leaves' inner' stack' : List ℕ}, (c = 1 ∨ c ∈ leaves' ∨ c ∈ inner') →
        (∀ d ∈ leaves, d ∈ leaves') → (∀ d ∈ inner, d ∈ inner') → (∀ d ∈ stack, d ∈ stack') →
        ∀ d, d = 1 ∨ d ∈ leaves ∨ d ∈ inner ∨ d ∈ c :: stack →
          d = 1 ∨ d ∈ leaves' ∨ d ∈ inner' ∨ d ∈ stack' := by
      intro leaves' inner' stack' hc' hl hi hst d hd
      rcases hd with h | h | h | h
      · exact .inl h
      · exact .inr (.inl (hl d h))
      · exact .inr (.inr (.inl (hi d h)))
      · rcases mem_cons.mp h with rfl | h
        · rcases hc' with h | h | h
          · exact .inl h
          · exact .inr (.inl h)
          · exact .inr (.inr (.inl h))
        · exact .inr (.inr (.inr (hst d h)))
    dsimp only
    by_cases hskip : c = 1 ∨ c ∈ visited
    · rw [if_pos hskip]
      refine ⟨⟨fun g hg d hd => ?_,hrest,hs.gates,hs.visited,hs.inner_le⟩,?_⟩
      · exact hmove (hskip.imp_right (hs.visited c)) (fun _ h => h) (fun _ h => h) (fun _ h => h)
          d (hs.closed g hg d hd)
      · simp [cutVariant]
    rw [if_neg hskip]
    by_cases hbudget : budget = 0
    · rw [if_pos hbudget]
      exact fun l i h => by cases h
    rw [if_neg hbudget]
    push Not at hskip
    have hcone : c ∈ cone := hc.2.2.resolve_left hskip.1
    by_cases hleaf : (lin c && !(pierce && (a.sm c).isSome)) = true
    · rw [if_pos hleaf]
      by_cases hfull : leaves.length = smCut
      · rw [if_pos hfull]
        exact fun l i h => by cases h
      rw [if_neg hfull]
      refine ⟨⟨fun g hg d hd => ?_,fun d hd => ?_,hs.gates,fun d hd => ?_,hs.inner_le⟩,?_⟩
      · exact hmove (.inr (.inl (by simp))) (fun _ h => by simp [h]) (fun _ h => h)
          (fun _ h => h) d (hs.closed g hg d hd)
      · rcases hd with h | h
        · rcases mem_append.mp h with h | h
          · exact hrest d (.inl h)
          · obtain rfl : d = c := by simpa using h
            exact hc
        · exact hrest d (.inr h)
      · rcases Finset.mem_insert.mp hd with rfl | h
        · exact .inl (by simp)
        · exact (hs.visited d h).imp_left fun h => List.mem_append_left _ h
      · simp [cutVariant]
    · rw [if_neg hleaf]
      by_cases hfull : inner.length = smInternal
      · rw [if_pos hfull]
        exact fun l i h => by cases h
      rw [if_neg hfull]
      -- a node that is no leaf is a gate
      have hLc : a.L c ≠ 0 := by
        intro h0
        rw [hlin.leaf c hcone hc.2.1 h0,Bool.true_and,Bool.not_eq_true',Bool.not_eq_false,
          Bool.and_eq_true] at hleaf
        obtain ⟨t,ht⟩ := Option.isSome_iff_exists.mp hleaf.2
        exact (ha.table c t ht).gate h0
      have hch := ha.children c hLc
      refine ⟨⟨fun g hg d hd => ?_,fun d hd => ?_,fun g hg => ?_,fun d hd => ?_,?_⟩,?_⟩
      · have hg' : (g = id ∨ g ∈ inner) ∨ g = c := by
          rcases hg with h | h
          · exact .inl (.inl h)
          · rcases mem_append.mp h with h | h
            · exact .inl (.inr h)
            · exact .inr (by simpa using h)
        rcases hg' with hg | rfl
        · exact hmove (.inr (.inr (by simp))) (fun _ h => h) (fun _ h => by simp [h])
            (fun _ h => by simp [h]) d (hs.closed g hg d hd)
        · exact .inr (.inr (.inr (by rcases hd with rfl | rfl <;> simp)))
      · rcases hd with h | h | h
        · exact hrest d (.inl h)
        · rcases mem_append.mp h with h | h
          · exact hrest d (.inr (.inl h))
          · obtain rfl : d = c := by simpa using h
            exact hc
        · rcases mem_cons.mp h with rfl | h
          · exact ⟨hch.2.2.1,by omega,hlin.closed c hcone hLc _ (.inr rfl)⟩
          · rcases mem_cons.mp h with rfl | h
            · exact ⟨hch.1,by omega,hlin.closed c hcone hLc _ (.inl rfl)⟩
            · exact hrest d (.inr (.inr h))
      · rcases mem_append.mp hg with h | h
        · exact hs.gates g h
        · obtain rfl : g = c := by simpa using h
          exact hLc
      · rcases Finset.mem_insert.mp hd with rfl | h
        · exact .inr (by simp)
        · exact (hs.visited d h).imp_right fun h => List.mem_append_left _ h
      · have hle := hs.inner_le
        simp only [List.length_append,List.length_singleton]
        dsimp only at hle
        omega
      · have hle := hs.inner_le
        dsimp only at hle
        simp only [cutVariant,List.length_cons,List.length_append,List.length_nil]
        omega

theorem findSmall_ok (ha : a.Ok) {lin : ℕ → Bool} (hlin : LinOk a cone lin id) (hid : a.L id ≠ 0)
    (hcone : id ∈ cone) (budget : ℕ) (pierce : Bool) :
    ∃ r, findSmall a lin budget id pierce = some r ∧ ∀ t, r.1 = some t → TableOk a.L a.R id t := by
  have hch := ha.children id hid
  have hstart : CutOk a cone id ⟨[],[],∅,[idOf (a.R id),idOf (a.L id)],budget⟩ := by
    refine ⟨fun g hg c hc => ?_,fun c hc => ?_,by simp,by simp,by simp⟩
    · obtain rfl : g = id := by simpa using hg
      exact .inr (.inr (.inr (by rcases hc with rfl | rfl <;> simp)))
    · obtain rfl | rfl : c = idOf (a.R id) ∨ c = idOf (a.L id) := by simpa using hc
      · exact ⟨hch.2.2.1,hch.2.2.2,hlin.closed id hcone hid _ (.inr rfl)⟩
      · exact ⟨hch.1,hch.2.1,hlin.closed id hcone hid _ (.inl rfl)⟩
  obtain ⟨⟨cut,b⟩,hrun,hcut⟩ := loop_spec cutVariant (cutRound_good ha hlin pierce)
    (2 * smInternal + 3) _ hstart (by simp [cutVariant]; omega)
  unfold findSmall findCut
  rw [hrun]
  cases cut with
  | none => exact ⟨_,rfl,fun t h => by cases h⟩
  | some li =>
    obtain ⟨leaves,inner⟩ := li
    exact ⟨_,rfl,fun t h => affineTable_ok ha hid (hcut leaves inner rfl) h⟩

structure ConeOk (a : Gates) (s : Finset ℕ × List ℕ) : Prop where
  closed : ∀ c ∈ s.1, a.L c ≠ 0 → ∀ d, d = idOf (a.L c) ∨ d = idOf (a.R c) → d ≤ 1 ∨ d ∈ s.1 ∨ d ∈ s.2
  range : ∀ c, c ∈ s.1 ∨ c ∈ s.2 → c ≤ a.N
  one_lt : ∀ c ∈ s.1, 1 < c

theorem coneRound_good (ha : a.Ok) (s : Finset ℕ × List ℕ) (hs : ConeOk a s) :
    (coneRound a s).Good (ConeOk a) (fun cone => ConeOk a (cone,[]))
      (fun s => searchVariant 2 (Finset.range (a.N+1)) s.1 s.2.length) s := by
  obtain ⟨cone,stack⟩ := s
  unfold coneRound
  cases stack with
  | nil => exact hs
  | cons id stack =>
    have hid := hs.range id (.inr List.mem_cons_self)
    have hrest : ∀ c, c ∈ cone ∨ c ∈ stack → c ≤ a.N := fun c hc =>
      hs.range c (hc.imp_right fun h => List.mem_cons_of_mem _ h)
    dsimp only
    by_cases hskip : id ≤ 1 ∨ id ∈ cone
    · rw [if_pos hskip]
      refine ⟨⟨fun c hc hL d hd => ?_,hrest,hs.one_lt⟩,searchVariant_mono 2 subset_rfl (by simp)⟩
      rcases hs.closed c hc hL d hd with h | h | h
      · exact .inl h
      · exact .inr (.inl h)
      · rcases mem_cons.mp h with rfl | h
        · exact hskip.imp_right .inl
        · exact .inr (.inr h)
    rw [if_neg hskip]
    push Not at hskip
    have hmem : id ∈ Finset.range (a.N+1) := Finset.mem_range.mpr (by omega)
    have hone : ∀ c ∈ insert id cone, 1 < c := fun c hc => by
      rcases Finset.mem_insert.mp hc with rfl | h
      · exact hskip.1
      · exact hs.one_lt c h
    have hkeep : ∀ {stack' : List ℕ}, (∀ d ∈ stack, d ∈ stack') → ∀ c ∈ cone, a.L c ≠ 0 →
        ∀ d, d = idOf (a.L c) ∨ d = idOf (a.R c) → d ≤ 1 ∨ d ∈ insert id cone ∨ d ∈ stack' := by
      intro stack' hst c hc hL d hd
      rcases hs.closed c hc hL d hd with h | h | h
      · exact .inl h
      · exact .inr (.inl (Finset.mem_insert_of_mem h))
      · rcases mem_cons.mp h with rfl | h
        · exact .inr (.inl (Finset.mem_insert_self _ _))
        · exact .inr (.inr (hst d h))
    by_cases hL : a.L id ≠ 0
    · rw [if_pos hL]
      have hch := ha.children id hL
      refine ⟨⟨fun c hc hLc d hd => ?_,fun c hc => ?_,hone⟩,?_⟩
      · rcases Finset.mem_insert.mp hc with rfl | hc
        · exact .inr (.inr (by rcases hd with rfl | rfl <;> simp))
        · exact hkeep (fun _ h => by simp [h]) c hc hLc d hd
      · rcases hc with h | h
        · rcases Finset.mem_insert.mp h with rfl | h
          · exact hid
          · exact hrest c (.inl h)
        · rcases mem_cons.mp h with rfl | h
          · omega
          · rcases mem_cons.mp h with rfl | h
            · omega
            · exact hrest c (.inr h)
      · exact searchVariant_visit 2 hmem hskip.2 (by simp)
    · rw [if_neg hL]
      refine ⟨⟨fun c hc hLc d hd => ?_,fun c hc => ?_,hone⟩,?_⟩
      · rcases Finset.mem_insert.mp hc with rfl | hc
        · exact absurd hLc hL
        · exact hkeep (fun _ h => h) c hc hLc d hd
      · rcases hc with h | h
        · rcases Finset.mem_insert.mp h with rfl | h
          · exact hid
          · exact hrest c (.inl h)
        · exact hrest c (.inr h)
      · exact searchVariant_visit 2 hmem hskip.2 (by simp only [List.length_cons]; omega)

theorem findCone_ok (ha : a.Ok) {asserts : List ℤ} (h : ∀ l ∈ asserts, idOf l ≤ a.N) :
    ∃ cone, findCone a asserts = some cone ∧ ConeOk a (cone,[]) := by
  have hstart : ConeOk a (∅,(asserts.map idOf).reverse) := by
    refine ⟨by simp,fun c hc => ?_,by simp⟩
    obtain ⟨l,hl,rfl⟩ : ∃ l ∈ asserts, idOf l = c := by simpa using hc
    exact h l hl
  refine loop_spec _ (coneRound_good ha) _ _ hstart ?_
  simp only [searchVariant,Finset.sdiff_empty,Finset.card_range,List.length_reverse,List.length_map]
  omega

/-- Invariant of the pass, with the nodes below `id` done. -/
structure TablesOk (a : Gates) (cone : Finset ℕ) (id : ℕ) (s : Tables) : Prop where
  same : s.gates = { a with sm := s.gates.sm }
  gates : s.gates.Ok
  leaf : ∀ c ∈ cone, c < id → a.L c = 0 → s.lin c = true

theorem TablesOk.addSmall (hs : TablesOk a cone id s) (hid : a.L id ≠ 0) {t : List ℕ × Bool}
    (ht : TableOk a.L a.R id t) (budget : ℕ) : TablesOk a cone (id+1) (s.addSmall id t budget) := by
  obtain ⟨hsame,hgates,hleaf⟩ := hs
  have hL : s.gates.L = a.L := by rw [hsame]
  have hR : s.gates.R = a.R := by rw [hsame]
  refine ⟨?_,⟨hgates.range,hgates.children,hgates.xor_gate,hgates.xor_value,fun c u hu => ?_⟩,
    fun c hc hlt h0 => ?_⟩
  · simp only [Tables.addSmall]
    rw [hsame]
  · simp only [Tables.addSmall] at hu ⊢
    by_cases hci : c = id
    · subst hci
      rw [update_self] at hu
      rw [hL,hR,← Option.some.inj hu]
      exact ht
    · rw [update_of_ne hci] at hu
      exact hgates.table c u hu
  · simp only [Tables.addSmall]
    have hci : c ≠ id := fun h => hid (h ▸ h0)
    rw [update_of_ne hci]
    exact hleaf c hc (by omega) h0

theorem TablesOk.linOk (hcone : ConeOk a (cone,[])) (hs : TablesOk a cone id s) :
    LinOk s.gates cone s.lin id := by
  obtain ⟨hsame,hgates,hleaf⟩ := hs
  have hL : s.gates.L = a.L := by rw [hsame]
  have hR : s.gates.R = a.R := by rw [hsame]
  refine ⟨fun c hc hLc d hd => ?_,fun c hc hlt h0 => hleaf c hc hlt (hL ▸ h0)⟩
  have hch := hgates.children c hLc
  have hpos : 0 < d := by
    rcases hd with rfl | rfl
    · exact hch.1
    · exact hch.2.2.1
  rw [hL] at hLc
  rw [hL,hR] at hd
  rcases hcone.closed c hc hLc d hd with h | h | h
  · exact .inl (by omega)
  · exact .inr h
  · simp at h

/-- The nodes below `id + 1` are done when a step at the gate `id` leaves the gates
and the linear nodes alone. -/
theorem TablesOk.skip {s' : Tables} (hs : TablesOk a cone id s) (hgates : s'.gates = s.gates)
    (hlin : s'.lin = s.lin) (hid : id ∉ cone ∨ a.L id ≠ 0) : TablesOk a cone (id+1) s' := by
  refine ⟨by rw [hgates]; exact hs.same,by rw [hgates]; exact hs.gates,fun c hc hlt h0 => ?_⟩
  have hci : c ≠ id := by
    rintro rfl
    exact hid.elim (fun h => h hc) fun h => h h0
  rw [hlin]
  exact hs.leaf c hc (by omega) h0

theorem TablesOk.trySmall (hcone : ConeOk a (cone,[])) (hs : TablesOk a cone id s)
    (hmem : id ∈ cone) (hid : a.L id ≠ 0) :
    ∃ s', trySmall s id = some s' ∧ TablesOk a cone (id+1) s' := by
  have hL : s.gates.L = a.L := by rw [hs.same]
  have hR : s.gates.R = a.R := by rw [hs.same]
  have hlin := hs.linOk hcone
  -- one try, whether the signature allows it or not
  have htry : ∀ (sig budget : ℕ) (pierce : Bool), ∃ r, trySig s sig budget id pierce = some r ∧
      ∀ t, r.1 = some t → TableOk a.L a.R id t := by
    intro sig budget pierce
    unfold trySig
    by_cases hsig : popcount sig ≤ smCut
    · rw [if_pos hsig]
      obtain ⟨r,hr,ht⟩ := findSmall_ok hs.gates hlin (by rwa [hL]) hmem budget pierce
      rw [hL,hR] at ht
      exact ⟨r,hr,ht⟩
    · rw [if_neg hsig]
      exact ⟨_,rfl,fun t h => by cases h⟩
  obtain ⟨⟨t₁,b₁⟩,hr₁,ht₁⟩ := htry (s.sig1 id) s.budget false
  unfold Affine.trySmall
  rw [hr₁]
  cases t₁ with
  | some t => exact ⟨_,rfl,hs.addSmall hid (ht₁ t rfl) b₁⟩
  | none =>
    obtain ⟨⟨t₂,b₂⟩,hr₂,ht₂⟩ := htry (s.sig2 id) b₁ true
    rw [Option.bind_eq_bind,Option.bind_some]
    dsimp only
    rw [hr₂]
    cases t₂ with
    | some t => exact ⟨_,rfl,hs.addSmall hid (ht₂ t rfl) b₂⟩
    | none => exact ⟨_,rfl,hs.skip rfl rfl (.inr hid)⟩

theorem TablesOk.step (hcone : ConeOk a (cone,[])) (hs : TablesOk a cone id s) (read : ℕ → Bool) :
    ∃ s', tableStep cone read s id = some s' ∧ TablesOk a cone (id+1) s' := by
  have hL : s.gates.L = a.L := by rw [hs.same]
  unfold tableStep
  dsimp only
  by_cases hmem : id ∉ cone
  · rw [if_pos hmem]
    exact ⟨s,rfl,hs.skip rfl rfl (.inl hmem)⟩
  rw [if_neg hmem]
  rw [not_not] at hmem
  by_cases hlin : s.gates.L id = 0 ∨ (s.gates.xa id ≠ 0 ∧ s.lin (idOf (s.gates.xa id)) = true ∧
      s.lin (idOf (s.gates.xb id)) = true)
  · rw [if_pos hlin]
    refine ⟨_,rfl,hs.same,hs.gates,fun c hc hlt h0 => ?_⟩
    dsimp only
    by_cases hci : c = id
    · rw [hci,update_self]
    · rw [update_of_ne hci]
      exact hs.leaf c hc (by omega) h0
  · rw [if_neg hlin]
    push Not at hlin
    have hid : a.L id ≠ 0 := hL ▸ hlin.1
    split_ifs
    · exact ⟨_,rfl,hs.skip rfl rfl (.inr hid)⟩
    · exact TablesOk.trySmall hcone ⟨hs.same,hs.gates,hs.leaf⟩ hmem hid

theorem findTables_ok (ha : a.Ok) {asserts : List ℤ} (h : ∀ l ∈ asserts, idOf l ≤ a.N) :
    ∃ r, findTables a asserts = some r ∧ r.1.Ok ∧ r.1 = { a with sm := r.1.sm } := by
  obtain ⟨cone,hcone,hok⟩ := findCone_ok ha h
  have hpass : ∀ (read : ℕ → Bool) (n id : ℕ) (s : Tables), TablesOk a cone id s →
      ∃ s', (List.range' id n).foldlM (tableStep cone read) s = some s' ∧ TablesOk a cone (id+n) s' := by
    intro read n
    induction n with
    | zero => exact fun id s hs => ⟨s,rfl,hs⟩
    | succ n ih =>
      intro id s hs
      obtain ⟨s₁,hs₁,hok₁⟩ := hs.step hok read
      obtain ⟨s₂,hs₂,hok₂⟩ := ih (id+1) s₁ hok₁
      refine ⟨s₂,?_,by rwa [Nat.add_right_comm] at hok₂⟩
      rw [List.range'_succ,List.foldlM_cons,hs₁]
      exact hs₂
  unfold findTables
  rw [hcone]
  simp only [Option.bind_eq_bind,Option.bind_some]
  have hstart : ∀ budget, TablesOk a cone 2
      ⟨a,Function.update (fun _ => false) 1 true,fun _ => 0,fun _ => 0,budget,0⟩ := fun budget =>
    ⟨rfl,ha,fun c hc hlt _ => absurd (hok.one_lt c hc) (by omega)⟩
  obtain ⟨s,hs,hfin⟩ := hpass _ (a.N-1) 2 _ (hstart _)
  rw [hs]
  exact ⟨_,rfl,hfin.gates,hfin.same⟩

end Affine
end DvSolve
