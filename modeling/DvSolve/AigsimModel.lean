import DvSolve.AigsimSweep
import DvSolve.AigBuild
import Mathlib.Data.Nat.Bitwise

/-! The simulator decides the assertions, and its model is a valuation of the graph. -/
namespace DvSolve
namespace Aigsim

section Decide

variable {m : Aig} {asserts : List ℤ} {c : Cone}

def Satisfiable (m : Aig) (asserts : List ℤ) : Prop := ∃ ρ, ∀ a ∈ asserts, m.evalLit ρ a = true

theorem evalNode_le_one (m : Aig) (ρ : ℕ → Bool) {i : ℕ} (h : i ≤ 1) : m.evalNode ρ i = true := by
  rw [Aig.evalNode,if_pos h]

theorem ConeDone.evalNode_congr (hm : m.Wf) (h : ConeDone m asserts c) {ρ ρ' : ℕ → Bool}
    (hρ : ∀ i ∈ (ofCone m asserts c).inputs, ρ i = ρ' i) (i : ℕ) (hi : i ∈ c.marked) :
    m.evalNode ρ i = m.evalNode ρ' i := by
  induction i using Nat.strong_induction_on with
  | _ i ih =>
    obtain ⟨h2,hN,_⟩ := h.mem i hi
    by_cases hl : leftOf m i = 0
    · rw [evalNode_input ρ h2 hN hl,evalNode_input ρ' h2 hN hl]
      exact hρ i ((h.mem_inputs i).mpr ⟨hi,hl⟩)
    · obtain ⟨hvl,hvr,hltl,hltr⟩ := leftOf_children hm hl
      obtain ⟨hcl,hcr⟩ := h.children i hi hl
      have hchild : ∀ l : ℤ, l.natAbs < i → (1 < l.natAbs → l.natAbs ∈ c.marked) →
          m.evalLit ρ l = m.evalLit ρ' l := by
        intro l hlt hmem
        rw [Aig.evalLit,Aig.evalLit]
        congr 1
        rcases Nat.lt_or_ge 1 l.natAbs with h1 | h1
        · exact ih _ hlt (hmem h1)
        · rw [evalNode_le_one m ρ h1,evalNode_le_one m ρ' h1]
      rw [evalNode_gate hm ρ hl,evalNode_gate hm ρ' hl,hchild _ hltl hcl,hchild _ hltr hcr]

theorem ConeDone.evalLit_congr (hm : m.Wf) (h : ConeDone m asserts c) {ρ ρ' : ℕ → Bool}
    (hρ : ∀ i ∈ (ofCone m asserts c).inputs, ρ i = ρ' i) {a : ℤ} (ha : a ∈ asserts) :
    m.evalLit ρ a = m.evalLit ρ' a := by
  rw [Aig.evalLit,Aig.evalLit]
  congr 1
  rcases Nat.lt_or_ge 1 a.natAbs with h1 | h1
  · exact h.evalNode_congr hm hρ _ (h.asserts a ha h1)
  · rw [evalNode_le_one m ρ h1,evalNode_le_one m ρ' h1]

theorem ConeDone.exists_index (hm : m.Wf) (h : ConeDone m asserts c) {ρ : ℕ → Bool}
    (hρ : ∀ a ∈ asserts, m.evalLit ρ a = true) : ∃ idx < 2^c.nInputs, Good m asserts c idx := by
  let inputs := (ofCone m asserts c).inputs
  have hlen : inputs.length = c.nInputs := h.inputs_length
  refine ⟨Nat.ofBits fun k : Fin c.nInputs => ρ (inputs.get (k.cast hlen.symm)),
    Nat.ofBits_lt_two_pow _,fun a ha => ?_⟩
  rw [← hρ a ha]
  apply h.evalLit_congr hm _ ha
  intro i hi
  have hidx : inputs.idxOf i < c.nInputs := hlen ▸ List.idxOf_lt_length_of_mem hi
  rw [inputAt,Nat.testBit_ofBits_lt _ _ hidx]
  simp [inputs]

theorem exists_lane {n idx : ℕ} (h : idx < 2^n) :
    ∃ b < (if n > inPass then 2^(n-inPass) else 1), ∃ lane < liveLanes n, indexOf b lane = idx := by
  have hor : ∀ b lane, lane < 2^inPass → indexOf b lane = 2^inPass*b+lane := fun b lane hlane => by
    rw [indexOf,Nat.or_comm,← Nat.shiftLeft_add_eq_or_of_lt hlane,Nat.shiftLeft_eq,Nat.mul_comm]
  have hlanes : lanes = 2^inPass := rfl
  by_cases hn : n ≥ inPass
  · have hmod := Nat.mod_lt idx (Nat.two_pow_pos inPass)
    refine ⟨idx/2^inPass,?_,idx % 2^inPass,by rw [liveLanes,if_pos hn,hlanes]; exact hmod,?_⟩
    · have hdiv : idx/2^inPass < 2^(n-inPass) := by
        apply Nat.div_lt_of_lt_mul
        rwa [← pow_add,Nat.add_sub_cancel' hn]
      split_ifs with hgt
      · exact hdiv
      · have he : n-inPass = 0 := by omega
        rwa [he,pow_zero] at hdiv
    · rw [hor _ _ hmod]
      exact Nat.div_add_mod idx (2^inPass)
  · have hlt : idx < 2^inPass := h.trans_le (Nat.pow_le_pow_right (by decide) (by omega))
    refine ⟨0,by split_ifs <;> simp,idx,by rwa [liveLanes,if_neg hn],?_⟩
    rw [hor 0 idx hlt]
    omega

theorem liveLanes_le (n : ℕ) : liveLanes n ≤ lanes := by
  rw [liveLanes]
  split_ifs with h
  · exact le_refl _
  · exact Nat.pow_le_pow_right (by decide) (by omega : n ≤ inPass)

theorem exhaustive_spec (hm : m.Wf) (hv : ∀ a ∈ asserts, m.Valid a) (h : ConeDone m asserts c)
    (hn : c.nInputs ≤ 32) (seed : BitVec 64) :
    (∃ s', exhaustive (ofCone m asserts c) (fun _ => false) seed = (.sat,s') ∧
      Based m asserts c s' ∧ Kept m asserts c s') ∨
    ((exhaustive (ofCone m asserts c) (fun _ => false) seed).1 = .unsat ∧ ¬Satisfiable m asserts) := by
  have hn' : ¬(ofCone m asserts c).nInputs > 32 := not_lt.mpr hn
  rw [exhaustive,if_neg hn']
  have hset : LanesSet c.nInputs (laneInputs c.nInputs (ofCone m asserts c).val) := by
    apply laneInputs_set
    intro lane
    have hlt : lane % 64 < 64 := Nat.mod_lt _ (by decide)
    rw [laneBit,ofCone]
    dsimp only
    rw [if_pos rfl,BitVec.getLsbD_allOnes]
    simpa using hlt
  have hbase := (Based.refl m asserts c).update
    (laneInputs c.nInputs (ofCone m asserts c).val) 0 false false 0 0
  rcases sweep_decides hm hv h (liveLanes_le c.nInputs)
    (if c.nInputs > inPass then 2^(c.nInputs-inPass) else 1) 0 _ seed 0 hbase hset
    (fun h0 => absurd rfl h0) (fun _ b' hb' => absurd hb' (Nat.not_lt_zero b')) with
    hsat | ⟨hunsat,hnone⟩
  · exact Or.inl hsat
  · refine Or.inr ⟨hunsat,?_⟩
    rintro ⟨ρ,hρ⟩
    obtain ⟨idx,hidx,hgood⟩ := h.exists_index hm hρ
    obtain ⟨b,hb,lane,hlane,he⟩ := exists_lane hidx
    exact hnone b (by omega) lane hlane (he ▸ hgood)

structure Valuation (m : Aig) (nv : ℕ → Bool) : Prop where
  true_node : nv 1 = true
  gates : ∀ id, 2 ≤ id → id ≤ m.nodes.size → m.isAndId id = true →
    nv id = (bit nv (m.childrenOf id).1 && bit nv (m.childrenOf id).2)

theorem bit_eq_xor (nv : ℕ → Bool) (l : ℤ) : bit nv l = (nv l.natAbs ^^ decide (l < 0)) := by
  rw [bit]
  split_ifs with h
  · simp [h]
  · simp [h]

theorem setGates_eval (hm : m.Wf) {nv : ℕ → Bool} (h1 : nv 1 = true) :
    ∀ i, 1 ≤ i → i ≤ m.nodes.size →
      setGates (leftOf m) (rightOf m) m.nodes.size nv i = m.evalNode nv i := by
  have hprefix : ∀ k, k+1 ≤ m.nodes.size → ∀ i, 1 ≤ i → i ≤ m.nodes.size →
      ((List.range' 2 k).foldl (fun nv id => if leftOf m id ≠ 0 then
        Function.update nv id (bit nv (leftOf m id) && bit nv (rightOf m id)) else nv) nv) i =
        if i ≤ k+1 then m.evalNode nv i else nv i := by
    intro k
    induction k with
    | zero =>
      intro _ i hi _
      split_ifs with hle
      · obtain rfl : i = 1 := by omega
        rw [evalNode_le_one m nv (le_refl 1)]
        exact h1
      · rfl
    | succ k ih =>
      intro hk i hi hN
      have hset := ih (by omega)
      rw [List.range'_1_concat,List.foldl_append,List.foldl_cons,List.foldl_nil]
      generalize hnv : (List.range' 2 k).foldl _ nv = nv' at hset
      by_cases hl : leftOf m (2+k) = 0
      · rw [if_neg (not_not.mpr hl),hset i hi hN]
        by_cases he : i = 2+k
        · rw [if_neg (by omega),if_pos (by omega),he,evalNode_input nv (by omega) (by omega) hl]
        · exact if_congr (by omega) rfl rfl
      · rw [if_pos hl]
        by_cases he : i = 2+k
        · subst he
          obtain ⟨hvl,hvr,hltl,hltr⟩ := leftOf_children hm hl
          have hbit : ∀ l : ℤ, m.Valid l → l.natAbs < 2+k → bit nv' l = m.evalLit nv l := by
            intro l hv hlt
            have := Int.natAbs_pos.mpr hv.1
            rw [bit_eq_xor,Aig.evalLit,hset l.natAbs (by omega) hv.2,if_pos (by omega)]
          rw [Function.update_self,if_pos (by omega),evalNode_gate hm nv hl,hbit _ hvl hltl,
            hbit _ hvr hltr]
        · rw [Function.update_of_ne he,hset i hi hN]
          exact if_congr (by omega) rfl rfl
  intro i hi hN
  have := hprefix (m.nodes.size-1) (by omega) i hi hN
  rw [if_pos (by omega)] at this
  exact this

theorem setGates_bit (hm : m.Wf) {nv : ℕ → Bool} (h1 : nv 1 = true) {l : ℤ} (hl : m.Valid l) :
    bit (setGates (leftOf m) (rightOf m) m.nodes.size nv) l = m.evalLit nv l := by
  have hpos := Int.natAbs_pos.mpr hl.1
  rw [bit_eq_xor,Aig.evalLit,setGates_eval hm h1 _ hpos hl.2]

theorem setGates_valuation (hm : m.Wf) {nv : ℕ → Bool} (h1 : nv 1 = true) :
    Valuation m (setGates (leftOf m) (rightOf m) m.nodes.size nv) := by
  refine ⟨?_,fun id h2 hN hand => ?_⟩
  · rw [setGates_eval hm h1 1 (le_refl 1) hm.size_pos,evalNode_le_one m nv (le_refl 1)]
  · have hle : leftOf m id = (m.childrenOf id).1 := by rw [leftOf,if_pos ⟨h2,hand⟩]
    have hre : rightOf m id = (m.childrenOf id).2 := by rw [rightOf,if_pos ⟨h2,hand⟩]
    have hne : leftOf m id ≠ 0 := by
      rw [hle]
      exact (Aig.isAndId_iff.mp hand).2.2
    obtain ⟨hvl,hvr,_⟩ := leftOf_children hm hne
    rw [← hle,← hre,setGates_bit hm h1 hvl,setGates_bit hm h1 hvr,
      setGates_eval hm h1 id (by omega) hN,evalNode_gate hm nv hne]

theorem setInputs_of_notMem (f : ℕ → Bool) (ids : List ℕ) (k : ℕ) (nv : ℕ → Bool) {i : ℕ}
    (hi : i ∉ ids) : setInputs f k ids nv i = nv i := by
  induction ids generalizing k nv with
  | nil => rfl
  | cons id ids ih =>
    simp only [List.mem_cons,not_or] at hi
    rw [setInputs,ih _ _ hi.2,Function.update_of_ne hi.1]

theorem setInputs_of_mem (f : ℕ → Bool) (ids : List ℕ) (k : ℕ) (nv : ℕ → Bool) (hnd : ids.Nodup)
    {i : ℕ} (hi : i ∈ ids) : setInputs f k ids nv i = f (k+ids.idxOf i) := by
  induction ids generalizing k nv with
  | nil => simp at hi
  | cons id ids ih =>
    obtain ⟨hnot,hnd⟩ := List.nodup_cons.mp hnd
    rw [setInputs]
    by_cases he : i = id
    · subst he
      rw [setInputs_of_notMem f ids _ _ hnot,Function.update_self]
      simp
    · rw [ih _ _ hnd ((List.mem_cons.mp hi).resolve_left he),List.idxOf_cons_ne ids (Ne.symm he)]
      congr 1
      omega

theorem model_spec (hm : m.Wf) (hv : ∀ a ∈ asserts, m.Valid a) (h : ConeDone m asserts c) {s : Sim}
    (hs : Based m asserts c s) (hk : Kept m asserts c s) :
    ∃ nv, model s = some nv ∧ Valuation m nv ∧ ∀ a ∈ asserts, bit nv a = true := by
  obtain ⟨hhit,hexh,hgood⟩ := hk
  have hnodup : (ofCone m asserts c).inputs.Nodup := (ofCone_sorted m asserts c).1.imp fun h => h.ne
  have hnot1 : 1 ∉ (ofCone m asserts c).inputs := fun h1 => by
    have := (h.mem 1 ((h.mem_inputs 1).mp h1).1).1
    omega
  generalize hnv : setInputs (hitBit s) 0 (ofCone m asserts c).inputs (fun id => decide (id = 1)) = nv
  have h1 : nv 1 = true := by
    rw [← hnv,setInputs_of_notMem _ _ _ _ hnot1]
    rfl
  have hbit : ∀ a ∈ asserts, bit (setGates (leftOf m) (rightOf m) m.nodes.size nv) a = true := by
    intro a ha
    rw [setGates_bit hm h1 (hv a ha),← hgood a ha]
    apply h.evalLit_congr hm _ ha
    intro i hi
    rw [← hnv,setInputs_of_mem _ _ _ _ hnodup hi,hitBit,if_pos hexh,inputAt,Nat.zero_add]
  refine ⟨_,?_,setGates_valuation hm h1,hbit⟩
  have hL : s.L = leftOf m := congrArg Sim.L hs
  have hR : s.R = rightOf m := congrArg Sim.R hs
  have hN : s.N = m.nodes.size := congrArg Sim.N hs
  have hi : s.inputs = (ofCone m asserts c).inputs := by rw [hs]
  have ha : s.asserts = asserts := congrArg Sim.asserts hs
  rw [model,if_pos hhit,hL,hR,hN,hi,ha,hnv]
  exact if_pos (List.all_eq_true.mpr hbit)

theorem groupOf_subset (asserts : List ℤ) (ag : List ℕ) (g : ℕ) :
    ∀ a ∈ groupOf asserts ag g, a ∈ asserts := by
  intro a ha
  simp only [groupOf,List.mem_map,List.mem_filter] at ha
  obtain ⟨x,⟨hx,_⟩,rfl⟩ := ha
  exact (List.of_mem_zip hx).1

/-- The groups keep TRUE, and one without an assignment leaves none for all assertions. -/
theorem sweepGroups_spec (hm : m.Wf) (hsize : m.nodes.size ≤ 0x3FFFFFF0)
    (hv : ∀ a ∈ asserts, m.Valid a) (ag : List ℕ) (seed : BitVec 64) (gs : List ℕ) :
    ∀ nv work, nv 1 = true → (sweepGroups m asserts ag seed gs nv work).2.1 1 = true ∧
      ((sweepGroups m asserts ag seed gs nv work).1 = .unsat → ¬Satisfiable m asserts) := by
  induction gs with
  | nil =>
    intro nv work h1
    exact ⟨h1,fun h => by simp [sweepGroups] at h⟩
  | cons g gs ih =>
    intro nv work h1
    have hsub := groupOf_subset asserts ag g
    have hvg : ∀ a ∈ groupOf asserts ag g, m.Valid a := fun a ha => hv a (hsub a ha)
    obtain ⟨c,hnew,hc⟩ := new_spec hm hsize hvg
    rw [sweepGroups,hnew]
    dsimp only
    by_cases hn : c.nInputs ≤ 32
    · rcases exhaustive_spec hm hvg hc hn (groupSeed seed g) with ⟨s,he,hs,_⟩ | ⟨he,hnone⟩
      · rw [he]
        apply ih
        have hi : s.inputs = (ofCone m (groupOf asserts ag g) c).inputs := by rw [hs]
        have hnot : 1 ∉ s.inputs := fun h => by
          rw [hi] at h
          have := (hc.mem 1 ((hc.mem_inputs 1).mp h).1).1
          omega
        split_ifs
        · rw [setInputs_of_notMem _ _ _ _ hnot]
          exact h1
        · exact h1
      · rw [he]
        refine ⟨h1,fun _ ⟨ρ,hρ⟩ => hnone ⟨ρ,fun a ha => hρ a (hsub a ha)⟩⟩
    · have he : (exhaustive (ofCone m (groupOf asserts ag g) c) (fun _ => false)
          (groupSeed seed g)).1 = .undecided := by
        have hlt : (ofCone m (groupOf asserts ag g) c).nInputs > 32 := not_le.mp hn
        rw [exhaustive,if_pos hlt]
      rw [he]
      exact ⟨h1,fun h => by simp at h⟩

/-- A split sweep's answer: a valuation of all assertions, or none has one. -/
def SplitResult.Right (m : Aig) (asserts : List ℤ) (r : SplitResult) : Prop :=
  (r.verdict = .unsat → ¬Satisfiable m asserts) ∧
  (r.verdict = .sat → Satisfiable m asserts ∧
    ∃ nv, r.nv = some nv ∧ Valuation m nv ∧ ∀ a ∈ asserts, bit nv a = true)

theorem undecided_right (m : Aig) (asserts : List ℤ) (work : ℕ) :
    (SplitResult.undecided work).Right m asserts :=
  ⟨fun h => by simp [SplitResult.undecided] at h,fun h => by simp [SplitResult.undecided] at h⟩

theorem sweepAll_right (hm : m.Wf) (hsize : m.nodes.size ≤ 0x3FFFFFF0)
    (hv : ∀ a ∈ asserts, m.Valid a) (g : Groups) (seed : BitVec 64) :
    (sweepAll m asserts g seed).Right m asserts := by
  obtain ⟨h1,hunsat⟩ := sweepGroups_spec hm hsize hv g.ag seed (List.range g.ng)
    (fun id => decide (id = 1)) 0 (by decide)
  rw [sweepAll]
  dsimp only
  generalize sweepGroups m asserts g.ag seed (List.range g.ng) (fun id => decide (id = 1)) 0 = swept
    at h1 hunsat
  split
  · split_ifs with hall
    · refine ⟨fun h => by simp at h,fun _ => ?_⟩
      have hbit := List.all_eq_true.mp hall
      refine ⟨⟨swept.2.1,fun a ha => ?_⟩,_,rfl,setGates_valuation hm h1,hbit⟩
      · exact (setGates_bit hm h1 (hv a ha)).symm.trans (hbit a ha)
    · exact undecided_right m asserts _
  · rename_i hne
    exact ⟨hunsat,fun h => absurd h hne⟩

theorem splitExhaustive_right (hm : m.Wf) (hv : ∀ a ∈ asserts, m.Valid a) {maxWork : ℕ}
    {seed : BitVec 64} {r : SplitResult} (h : splitExhaustive m asserts maxWork seed = some r) :
    r.Right m asserts := by
  have hundecided : ∀ work, SplitResult.undecided work = r → r.Right m asserts :=
    fun work he => he ▸ undecided_right m asserts work
  rw [splitExhaustive] at h
  split_ifs at h with hguard
  · exact hundecided 0 (Option.some.inj h)
  · split at h
    · exact hundecided 0 (Option.some.inj h)
    · split at h
      · rw [sweepUnion] at h
        obtain ⟨g,_,h⟩ := Option.bind_eq_some_iff.mp h
        split_ifs at h with hng
        · exact hundecided 0 (Option.some.inj h)
        · obtain ⟨x,_,h⟩ := Option.map_eq_some_iff.mp h
          dsimp only at h
          split_ifs at h with hwork
          · exact h ▸ sweepAll_right hm (by omega) hv x.1 seed
          · exact hundecided 0 h
      · exact absurd h (by simp)

theorem ConeDone.nInputs_eq (h : ConeDone m asserts c) :
    (ofCone m asserts c).nInputs = Set.ncard {i | InCone m asserts i ∧ leftOf m i = 0} := by
  have hset : {i | InCone m asserts i ∧ leftOf m i = 0} =
      ((c.marked.filter fun i => leftOf m i = 0 : Finset ℕ) : Set ℕ) := by
    ext i
    simp [h.mem_iff]
  rw [hset,Set.ncard_coe_finset]
  exact h.inputs

/-- A graph that is not too large has a simulator; with at most 32 inputs in the cone, the
exhaustive sweep finds whether the assertions can hold, and a valuation when they can. What the
split sweep answers is right for all assertions together. -/
theorem simulation_decides (hm : m.Wf) (hv : ∀ a ∈ asserts, m.Valid a) (seed : BitVec 64) :
    (m.nodes.size ≤ 0x3FFFFFF0 → ∃ s, new m asserts = some s) ∧
    (∀ s, new m asserts = some s → s.nInputs = Set.ncard {i | InCone m asserts i ∧ leftOf m i = 0} ∧
      (s.nInputs ≤ 32 → ((exhaustive s (fun _ => false) seed).1 = .unsat ↔ ¬Satisfiable m asserts) ∧
        (Satisfiable m asserts → (exhaustive s (fun _ => false) seed).1 = .sat ∧
          ∃ nv, model (exhaustive s (fun _ => false) seed).2 = some nv ∧ Valuation m nv ∧
            ∀ a ∈ asserts, bit nv a = true))) ∧
    (∀ maxWork r, splitExhaustive m asserts maxWork seed = some r → r.Right m asserts) := by
  refine ⟨fun hsize => ?_,fun s hnew => ?_,fun maxWork r hr => splitExhaustive_right hm hv hr⟩
  · obtain ⟨c,hc,_⟩ := new_spec hm hsize hv
    exact ⟨_,hc⟩
  · have hsize : m.nodes.size ≤ 0x3FFFFFF0 := by
      by_contra hlarge
      rw [new,if_pos (by omega)] at hnew
      exact absurd hnew (by simp)
    obtain ⟨c,hc,h⟩ := new_spec hm hsize hv
    obtain rfl : ofCone m asserts c = s := Option.some.inj (hc.symm.trans hnew)
    refine ⟨h.nInputs_eq,fun hn => ?_⟩
    rcases exhaustive_spec hm hv h hn seed with ⟨s,he,hs,hk⟩ | ⟨he,hnone⟩
    · obtain ⟨nv,hmodel,hval,hbit⟩ := model_spec hm hv h hs hk
      rw [he]
      refine ⟨⟨fun h => by simp at h,fun hnot => ?_⟩,fun _ => ⟨rfl,nv,hmodel,hval,hbit⟩⟩
      exact absurd ⟨_,hk.2.2⟩ hnot
    · exact ⟨⟨fun _ => hnone,fun _ => he⟩,fun hsat => absurd hsat hnone⟩

end Decide

/-- Two inputs whose AND is asserted, and one of them denied. -/
theorem simulation_decides_and :
    let m := ((Aig.Call.mkAnd 2 3).run
      (Aig.Call.mkInput.run (Aig.Call.mkInput.run Aig.new).2).2).2
    (new m [4,-3]).map (fun s => (exhaustive s (fun _ => false) 1#64).1) = some .unsat ∧
      ¬Satisfiable m [4,-3] := by
  intro m
  have hrun : (new m [4,-3]).map (fun s => (exhaustive s (fun _ => false) 1#64).1) =
      some .unsat := by decide +kernel
  have hm : m.Wf := (((Aig.Reachable.new.call .mkInput (by decide)).call .mkInput
    (by decide)).call (.mkAnd 2 3) (by decide)).wf
  have hv : ∀ a ∈ [(4 : ℤ),-3], m.Valid a := by decide +kernel
  obtain ⟨s,hs,he⟩ := Option.map_eq_some_iff.mp hrun
  have hn : (new m [4,-3]).map Sim.nInputs = some 2 := by decide +kernel
  rw [hs] at hn
  have hle : s.nInputs ≤ 32 := by
    rw [Option.some.inj hn]
    decide
  exact ⟨hrun,(((simulation_decides hm hv 1#64).2.1 s hs).2 hle).1.mp he⟩

end Aigsim
end DvSolve
