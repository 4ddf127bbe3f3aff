import DvSolve.AigsimSem
import DvSolve.SetBits

/-! The sweep goes through every assignment of the inputs of the cone, once. -/
namespace DvSolve
namespace Aigsim

open SetBits

variable {b : ℕ} {val : ℕ → Words} {s : Sim} {ok : Words}

def inputAt (inputs : List ℕ) (idx : ℕ) : ℕ → Bool := fun id => idx.testBit (inputs.idxOf id)

/-- The number of the assignment that lane `lane` has in pass `b`. -/
def indexOf (b lane : ℕ) : ℕ := lane ||| b <<< inPass

theorem indexOf_testBit {lane : ℕ} (hlane : lane < lanes) (k : ℕ) :
    (indexOf b lane).testBit k = if k < inPass then lane.testBit k else b.testBit (k-inPass) := by
  rw [indexOf,Nat.testBit_or,Nat.testBit_shiftLeft]
  split_ifs with h
  · have : ¬inPass ≤ k := by omega
    simp [this]
  · have hle : inPass ≤ k := by omega
    have hlow : lane.testBit k = false := by
      apply Nat.testBit_lt_two_pow
      exact lt_of_lt_of_le hlane (Nat.pow_le_pow_right (n := 2) (by decide) hle)
    simp [hlow,hle]

theorem lanePat_bit : ∀ k < 6, ∀ j < 64, (lanePat k).getLsbD j = j.testBit k := by decide

theorem allOnes_if_lane {p : Prop} [Decidable p] (lane : ℕ) :
    ((if p then BitVec.allOnes 64 else 0#64).getLsbD (lane % 64)) = decide p := by
  have hlt : lane % 64 < 64 := Nat.mod_lt _ (by decide)
  split_ifs with h
  · rw [BitVec.getLsbD_allOnes]
    simp [h,hlt]
  · simp [h]

/-- What the passes of a sweep find in the slots of TRUE and of the first inputs. -/
structure LanesSet (n : ℕ) (val : ℕ → Words) : Prop where
  true_slot : ∀ lane, laneBit val 0 lane = true
  inputs : ∀ slot, 1 ≤ slot → slot ≤ min n inPass → ∀ lane < lanes,
    laneBit val slot lane = lane.testBit (slot-1)

theorem laneInputs_set {n : ℕ} (h : ∀ lane, laneBit val 0 lane = true) :
    LanesSet n (laneInputs n val) := by
  refine ⟨fun lane => ?_,fun slot h1 hle lane hlane => ?_⟩
  · rw [laneBit,laneInputs,if_neg (by omega)]
    exact h lane
  · have hlt : lane % 64 < 64 := Nat.mod_lt _ (by decide)
    rw [laneBit,laneInputs,if_pos ⟨h1,hle⟩]
    split_ifs with h6 hb
    · have hmod := Nat.testBit_mod_two_pow lane 6 (slot-1)
      rw [lanePat_bit _ h6 _ hlt]
      simpa [h6] using hmod
    · have hdiv := Nat.testBit_div_two_pow lane (i := slot-1-6) (n := 6)
      have he : slot-1-6+6 = slot-1 := by omega
      rw [he] at hdiv
      rw [BitVec.getLsbD_allOnes,← hdiv]
      simpa [hlt] using hb
    · have hdiv := Nat.testBit_div_two_pow lane (i := slot-1-6) (n := 6)
      have he : slot-1-6+6 = slot-1 := by omega
      rw [he] at hdiv
      rw [← hdiv]
      simpa using hb

theorem passInputs_set {n : ℕ} (b : ℕ) (h : LanesSet n val) :
    LanesSet n (passInputs n b val) := by
  refine ⟨fun lane => ?_,fun slot h1 hle lane hlane => ?_⟩
  · rw [laneBit,passInputs,if_neg (by omega)]
    exact h.true_slot lane
  · rw [laneBit,passInputs,if_neg (by omega)]
    exact h.inputs slot h1 hle lane hlane

theorem passInputs_lane {n : ℕ} {k lane : ℕ} (h : LanesSet n val) (hk : k < n)
    (hlane : lane < lanes) :
    laneBit (passInputs n b val) (1+k) lane = (indexOf b lane).testBit k := by
  rw [indexOf_testBit hlane]
  split_ifs with hlow
  · have hle : 1+k ≤ min n inPass := by omega
    have := (passInputs_set b h).inputs (1+k) (by omega) hle lane hlane
    rw [this]
    congr 1
    omega
  · have he : 1+k-1-inPass = k-inPass := by omega
    rw [laneBit,passInputs,if_pos (by omega),allOnes_if_lane,he]
    simp

def Based (m : Aig) (asserts : List ℤ) (c : Cone) (s : Sim) : Prop :=
  s = { ofCone m asserts c with
    val := s.val, hitLane := s.hitLane, hasHit := s.hasHit, hitExh := s.hitExh
    hitIndex := s.hitIndex, vectors := s.vectors }

theorem Based.refl (m : Aig) (asserts : List ℤ) (c : Cone) :
    Based m asserts c (ofCone m asserts c) := rfl

theorem Based.update {m : Aig} {asserts : List ℤ} {c : Cone} (h : Based m asserts c s)
    (val : ℕ → Words) (hitLane : ℕ) (hasHit hitExh : Bool) (hitIndex vectors : ℕ) :
    Based m asserts c { s with
      val := val, hitLane := hitLane, hasHit := hasHit, hitExh := hitExh
      hitIndex := hitIndex, vectors := vectors } := by
  rw [h]
  rfl

/-- The assertions hold under the assignment with number `idx`. -/
def Good (m : Aig) (asserts : List ℤ) (c : Cone) (idx : ℕ) : Prop :=
  ∀ a ∈ asserts, m.evalLit (inputAt (ofCone m asserts c).inputs idx) a = true

theorem foldl_and_bit (f : ℕ → BitVec 64) (as : List ℕ) (x : BitVec 64) (j : ℕ) :
    (as.foldl (fun ok a => ok &&& f a) x).getLsbD j =
      (x.getLsbD j && as.all fun a => (f a).getLsbD j) := by
  induction as generalizing x with
  | nil => simp
  | cons a as ih =>
    rw [List.foldl_cons,ih,BitVec.getLsbD_and,List.all_cons,Bool.and_assoc]

section Pass

variable {m : Aig} {asserts : List ℤ} {c : Cone}

theorem runGates_low (slot : ℕ) : ∀ (gs : List (ℕ × ℕ)) (dst : ℕ) (val : ℕ → Words), slot < dst →
    runGates dst gs val slot = val slot := by
  intro gs
  induction gs with
  | nil => intros; rfl
  | cons g gs ih =>
    intro dst val h
    rw [runGates,ih (dst+1) _ (by omega),Function.update_of_ne (by omega)]

theorem LanesSet.runGates {n : ℕ} (h : LanesSet n val) (gs : List (ℕ × ℕ)) :
    LanesSet n (runGates (1+n) gs val) := by
  refine ⟨fun lane => ?_,fun slot h1 hle lane hlane => ?_⟩
  · rw [laneBit,runGates_low 0 gs (1+n) val (by omega)]
    exact h.true_slot lane
  · rw [laneBit,runGates_low slot gs (1+n) val (by omega)]
    exact h.inputs slot h1 hle lane hlane

theorem pass_lane (hm : m.Wf) (hv : ∀ a ∈ asserts, m.Valid a) (h : ConeDone m asserts c)
    (hs : Based m asserts c s) {lane : ℕ} (hset : LanesSet c.nInputs val)
    (hval : s.val = passInputs c.nInputs b val) (hlane : lane < lanes) :
    ((pass s).1 (lane/64)).getLsbD (lane % 64) = true ↔ Good m asserts c (indexOf b lane) := by
  have hbase : LanesOk m (slotIn m asserts c)
      (fun lane => inputAt (ofCone m asserts c).inputs (indexOf b lane)) s.val
      (fun id => id = 1 ∨ id ∈ (ofCone m asserts c).inputs ∨ id ∈ []) := by
    intro id hid lane hlane
    rcases hid with rfl | hid | hid
    · rw [h.slotIn_true (le_refl 1),hval,(passInputs_set b hset).true_slot,Aig.evalNode,
        if_pos (le_refl 1)]
    · obtain ⟨hmarked,hleft⟩ := (h.mem_inputs id).mp hid
      obtain ⟨h2,hN,_⟩ := h.mem id hmarked
      have hidx := List.idxOf_lt_length_of_mem hid
      rw [h.inputs_length] at hidx
      rw [slotIn_input hid,hval,passInputs_lane hset hidx hlane,evalNode_input _ h2 hN hleft]
      rfl
    · simp at hid
  have hall := runGates_ok hm h (ofCone m asserts c).gateId [] rfl s.val hbase
  have hlt : lane % 64 < 64 := Nat.mod_lt _ (by decide)
  have hmem : ∀ a ∈ asserts, a.natAbs = 1 ∨ a.natAbs ∈ (ofCone m asserts c).inputs ∨
      a.natAbs ∈ (ofCone m asserts c).gateId := by
    intro a ha
    have hva := (hv a ha).1
    rcases Nat.lt_or_ge 1 a.natAbs with h1 | h1
    · have hin := h.asserts a ha h1
      by_cases hl : leftOf m a.natAbs = 0
      · exact Or.inr (Or.inl ((h.mem_inputs _).mpr ⟨hin,hl⟩))
      · exact Or.inr (Or.inr ((h.mem_gates _).mpr ⟨hin,hl⟩))
    · exact Or.inl (by omega)
  have hpass : (pass s).1 (lane/64) = (asserts.map (pack (slotIn m asserts c))).foldl
      (fun ok a => ok &&& operand (runGates (1+c.nInputs+([] : List ℕ).length)
        ((ofCone m asserts c).gateId.map fun id =>
          (pack (slotIn m asserts c) (leftOf m id),pack (slotIn m asserts c) (rightOf m id)))
        s.val) a (lane/64)) (BitVec.allOnes 64) := by
    rw [pass,hs]
    rfl
  rw [hpass,foldl_and_bit,BitVec.getLsbD_allOnes,Good]
  simp only [hlt,decide_true,Bool.true_and,List.all_map,List.all_eq_true,Function.comp]
  apply forall₂_congr
  intro a ha
  rw [hall.lit (hmem a ha) hlane]

theorem pass_state (hs : Based m asserts c s) (hset : LanesSet c.nInputs val)
    (hval : s.val = passInputs c.nInputs b val) :
    Based m asserts c (pass s).2 ∧ LanesSet c.nInputs (pass s).2.val := by
  refine ⟨hs.update _ _ _ _ _ _,?_⟩
  have hn : s.nInputs = c.nInputs := congrArg Sim.nInputs hs
  rw [pass]
  rw [hn,hval]
  exact (passInputs_set b hset).runGates _

end Pass

def LaneSet (ok : Words) (lane : ℕ) : Prop := (ok (lane/64)).getLsbD (lane % 64) = true

theorem laneSet_of_bit {w j : ℕ} (hj : (ok w).getLsbD j = true) :
    LaneSet ok (w*64+j) := by
  have hlt : j < 64 := BitVec.lt_of_getLsbD hj
  have hdiv : (w*64+j)/64 = w := by omega
  have hmod : (w*64+j) % 64 = j := by omega
  rw [LaneSet,hdiv,hmod]
  exact hj

theorem anyLane_iff (ok : Words) : anyLane ok = true ↔ ∃ lane < lanes, LaneSet ok lane := by
  simp only [anyLane,List.any_eq_true,List.mem_range,bne_iff_ne,ne_zero_iff]
  constructor
  · rintro ⟨w,hw,j,hj⟩
    have hlt : j < 64 := BitVec.lt_of_getLsbD hj
    have hwords : words = 8 := rfl
    have hlanes : lanes = 512 := rfl
    exact ⟨w*64+j,by omega,laneSet_of_bit hj⟩
  · rintro ⟨lane,hlane,h⟩
    have hwords : words = 8 := rfl
    have hlanes : lanes = 512 := rfl
    exact ⟨lane/64,by omega,lane % 64,h⟩

theorem ctz_lane {w : ℕ} {x : BitVec 64} (hx : x ≠ 0#64) (hsub : setBits x ⊆ setBits (ok w)) :
    LaneSet ok (w*64+x.ctz.toNat) := by
  apply laneSet_of_bit
  exact mem_setBits.mp (hsub (mem_setBits.mpr (BitVec.getLsbD_true_ctz_of_ne_zero hx)))

theorem recordHit_lane (s : Sim) (h : anyLane ok = true) :
    ∃ lane < lanes, LaneSet ok lane ∧ recordHit s ok = { s with hitLane := lane, hasHit := true } := by
  obtain ⟨w,hw,hne⟩ := List.any_eq_true.mp h
  cases hfind : (List.range words).find? fun w => ok w != 0#64 with
  | none => exact absurd hne (List.find?_eq_none.mp hfind w hw)
  | some w =>
    have hne : ok w ≠ 0#64 := by simpa using List.find?_some hfind
    have hw : w < words := List.mem_range.mp (List.mem_of_find?_eq_some hfind)
    have hwords : words = 8 := rfl
    have hlanes : lanes = 512 := rfl
    have hctz : (ok w).ctz.toNat < 64 :=
      BitVec.lt_of_getLsbD (BitVec.getLsbD_true_ctz_of_ne_zero hne)
    refine ⟨w*64+(ok w).ctz.toNat,by omega,ctz_lane hne subset_rfl,?_⟩
    rw [recordHit,hfind]

theorem clearLowest_bits {r : ℕ} {x : BitVec 64} (hr : r < (setBits x).card) :
    clearLowest r x ≠ 0#64 ∧ setBits (clearLowest r x) ⊆ setBits x := by
  induction r generalizing x with
  | zero =>
    refine ⟨fun h => ?_,subset_rfl⟩
    rw [show x = 0#64 from h,setBits_eq_empty.mpr rfl] at hr
    simp at hr
  | succ r ih =>
    have hx : x ≠ 0#64 := fun h => by
      rw [setBits_eq_empty.mpr h] at hr
      simp at hr
    obtain ⟨t,ht,herase⟩ := exists_lowest hx
    have hcard := Finset.card_erase_add_one ht
    obtain ⟨h1,h2⟩ := ih (x := x &&& (x-1#64)) (by rw [herase]; omega)
    exact ⟨h1,h2.trans (herase ▸ Finset.erase_subset _ _)⟩

theorem pickLane_lane (ok : Words) (ws : List ℕ) :
    ∀ r, r < (ws.map fun w => (ok w).cpop.toNat).sum →
      ∃ w ∈ ws, ∃ j < 64, LaneSet ok (w*64+j) ∧ pickLane ok ws r = some (w*64+j) := by
  induction ws with
  | nil => simp
  | cons w ws ih =>
    intro r hr
    rw [List.map_cons,List.sum_cons] at hr
    rw [pickLane]
    split_ifs with hk
    · obtain ⟨w',hw',j,hj,hset,he⟩ := ih (r-(ok w).cpop.toNat) (by omega)
      exact ⟨w',List.mem_cons_of_mem w hw',j,hj,hset,he⟩
    · rw [cpop_eq_card] at hk
      obtain ⟨hne,hsub⟩ := clearLowest_bits (not_le.mp hk)
      have hlt : (clearLowest r (ok w)).ctz.toNat < 64 :=
        BitVec.lt_of_getLsbD (BitVec.getLsbD_true_ctz_of_ne_zero hne)
      exact ⟨w,by simp,_,hlt,ctz_lane hne hsub,rfl⟩

theorem hitCount_pos (h : anyLane ok = true) : 0 < hitCount ok := by
  obtain ⟨w,hw,hne⟩ := List.any_eq_true.mp h
  have hx : ok w ≠ 0#64 := by simpa using hne
  have hcard : 0 < (ok w).cpop.toNat := by
    rw [cpop_eq_card,Finset.card_pos,Finset.nonempty_iff_ne_empty]
    exact fun he => hx (setBits_eq_empty.mp he)
  have hle := List.single_le_sum (l := (List.range words).map fun w => (ok w).cpop.toNat)
    (fun _ _ => Nat.zero_le _) _ (List.mem_map_of_mem hw)
  exact lt_of_lt_of_le hcard hle

section Sweep

variable {m : Aig} {asserts : List ℤ} {c : Cone}

def Kept (m : Aig) (asserts : List ℤ) (c : Cone) (s : Sim) : Prop :=
  s.hasHit = true ∧ s.hitExh = true ∧ Good m asserts c s.hitIndex

/-- What a pass with hits leaves: either the sweep ends with a recorded assignment, or the
hits are counted and one assignment is kept. -/
theorem keepHit_kept {seed st : BitVec 64} {seen : ℕ} (hs : Based m asserts c s)
    (hany : anyLane ok = true)
    (hok : ∀ lane < lanes, LaneSet ok lane → Good m asserts c (indexOf b lane))
    (hseen : seen ≠ 0 → Kept m asserts c s) :
    (∃ s' r, keepHit seed b ok s st seen = (some s',r) ∧ Based m asserts c s' ∧ Kept m asserts c s') ∨
    (∃ s' st' seen', keepHit seed b ok s st seen = (none,s',st',seen') ∧ seed ≠ 0#64 ∧
      seen' ≠ 0 ∧ Based m asserts c s' ∧ s'.val = s.val ∧ Kept m asserts c s') := by
  unfold keepHit
  split_ifs with hseed
  · obtain ⟨lane,hlane,hset,he⟩ := recordHit_lane s hany
    left
    refine ⟨_,_,rfl,?_,?_⟩
    · rw [he]
      exact hs.update _ _ _ _ _ _
    · refine ⟨?_,rfl,?_⟩
      · rw [he]
      · rw [he]
        exact hok lane hlane hset
  · right
    have hpos := hitCount_pos hany
    dsimp only
    split_ifs with hr
    · have hmod : (rng st).2.toNat % (seen+hitCount ok) < seen+hitCount ok := Nat.mod_lt _ (by omega)
      exact ⟨s,_,_,rfl,hseed,by omega,hs,rfl,hseen (by omega)⟩
    · obtain ⟨w,hw,j,hj,hset,he⟩ := pickLane_lane ok (List.range words) _ (not_le.mp hr)
      have hw' : w < words := List.mem_range.mp hw
      have hwords : words = 8 := rfl
      have hlanes : lanes = 512 := rfl
      rw [he]
      refine ⟨_,_,_,rfl,hseed,by omega,?_,rfl,rfl,rfl,hok (w*64+j) (by omega) hset⟩
      exact hs.update _ _ _ _ _ _

theorem laneMask_lane {live : ℕ} (lane : ℕ) :
    LaneSet (laneMask live) lane ↔ lane < live := by
  have hlt : lane % 64 < 64 := Nat.mod_lt _ (by decide)
  rw [LaneSet,laneMask]
  split_ifs with h1 h2
  · rw [BitVec.getLsbD_allOnes]
    simp only [hlt,decide_true,true_iff]
    omega
  · rw [getLsbD_ones (by omega)]
    simp only [decide_eq_true_eq]
    omega
  · simp only [BitVec.getLsbD_zero,Bool.false_eq_true,false_iff]
    omega

/-- The passes from `b` on: a kept assignment is good, and without one there is none. -/
theorem sweep_decides (hm : m.Wf) (hv : ∀ a ∈ asserts, m.Valid a) (h : ConeDone m asserts c)
    {seed : BitVec 64} {live : ℕ} (hlive : live ≤ lanes) (left : ℕ) :
    ∀ (b : ℕ) (s : Sim) (st : BitVec 64) (seen : ℕ), Based m asserts c s →
      LanesSet c.nInputs s.val → (seen ≠ 0 → Kept m asserts c s) →
      (seen = 0 → ∀ b' < b, ∀ lane < live, ¬Good m asserts c (indexOf b' lane)) →
    (∃ s', sweep (fun _ => false) seed live left b s st seen = (.sat,s') ∧ Based m asserts c s' ∧
      Kept m asserts c s') ∨
    ((sweep (fun _ => false) seed live left b s st seen).1 = .unsat ∧
      ∀ b' < b+left, ∀ lane < live, ¬Good m asserts c (indexOf b' lane)) := by
  induction left with
  | zero =>
    intro b s st seen hs hset hseen hnone
    by_cases h0 : seen = 0
    · exact Or.inr ⟨by simp [sweep,h0],hnone h0⟩
    · exact Or.inl ⟨s,by simp [sweep,h0],hs,hseen h0⟩
  | succ left ih =>
    intro b s st seen hs hset hseen hnone
    have hn : s.nInputs = c.nInputs := congrArg Sim.nInputs hs
    rw [sweep,if_neg (by decide)]
    generalize hin : ({ s with val := passInputs s.nInputs b s.val } : Sim) = sin
    have hsin : Based m asserts c sin := hin ▸ hs.update _ _ _ _ _ _
    have hval : sin.val = passInputs c.nInputs b s.val := by rw [← hin,hn]
    have hlane : ∀ lane < lanes, ((pass sin).1 (lane/64)).getLsbD (lane % 64) = true ↔
        Good m asserts c (indexOf b lane) := fun lane hlane => pass_lane hm hv h hsin hset hval hlane
    obtain ⟨hbase,hset'⟩ := pass_state hsin hset hval
    dsimp only
    generalize hcount : ({ (pass sin).2 with vectors := (pass sin).2.vectors+live } : Sim) = s1
    have hs1 : Based m asserts c s1 := hcount ▸ hbase.update _ _ _ _ _ _
    have hset1 : LanesSet c.nInputs s1.val := by rwa [← hcount]
    have hkept1 : seen ≠ 0 → Kept m asserts c s1 := fun h0 => by
      rw [← hcount,pass,← hin]
      exact hseen h0
    have hok : ∀ lane < lanes, LaneSet (fun w => (pass sin).1 w &&& laneMask live w) lane ↔
        Good m asserts c (indexOf b lane) ∧ lane < live := fun lane hl => by
      rw [← hlane lane hl,← laneMask_lane lane,LaneSet,LaneSet,BitVec.getLsbD_and,Bool.and_eq_true]
    split_ifs with hhit
    · have hgood := fun lane hl hs => ((hok lane hl).mp hs).1
      rcases keepHit_kept hs1 hhit.2 hgood hkept1 with
        ⟨s',r,he,hb,hk⟩ | ⟨s',st',seen',he,_,hne,hb,hv',hk⟩
      · rw [he]
        exact Or.inl ⟨s',rfl,hb,hk⟩
      · rw [he]
        have := ih (b+1) s' st' seen' hb (hv' ▸ hset1) (fun _ => hk) (fun h0 => absurd h0 hne)
        rwa [Nat.add_right_comm b 1 left] at this
    · have hnot : ∀ lane < live, ¬Good m asserts c (indexOf b lane) := by
        intro lane hl hgood
        apply hhit
        have hl' : lane < lanes := by omega
        exact ⟨(anyLane_iff _).mpr ⟨lane,hl',(hlane lane hl').mpr hgood⟩,
          (anyLane_iff _).mpr ⟨lane,hl',(hok lane hl').mpr ⟨hgood,hl⟩⟩⟩
      have := ih (b+1) s1 st seen hs1 hset1 hkept1 (fun h0 b' hb' lane hl => by
        rcases Nat.lt_succ_iff_lt_or_eq.mp hb' with hb' | rfl
        · exact hnone h0 b' hb' lane hl
        · exact hnot lane hl)
      rwa [Nat.add_right_comm b 1 left] at this

end Sweep

end Aigsim
end DvSolve
