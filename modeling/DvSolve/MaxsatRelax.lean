import DvSolve.ContradictionSem
import DvSolve.MaxsatSem

/-! The softs that the search engine keeps, and that they are those of the bit-blast solver. -/
namespace DvSolve
namespace Maxsat

open Greedy Loop Contra

variable {V : Type*} {p : Problem V} {E : Search V}
variable {A : Set ℕ} {s : Ctx V × Bool}

/-- Every search is answered, and answered exactly; propagation finds a conflict only where there
is no model. -/
structure Search.Exact (E : Search V) (p : Problem V) : Prop where
  ok_of : ∀ k value, marks value ∈ p.feasible →
    ∃ m, E.core k value = .ok m ∧ p.hard m ∧ ∀ i ∈ marks value, p.Meets m i
  unsat_of : ∀ k value, marks value ∉ p.feasible → E.core k value = .unsat
  propagate_of : ∀ k value, marks value ∈ p.feasible → E.propagate k value = true

theorem Problem.indices_ncard (p : Problem V) : p.indices.ncard = p.softs.length := by
  rw [Problem.indices,Set.ncard_eq_toFinset_card']
  simp

theorem and_bit_eq_zero (m : BitVec 64) {i : ℕ} (hi : i < 64) :
    m &&& 1#64 <<< i = 0#64 ↔ m.getLsbD i = false := by
  rw [← BitVec.twoPow_eq,BitVec.and_twoPow]
  cases m.getLsbD i with
  | false => exact iff_of_true rfl rfl
  | true =>
    refine iff_of_false (fun h => ?_) Bool.true_eq_false.mp
    have hbit := congrArg (fun b : BitVec 64 => b.getLsbD i) h
    simp [hi] at hbit

theorem getLsbD_clearBit (m : BitVec 64) {j i : ℕ} (hi : i < 64) :
    (m &&& ~~~(1#64 <<< j)).getLsbD i = true ↔ m.getLsbD i = true ∧ i ≠ j := by
  rw [← BitVec.twoPow_eq,BitVec.getLsbD_and,BitVec.getLsbD_not,BitVec.getLsbD_twoPow]
  by_cases hj : j = i
  · subst hj
    simp [hi]
  · simp [hi,hj,Ne.symm hj]

def active (p : Problem V) (m : BitVec 64) : Set ℕ := {i | i ∈ p.indices ∧ m.getLsbD i = true}

section Small

variable (hn : p.softs.length ≤ 64)
include hn

theorem active_set (m : BitVec 64) {j : ℕ} (hj : j ∈ p.indices) :
    active p (m ||| 1#64 <<< j) = insert j (active p m) := by
  have hj64 : j < 64 := lt_of_lt_of_le hj hn
  ext i
  rw [active,Set.mem_ofPred_eq,getLsbD_setBit m j i hj64,Bool.or_eq_true,decide_eq_true_eq,
    Set.mem_insert_iff,active,Set.mem_ofPred_eq]
  constructor
  · rintro ⟨hi,h | h⟩
    · exact .inr ⟨hi,h⟩
    · exact .inl h
  · rintro (rfl | ⟨hi,h⟩)
    · exact ⟨hj,.inr rfl⟩
    · exact ⟨hi,.inl h⟩

theorem active_clear (m : BitVec 64) (j : ℕ) :
    active p (m &&& ~~~(1#64 <<< j)) = active p m \ {j} := by
  ext i
  constructor
  · rintro ⟨hi,h⟩
    obtain ⟨h1,h2⟩ := (getLsbD_clearBit m (lt_of_lt_of_le hi hn)).mp h
    exact ⟨⟨hi,h1⟩,h2⟩
  · rintro ⟨⟨hi,h1⟩,h2⟩
    exact ⟨hi,(getLsbD_clearBit m (lt_of_lt_of_le hi hn)).mpr ⟨h1,h2⟩⟩

end Small

def Ctx.Of (p : Problem V) (c : Ctx V) : Prop := c.priorities = p.softs.map SoftSpec.priority

theorem Ctx.Of.nAssumptions {c : Ctx V} (h : c.Of p) : c.nAssumptions = p.softs.length := by
  rw [Ctx.nAssumptions,h,List.length_map]

theorem Ctx.Of.priority {c : Ctx V} (h : c.Of p) (i : ℕ) : c.priority i = p.pri i := by
  rw [Ctx.priority,h,Problem.pri]

structure Ctx.Pinned (p : Problem V) (A : Set ℕ) (c : Ctx V) : Prop where
  of : c.Of p
  mask : active p c.activeMask = A
  value : ∀ i ∈ p.indices, c.value i = true ↔ i ∈ A

theorem foldlM_bit {σ : Type*} (f : σ → ℕ → BitVec 64 → σ) (s : σ) {n : ℕ} (hn : n ≤ 64) :
    (List.range n).foldlM (fun s i => (bit i).map (f s i)) s =
      some ((List.range n).foldl (fun s i => f s i (1#64 <<< i)) s) := by
  induction n with
  | zero => rfl
  | succ n ih =>
    have hbit : bit n = some (1#64 <<< n) := if_pos (by omega)
    rw [List.range_succ,List.foldlM_append,List.foldl_append,ih (by omega)]
    simp only [Option.bind_eq_bind,Option.bind_some,List.foldlM_cons,List.foldlM_nil,hbit,
      Option.map_some,Option.pure_def,List.foldl_cons,List.foldl_nil]

theorem foldlM_bit_none {σ : Type*} (f : σ → ℕ → BitVec 64 → σ) (s : σ) {n : ℕ} (hn : 64 < n) :
    (List.range n).foldlM (fun s i => (bit i).map (f s i)) s = none := by
  induction n, hn using Nat.le_induction with
  | base =>
    have hbit : bit 64 = none := if_neg (by omega)
    rw [List.range_succ,List.foldlM_append,foldlM_bit f s le_rfl]
    simp only [Option.bind_eq_bind,Option.bind_some,List.foldlM_cons,hbit,Option.map_none,
      Option.bind_none]
  | succ n hn ih =>
    rw [List.range_succ,List.foldlM_append,ih]
    rfl

theorem pin_fold (mask : BitVec 64) (value : ℕ → Bool) {n : ℕ} (hn : n ≤ 64) :
    (List.range n).foldl (fun value i =>
      if mask &&& 1#64 <<< i = 0#64 then Function.update value i false else value) value =
    fun i => if i < n ∧ mask.getLsbD i = false then false else value i := by
  induction n with
  | zero => simp
  | succ n ih =>
    rw [List.range_succ,List.foldl_append,ih (by omega),List.foldl_cons,List.foldl_nil,
      if_congr (and_bit_eq_zero mask (show n < 64 by omega)) rfl rfl]
    funext i
    by_cases hm : mask.getLsbD n = false
    · rw [if_pos hm]
      by_cases hi : i = n
      · subst hi
        rw [Function.update_self,if_pos ⟨Nat.lt_succ_self i,hm⟩]
      · rw [Function.update_of_ne hi]
        exact if_congr (and_congr_left fun _ => by omega) rfl rfl
    · rw [if_neg hm]
      refine if_congr ⟨fun h => ⟨by omega,h.2⟩,fun h => ⟨?_,h.2⟩⟩ rfl rfl
      have hne : i ≠ n := fun he => hm (he ▸ h.2)
      omega

theorem pinInactive_pinned (hn : p.softs.length ≤ 64) {c : Ctx V} (h : c.Of p) :
    ∃ c', pinInactive (reset c) = some c' ∧ c'.Pinned p (active p c.activeMask) := by
  have hlen : (reset c).nAssumptions = p.softs.length := h.nAssumptions
  have hpin : pinInactive (reset c) = some ((reset c).setValue fun i =>
      if i < p.softs.length ∧ c.activeMask.getLsbD i = false then false else true) := by
    rw [pinInactive,hlen,foldlM_bit (fun value i b =>
      if (reset c).activeMask &&& b = 0#64 then Function.update value i false else value) _ hn,
      pin_fold _ _ hn]
    rfl
  refine ⟨_,hpin,h,rfl,fun i hi => ?_⟩
  rw [Ctx.setValue_value]
  by_cases hm : c.activeMask.getLsbD i = true
  · rw [if_neg fun h => absurd (hm.symm.trans h.2) (by decide)]
    exact iff_of_true rfl ⟨hi,hm⟩
  · rw [if_pos ⟨hi,Bool.eq_false_iff.mpr hm⟩]
    exact iff_of_false (by decide) fun h => hm h.2

theorem Ctx.Pinned.feasible {c : Ctx V} (h : c.Pinned p A) (hA : A ⊆ p.indices) :
    marks c.value ∈ p.feasible ↔ A ∈ p.feasible := by
  refine exists_congr fun m => and_congr_right fun _ => ⟨fun hm i hi => ?_,fun hm i hi => ?_⟩
  · exact hm i ((h.value i (hA hi)).mpr hi)
  · by_cases hin : i ∈ p.indices
    · exact hm i ((h.value i hin).mp hi)
    · exact p.meets_outside hin

structure Ctx.Solved (p : Problem V) (A : Set ℕ) (c : Ctx V) : Prop where
  pinned : c.Pinned p A
  found : ∃ m, c.found = some m ∧ p.hard m ∧ ∀ i ∈ A, p.Meets m i

theorem solveCore_ok (hE : E.Exact p) {c : Ctx V} (h : c.Pinned p A) (hA : A ⊆ p.indices)
    (hF : A ∈ p.feasible) :
    ∃ m c', solveCore E c = (.ok m,c') ∧ c'.Solved p A := by
  obtain ⟨m,hm,h1,h2⟩ := hE.ok_of c.calls c.value ((h.feasible hA).mpr hF)
  refine ⟨m,(solveCore E c).2,Prod.ext hm rfl,⟨h.of,h.mask,h.value⟩,m,?_,h1,fun i hi => ?_⟩
  · exact congrArg Core.model hm
  · exact h2 i ((h.value i (hA hi)).mpr hi)

theorem solveCore_unsat (hE : E.Exact p) {c : Ctx V} (h : c.Pinned p A) (hA : A ⊆ p.indices)
    (hF : A ∉ p.feasible) :
    ∃ c', solveCore E c = (.unsat,c') ∧ c'.Pinned p A := by
  have hu := hE.unsat_of c.calls c.value fun hm => hF ((h.feasible hA).mp hm)
  exact ⟨(solveCore E c).2,Prod.ext hu rfl,h.of,h.mask,h.value⟩

structure Picked (skip : ℕ → Bool) (R : ℕ → ℕ → Prop) (k : ℕ) (r : Option ℕ) : Prop where
  none : r = none → ∀ i < k, skip i = true
  some : ∀ w, r = some w → w < k ∧ skip w = false ∧ ∀ i < k, skip i = false → R w i

section Pick

variable {skip : ℕ → Bool} {wins : ℕ → ℕ → Bool} {R : ℕ → ℕ → Prop} {k : ℕ}

theorem Picked.stay {r : Option ℕ} (h : Picked skip R k r)
    (hr : ∀ w, r = .some w → skip k = false → R w k) (hnone : r = .none → skip k = true) :
    Picked skip R (k+1) r := by
  refine ⟨fun hn i hi => ?_,fun w hw => ?_⟩
  · obtain rfl | hlt : i = k ∨ i < k := by omega
    · exact hnone hn
    · exact h.none hn i hlt
  · obtain ⟨h1,h2,h3⟩ := h.some w hw
    refine ⟨by omega,h2,fun i hi hs => ?_⟩
    obtain rfl | hlt : i = k ∨ i < k := by omega
    · exact hr w hw hs
    · exact h3 i hlt hs

theorem picked_next (hk : skip k = false) (hrefl : R k k)
    (h : ∀ i < k, skip i = false → R k i) : Picked skip R (k+1) (some k) := by
  refine ⟨nofun,fun w hw => ?_⟩
  obtain rfl : k = w := Option.some.inj hw
  refine ⟨Nat.lt_succ_self k,hk,fun i hi hs => ?_⟩
  obtain rfl | hlt : i = k ∨ i < k := by omega
  · exact hrefl
  · exact h i hlt hs

theorem pick_picked (skip : ℕ → Bool) (wins : ℕ → ℕ → Bool) (R : ℕ → ℕ → Prop)
    (hrefl : ∀ a, R a a) (htrans : ∀ a b c, R a b → R b c → R a c)
    (hwins : ∀ a b, a < b → (wins b a = true → R b a) ∧ (wins b a = false → R a b)) (k : ℕ) :
    Picked skip R k ((List.range k).foldl (fun best i => pick (skip i) wins best i) none) := by
  induction k with
  | zero => exact ⟨fun _ i hi => absurd hi (Nat.not_lt_zero i),nofun⟩
  | succ k ih =>
    rw [List.range_succ,List.foldl_append,List.foldl_cons,List.foldl_nil]
    generalize (List.range k).foldl (fun best i => pick (skip i) wins best i) none = best at ih
    cases hskip : skip k with
    | true => exact ih.stay (fun w _ hs => absurd hskip (by rw [hs]; decide)) fun _ => hskip
    | false =>
      cases best with
      | none =>
        refine picked_next hskip (hrefl k) fun i hi hs => ?_
        exact absurd (ih.none rfl i hi) (by rw [hs]; decide)
      | some b =>
        obtain ⟨h1,h2,h3⟩ := ih.some b rfl
        cases hw : wins k b with
        | true =>
          rw [show pick false wins (some b) k = some k from if_pos hw]
          exact picked_next hskip (hrefl k) fun i hi hs =>
            htrans k b i ((hwins b k h1).1 hw) (h3 i hi hs)
        | false =>
          have hn : ¬ wins k b = true := Bool.eq_false_iff.mp hw
          rw [show pick false wins (some b) k = some b from if_neg hn]
          refine ih.stay (fun w he _ => ?_) nofun
          obtain rfl : b = w := Option.some.inj he
          exact (hwins b k h1).2 hw

end Pick

theorem worstIdx_spec (hn : p.softs.length ≤ 64) {c : Ctx V} (h : c.Of p) :
    ∃ r, worstIdx c = some r ∧ (r = none → active p c.activeMask = ∅) ∧
      ∀ w, r = some w → w ∈ active p c.activeMask ∧ ∀ i ∈ active p c.activeMask, p.key i ≤ p.key w := by
  have hskip : ∀ i < p.softs.length, decide (c.activeMask &&& 1#64 <<< i = 0#64) = false ↔
      c.activeMask.getLsbD i = true := by
    intro i hi
    rw [decide_eq_false_iff_not,and_bit_eq_zero _ (lt_of_lt_of_le hi hn),Bool.not_eq_false]
  have hpick := pick_picked (fun i => decide (c.activeMask &&& 1#64 <<< i = 0#64))
    (fun i w => decide (c.priority w ≤ c.priority i)) (fun a b => p.key b ≤ p.key a)
    (fun a => le_rfl) (fun a b c h1 h2 => h2.trans h1) ?_ p.softs.length
  · refine ⟨_,by rw [worstIdx,h.nAssumptions]; exact foldlM_bit _ _ hn,fun hr => ?_,fun w hw => ?_⟩
    · ext i
      refine iff_of_false (fun hi => ?_) id
      have h1 := (hskip i hi.1).mpr hi.2
      rw [hpick.none hr i hi.1] at h1
      exact absurd h1 (by decide)
    · obtain ⟨h1,h2,h3⟩ := hpick.some w hw
      exact ⟨⟨h1,(hskip w h1).mp h2⟩,fun i hi => h3 i hi.1 ((hskip i hi.1).mpr hi.2)⟩
  · intro a b hab
    rw [decide_eq_true_eq,decide_eq_false_iff_not,h.priority,h.priority,p.key_le,p.key_le]
    constructor <;> intro hle <;> omega

theorem bestIdx_spec (hn : p.softs.length ≤ 64) {c : Ctx V} (h : c.Of p) (tried : BitVec 64)
    {D : Set ℕ} (hD : D = active p c.activeMask ∪ active p tried) :
    (bestIdx c tried = none → D = p.indices) ∧
      ∀ b, bestIdx c tried = some b → Next p.key p.indices D b := by
  have hskip : ∀ i < p.softs.length, decide (c.activeMask &&& 1#64 <<< i ≠ 0#64 ∨
      tried &&& 1#64 <<< i ≠ 0#64) = true ↔ i ∈ D := by
    intro i hi
    have hi64 := lt_of_lt_of_le hi hn
    rw [decide_eq_true_eq,Ne,Ne,and_bit_eq_zero _ hi64,and_bit_eq_zero _ hi64,Bool.not_eq_false,
      Bool.not_eq_false,hD]
    exact or_congr (and_iff_right hi).symm (and_iff_right hi).symm
  have hpick := pick_picked (fun i => decide (c.activeMask &&& 1#64 <<< i ≠ 0#64 ∨
      tried &&& 1#64 <<< i ≠ 0#64)) (fun i b => decide (c.priority i < c.priority b))
    (fun a b => p.key a ≤ p.key b) (fun a => le_rfl) (fun a b c h1 h2 => h1.trans h2) ?_
    p.softs.length
  · rw [bestIdx,h.nAssumptions,Nat.min_eq_left hn]
    refine ⟨fun hr => ?_,fun b hb => ?_⟩
    · ext i
      refine ⟨fun hi => ?_,fun hi => (hskip i hi).mp (hpick.none hr i hi)⟩
      rw [hD] at hi
      exact hi.elim (fun hi => hi.1) fun hi => hi.1
    · obtain ⟨h1,h2,h3⟩ := hpick.some b hb
      have hfalse : ∀ i < p.softs.length, i ∉ D → _ = false := fun i hi hni =>
        Bool.eq_false_iff.mpr fun ht => hni ((hskip i hi).mp ht)
      refine ⟨h1,fun hbD => ?_,fun i hi hni => h3 i hi (hfalse i hi hni)⟩
      rw [(hskip b h1).mpr hbD] at h2
      exact absurd h2 (by decide)
  · intro a b hab
    rw [decide_eq_true_eq,decide_eq_false_iff_not,h.priority,h.priority,p.key_le,p.key_le]
    constructor <;> intro hle <;> omega

section Readd

variable (hE : E.Exact p) (hn : p.softs.length ≤ 64)
include hE hn

theorem readdRound_again {s : Ctx V × BitVec 64} (h : s.1.Of p) {best : ℕ}
    (hb : bestIdx s.1 s.2 = some best) (hin : best ∈ p.indices) :
    ∃ c, readdRound E s = .again (c,s.2 ||| 1#64 <<< best) ∧ c.Of p ∧
      (insert best (active p s.1.activeMask) ∈ p.feasible →
        active p c.activeMask = insert best (active p s.1.activeMask)) ∧
      (insert best (active p s.1.activeMask) ∉ p.feasible →
        active p c.activeMask = active p s.1.activeMask) := by
  let A := active p s.1.activeMask
  have hA : insert best A ⊆ p.indices := Set.insert_subset hin fun i hi => hi.1
  obtain ⟨c,hpin,hc⟩ := pinInactive_pinned hn
    (show (s.1.setMask (s.1.activeMask ||| 1#64 <<< best)).Of p from h)
  have hmask : active p (s.1.setMask (s.1.activeMask ||| 1#64 <<< best)).activeMask =
      insert best A := active_set hn s.1.activeMask hin
  rw [hmask] at hc
  simp only [readdRound,hb,hpin]
  by_cases hF : insert best A ∈ p.feasible
  · obtain ⟨m,c',hcore,hc'⟩ := solveCore_ok hE hc hA hF
    rw [if_pos (hE.propagate_of _ _ ((hc.feasible hA).mpr hF)),hcore]
    exact ⟨c',rfl,hc'.pinned.of,fun _ => hc'.pinned.mask,fun h => absurd hF h⟩
  · obtain ⟨c',hcore,hc'⟩ := solveCore_unsat hE hc hA hF
    rw [hcore]
    by_cases hprop : E.propagate c.calls c.value = true
    · rw [if_pos hprop]
      exact ⟨c'.setMask s.1.activeMask,rfl,hc'.of,fun h => absurd h hF,fun _ => rfl⟩
    · rw [if_neg hprop]
      exact ⟨c.setMask s.1.activeMask,rfl,hc.of,fun h => absurd h hF,fun _ => rfl⟩

structure Readd (p : Problem V) (s : Ctx V × BitVec 64) : Prop where
  of : s.1.Of p
  upto : Upto p.feasible p.key p.indices (active p s.1.activeMask ∪ active p s.2)
    (active p s.1.activeMask)

theorem readdRound_good {s : Ctx V × BitVec 64} (h : Readd p s) :
    (readdRound E s).Good (Readd p) (fun r => ∃ c, r = some c ∧ c.Of p ∧
      Upto p.feasible p.key p.indices p.indices (active p c.activeMask))
      (fun s => (p.indices \ (active p s.1.activeMask ∪ active p s.2)).ncard) s := by
  obtain ⟨hnone,hsome⟩ := bestIdx_spec hn h.of s.2 rfl
  cases hb : bestIdx s.1 s.2 with
  | none =>
    have hupto := h.upto
    rw [hnone hb] at hupto
    have hexit : readdRound E s = .exit (some s.1) := by rw [readdRound,hb]
    rw [hexit]
    exact ⟨s.1,rfl,h.of,hupto⟩
  | some best =>
    have hnext := hsome best hb
    obtain ⟨c,hagain,hof,htake,hskip⟩ := readdRound_again hE hn h.of hb hnext.mem
    rw [hagain]
    have hmore : active p c.activeMask ∪ active p (s.2 ||| 1#64 <<< best) =
        insert best (active p s.1.activeMask ∪ active p s.2) := by
      rw [active_set hn s.2 hnext.mem]
      by_cases hF : insert best (active p s.1.activeMask) ∈ p.feasible
      · rw [htake hF,Set.insert_union,Set.union_insert,Set.insert_idem]
      · rw [hskip hF,Set.union_insert]
    refine ⟨⟨hof,?_⟩,?_⟩
    · rw [hmore]
      by_cases hF : insert best (active p s.1.activeMask) ∈ p.feasible
      · rw [htake hF]
        exact h.upto.take p.key_injective hnext hF
      · rw [hskip hF]
        exact h.upto.skip p.key_injective hnext hF
    · have hfin : (p.indices \ (active p s.1.activeMask ∪ active p s.2)).Finite :=
        (Set.finite_lt_nat p.softs.length).subset Set.sdiff_subset
      refine Set.ncard_lt_ncard ?_ hfin
      rw [hmore]
      refine ⟨Set.sdiff_subset_sdiff_right (Set.subset_insert _ _),fun hsub => ?_⟩
      exact (hsub ⟨hnext.mem,hnext.new⟩).2 (Set.mem_insert _ _)

/-- Adding back from a feasible first part of the ranking ends with the greedy set, enforced. -/
theorem refineReaddSofts_spec {c : Ctx V} (h : c.Of p)
    (hupto : Upto p.feasible p.key p.indices (active p c.activeMask) (active p c.activeMask)) :
    ∃ c' K, refineReaddSofts E c = some (some c') ∧ p.Keeps K ∧ c'.Solved p K := by
  have hzero : active p 0#64 = ∅ := Set.ext fun i => iff_of_false (fun hi => by simp [active] at hi) id
  have hstart : Readd p (c,0#64) := by
    refine ⟨h,?_⟩
    rw [hzero,Set.union_empty]
    exact hupto
  have hcard : (p.indices \ (active p c.activeMask ∪ active p 0#64)).ncard < 65 := by
    have hle := Set.ncard_le_ncard (Set.sdiff_subset (s := p.indices)
      (t := active p c.activeMask ∪ active p 0#64)) (Set.finite_lt_nat p.softs.length)
    rw [p.indices_ncard] at hle
    omega
  obtain ⟨_,hloop,c1,rfl,hof,hall⟩ := loop_spec _ (fun s hs => readdRound_good hE hn hs) 65 _
    hstart hcard
  obtain ⟨c2,hpin,hc2⟩ := pinInactive_pinned hn hof
  obtain ⟨m,c3,hcore,hc3⟩ := solveCore_ok hE hc2 (fun i hi => hi.1) hall.feasible
  refine ⟨c3,_,?_,hall.isGreedy,hc3⟩
  rw [refineReaddSofts,hloop,Option.map_some,Option.bind_some,hpin,Option.map_some,hcore]

end Readd

structure Dropping (p : Problem V) (s : Ctx V × Bool) : Prop where
  pinned : s.1.Pinned p (active p s.1.activeMask)
  closed : ∀ a ∈ active p s.1.activeMask, ∀ b ∈ p.indices, p.key b < p.key a → b ∈ active p s.1.activeMask
  fresh : s.2 = false → active p s.1.activeMask = p.indices

/-- The answer is that of a solver which keeps the greedy set. -/
def Relaxed (p : Problem V) (r : Option (Res V)) : Prop :=
  (∃ c K, r = some (.ok c) ∧ p.Keeps K ∧ c.Solved p K) ∨ ((¬ ∃ m, p.hard m) ∧ ∃ c, r = some (.unsat c))

theorem relaxed_unsat (hF : A ∉ p.feasible) (hA : A = ∅) (c : Ctx V) :
    Relaxed p (some (.unsat c)) := by
  rw [hA] at hF
  exact .inr ⟨fun h => hF (p.empty_feasible.mpr h),c,rfl⟩

section Relax

variable (hE : E.Exact p) (hn : p.softs.length ≤ 64)
include hE hn

theorem relaxRound_sat (h : Dropping p s) (hF : active p s.1.activeMask ∈ p.feasible) :
    ∃ r, relaxRound E s = .exit r ∧ Relaxed p r := by
  obtain ⟨m,c,hcore,hc⟩ := solveCore_ok hE h.pinned (fun i hi => hi.1) hF
  cases hs : s.2 with
  | false =>
    refine ⟨some (.ok c),by rw [relaxRound,hcore,hs]; rfl,.inl ⟨c,_,rfl,?_,hc⟩⟩
    rw [h.fresh hs] at hF ⊢
    exact Problem.keeps_all hF
  | true =>
    have hupto := Upto.whole p.feasible_lower (fun i hi => hi.1) h.closed hF
    rw [← hc.pinned.mask] at hupto
    obtain ⟨c',K,hr,hK,hc'⟩ := refineReaddSofts_spec hE hn hc.pinned.of hupto
    exact ⟨some (.ok c'),by rw [relaxRound,hcore,hs]; simp [hr],.inl ⟨c',K,rfl,hK,hc'⟩⟩

/-- With nothing left to drop the answer stands; otherwise the worst active soft is dropped. -/
theorem relaxRound_unsat (h : Dropping p s) (hF : active p s.1.activeMask ∉ p.feasible) :
    (relaxRound E s).Good (Dropping p)
      (fun r => active p s.1.activeMask = ∅ ∧ ∃ c, r = some (.unsat c))
      (fun s => (active p s.1.activeMask).ncard) s := by
  obtain ⟨c,hcore,hc⟩ := solveCore_unsat hE h.pinned (fun i hi => hi.1) hF
  unfold relaxRound
  rw [hcore]
  by_cases hzero : c.nAssumptions = 0 ∨ c.activeMask = 0#64
  · have hempty : active p s.1.activeMask = ∅ := by
      rw [← hc.mask]
      refine Set.ext fun i => iff_of_false (fun hi => ?_) id
      obtain h0 | h0 := hzero
      · exact Nat.not_lt_zero i (by rw [← h0,hc.of.nAssumptions]; exact hi.1)
      · have hbit := hi.2
        rw [h0,BitVec.getLsbD_zero] at hbit
        exact Bool.false_ne_true hbit
    simp only [if_pos hzero]
    exact ⟨hempty,c,rfl⟩
  · obtain ⟨r,hworst,hnone,hsome⟩ := worstIdx_spec hn hc.of
    simp only [if_neg hzero,hworst]
    cases r with
    | none =>
      have hempty := hnone rfl
      rw [hc.mask] at hempty
      exact ⟨hempty,c,rfl⟩
    | some w =>
      obtain ⟨hw,hmax⟩ := hsome w rfl
      have hof : (c.setMask (c.activeMask &&& ~~~(1#64 <<< w))).Of p := hc.of
      obtain ⟨c',hpin,hc'⟩ := pinInactive_pinned hn hof
      have hclear : active p (c.setMask (c.activeMask &&& ~~~(1#64 <<< w))).activeMask =
          active p s.1.activeMask \ {w} := by
        rw [← hc.mask]
        exact active_clear hn c.activeMask w
      rw [hclear] at hc'
      rw [hc.mask] at hw hmax
      simp only [hpin]
      refine ⟨⟨by rw [hc'.mask]; exact hc',?_,nofun⟩,?_⟩
      · rw [hc'.mask]
        rintro a ⟨ha,_⟩ b hb hlt
        refine ⟨h.closed a ha b hb hlt,?_⟩
        rintro rfl
        exact absurd hlt (not_lt.mpr (hmax a ha))
      · show (active p c'.activeMask).ncard < (active p s.1.activeMask).ncard
        rw [hc'.mask]
        have hfin : (active p s.1.activeMask).Finite :=
          (Set.finite_lt_nat p.softs.length).subset fun i hi => hi.1
        exact Set.ncard_sdiff_singleton_lt_of_mem hw hfin

theorem relaxRound_good (h : Dropping p s) :
    (relaxRound E s).Good (Dropping p) (Relaxed p)
      (fun s => (active p s.1.activeMask).ncard) s := by
  by_cases hF : active p s.1.activeMask ∈ p.feasible
  · obtain ⟨r,hr,hpost⟩ := relaxRound_sat hE hn h hF
    rw [hr]
    exact hpost
  · refine (relaxRound_unsat hE hn h hF).mono ?_
    rintro _ ⟨hempty,c,rfl⟩
    exact relaxed_unsat hF hempty c

omit hE in
theorem entryMask_active {c : Ctx V} (h : c.Of p) : active p (entryMask c) = p.indices := by
  refine Set.Subset.antisymm (fun i hi => hi.1) fun i hi => ⟨hi,?_⟩
  have hpos : p.softs.length ≠ 0 := fun h0 => Nat.not_lt_zero i (by rw [← h0]; exact hi)
  have hfull := fullMask_bits hn
  rw [entryMask,h.nAssumptions,if_neg hpos]
  have hbits : i ∈ {i | (if p.softs.length < 64 then 1#64 <<< p.softs.length - 1#64
      else BitVec.allOnes 64).getLsbD i = true} := by
    rw [hfull]
    exact hi
  by_cases h64 : p.softs.length < 64
  · rw [if_neg (by omega)]
    rw [if_pos h64] at hbits
    exact hbits
  · rw [if_pos (by omega)]
    rw [if_neg h64] at hbits
    exact hbits

omit hE in
theorem dropping_entry {c : Ctx V} (h : c.Of p) (hv : c.value = fun _ => true) :
    Dropping p (c.setMask (entryMask c),false) := by
  have hmask := entryMask_active hn h
  refine ⟨⟨h,rfl,fun i hi => ?_⟩,fun a _ b hb _ => ?_,fun _ => hmask⟩
  · rw [show (c.setMask (entryMask c)).value = fun _ => true from hv]
    refine iff_of_true rfl ?_
    rw [show (c.setMask (entryMask c),false).1.activeMask = entryMask c from rfl,hmask]
    exact hi
  · rw [show (c.setMask (entryMask c),false).1.activeMask = entryMask c from rfl,hmask]
    exact hb

theorem solveRelax_relaxed {c : Ctx V} (h : c.Of p) (hv : c.value = fun _ => true) :
    Relaxed p (solveRelax E c) := by
  have hcard : (active p (c.setMask (entryMask c)).activeMask).ncard < 66 := by
    rw [show (c.setMask (entryMask c)).activeMask = entryMask c from rfl,entryMask_active hn h,
      p.indices_ncard]
    omega
  obtain ⟨r,hloop,hr⟩ := loop_spec _ (fun s hs => relaxRound_good hE hn hs) 66 _
    (dropping_entry hn h hv) hcard
  rw [solveRelax,hloop]
  exact hr

end Relax

theorem compileSofts_of {arrays : Bool} {room : ℕ → Bool} (harrays : arrays = true)
    (hroom : ∀ i, room i = true) : (compileSofts p arrays room).Of p := by
  show (if arrays then (p.softs.zipIdx.filter fun s => room s.2).map fun s => s.1.priority
    else []) = p.softs.map SoftSpec.priority
  rw [if_pos harrays,List.filter_eq_self.mpr fun s _ => hroom s.2]
  exact (List.map_map (f := Prod.fst)).symm.trans (by rw [List.zipIdx_map_fst])

theorem relaxRound_first {c : Ctx V} {m : V} (hm : E.core c.calls c.value = .ok m) :
    relaxRound E (c.setMask (entryMask c),false) =
      .exit (some (.ok { c.setMask (entryMask c) with calls := c.calls+1, found := some m })) := by
  have hcore : solveCore E (c.setMask (entryMask c)) =
      (.ok m,{ c.setMask (entryMask c) with calls := c.calls+1, found := some m }) :=
    Prod.ext hm (congrArg (fun r : Core V =>
      { c.setMask (entryMask c) with calls := c.calls+1, found := r.model }) hm)
  rw [relaxRound,hcore]
  rfl

section Many

variable (hE : E.Exact p) (hn : 64 < p.softs.length) {c : Ctx V} (h : c.Of p)
  (hv : c.value = fun _ => true)
include hE hv

/-- When all the softs can be kept nothing is dropped, and no bit of the mask is read. -/
theorem solveRelax_all (hF : p.indices ∈ p.feasible) :
    ∃ c' m, solveRelax E c = some (.ok c') ∧ c'.value = (fun _ => true) ∧ c'.found = some m ∧
      p.hard m ∧ ∀ i ∈ p.indices, p.Meets m i := by
  have hmarks : marks c.value ∈ p.feasible := by
    rw [hv]
    exact p.all_feasible.mpr hF
  obtain ⟨m,hm,h1,h2⟩ := hE.ok_of c.calls c.value hmarks
  refine ⟨{ c.setMask (entryMask c) with calls := c.calls+1, found := some m },m,?_,hv,rfl,h1,
    fun i _ => h2 i (congrFun hv i)⟩
  rw [solveRelax,loop,relaxRound_first hm]
  rfl

include hn h in
/-- Past 64 softs the first soft to drop is looked for with a shift that has no meaning. -/
theorem relaxRound_undefined (hF : p.indices ∉ p.feasible) :
    relaxRound E (c.setMask (entryMask c),false) = .exit (some .undefined) := by
  have hmarks : marks c.value ∉ p.feasible := by
    rw [hv]
    exact fun hm => hF (p.all_feasible.mp hm)
  have hu := hE.unsat_of c.calls c.value hmarks
  have hcore : solveCore E (c.setMask (entryMask c)) =
      (.unsat,(solveCore E (c.setMask (entryMask c))).2) := Prod.ext hu rfl
  have hlen : (solveCore E (c.setMask (entryMask c))).2.nAssumptions = p.softs.length :=
    h.nAssumptions
  have hmask : (solveCore E (c.setMask (entryMask c))).2.activeMask = BitVec.allOnes 64 := by
    show entryMask c = BitVec.allOnes 64
    rw [entryMask,h.nAssumptions,if_neg (by omega),if_pos hn.le]
  have hworst : worstIdx (solveCore E (c.setMask (entryMask c))).2 = none := by
    rw [worstIdx,hlen]
    exact foldlM_bit_none _ _ hn
  have hgo : ¬ ((solveCore E (c.setMask (entryMask c))).2.nAssumptions = 0 ∨
      (solveCore E (c.setMask (entryMask c))).2.activeMask = 0#64) := by
    rw [hlen,hmask,not_or]
    exact ⟨by omega,by decide⟩
  rw [relaxRound,hcore]
  simp only [if_neg hgo,hworst]

include hn h in
theorem solveRelax_undefined (hF : p.indices ∉ p.feasible) :
    solveRelax E c = some .undefined := by
  rw [solveRelax,loop,relaxRound_undefined hE hn h hv hF]
  rfl

end Many

/-- The search engine has the softs of `K` active, and a model of exactly these. -/
structure Ctx.Keeps (p : Problem V) (K : Set ℕ) (c : Ctx V) : Prop where
  value : ∀ i ∈ p.indices, c.value i = true ↔ i ∈ K
  found : ∃ m, c.found = some m ∧ p.Models m K

theorem Ctx.Solved.keeps {K : Set ℕ} {c : Ctx V} (h : c.Solved p K) (hK : p.Keeps K) :
    c.Keeps p K := by
  obtain ⟨m,hm,h1,h2⟩ := h.found
  exact ⟨h.pinned.value,m,hm,hK.models h1 h2⟩

/-- The search engine answers: it succeeds and keeps the greedy set, or the hard constraints
are unsatisfiable and it says so. -/
def Agrees (p : Problem V) (r : Option (Res V)) : Prop :=
  ((∃ m, p.hard m) ∧ ∃ c, r = some (.ok c) ∧ ∀ K, p.Keeps K → c.Keeps p K) ∨
    (¬ ∃ m, p.hard m) ∧ ∃ c, r = some (.unsat c)

theorem agrees_iff (hE : E.Exact p) {c : Ctx V} (h : c.Of p) (hv : c.value = fun _ => true) :
    Agrees p (solveRelax E c) ↔ p.softs.length ≤ 64 ∨ p.indices ∈ p.feasible := by
  by_cases hn : p.softs.length ≤ 64
  · refine iff_of_true ?_ (.inl hn)
    refine (solveRelax_relaxed hE hn h hv).imp_left fun hok => ?_
    obtain ⟨c',K,hr,hK,hc'⟩ := hok
    obtain ⟨m,_,hm,_⟩ := hc'.found
    exact ⟨⟨m,hm⟩,c',hr,fun L hL => hL.unique hK ▸ hc'.keeps hK⟩
  · by_cases hF : p.indices ∈ p.feasible
    · refine iff_of_true ?_ (.inr hF)
      obtain ⟨c',m,hr,hval,hfound,hm,hmeets⟩ := solveRelax_all hE hv hF
      have hK := Problem.keeps_all hF
      refine .inl ⟨⟨m,hm⟩,c',hr,fun L hL => hL.unique hK ▸
        ⟨fun i hi => ?_,m,hfound,hK.models hm hmeets⟩⟩
      exact iff_of_true (congrFun hval i) hi
    · refine iff_of_false (fun ha => ?_) fun hor => hor.elim hn hF
      rw [solveRelax_undefined hE (not_le.mp hn) h hv hF] at ha
      obtain ⟨-,c',hr,-⟩ | ⟨-,c',hr⟩ := ha
      · exact absurd hr nofun
      · exact absurd hr nofun

/-- With every solve exact, `dvs_bbsolver_check_maxsat` returns the greedy set and
`dvs_solver_solve` keeps the same one, exactly when the arrays can be allocated and there are no
more than 64 softs; more are fine only as long as none has to be dropped. -/
theorem maxsat_greedy_iff (p : Problem V) (solve : Solve V) (E : Search V) (mem : Memory)
    (out : Option (ℕ → Bool)) (keepCap : ℕ) (arrays : Bool) (room : ℕ → Bool)
    (hsolve : Exact p solve) (hE : E.Exact p) (harrays : arrays = true)
    (hroom : ∀ i, room i = true) :
    Chosen p out keepCap (checkMaxsat solve p mem out keepCap) ∧
        Agrees p (solveRelax E (compileSofts p arrays room)) ↔
      (p.softs.length = 0 ∨ (mem.pri = true ∧ mem.keep = true) ∧
        (mem.order = true ∨ p.indices ∈ p.feasible)) ∧
      (p.softs.length ≤ 64 ∨ p.indices ∈ p.feasible) :=
  and_congr (checkMaxsat_chosen hsolve) (agrees_iff hE (compileSofts_of harrays hroom) rfl)

def bitWhere (ok : Bool → Bool) : Option Bool :=
  if ok true then some true else if ok false then some false else none

theorem bitWhere_some {ok : Bool → Bool} (h : ∃ b, ok b = true) :
    ∃ b, bitWhere ok = some b ∧ ok b = true := by
  unfold bitWhere
  by_cases ht : ok true = true
  · exact ⟨true,if_pos ht,ht⟩
  · obtain ⟨b,hb⟩ := h
    cases b with
    | true => exact absurd hb ht
    | false => exact ⟨false,by rw [if_neg ht,if_pos hb],hb⟩

theorem bitWhere_none {ok : Bool → Bool} (h : ¬ ∃ b, ok b = true) : bitWhere ok = none := by
  unfold bitWhere
  rw [if_neg fun ht => h ⟨true,ht⟩,if_neg fun hf => h ⟨false,hf⟩]

def bitSolve (p : Problem Bool) : Solve Bool := fun _ roots =>
  match bitWhere fun b => p.hard b && roots.all fun root => root b with
  | some b => some (.sat b)
  | none => some .unsat

theorem bitSolve_exact (p : Problem Bool) : Exact p (bitSolve p) := by
  have hok : ∀ (roots : List (Bool → Bool)) b, (p.hard b && roots.all fun root => root b) = true ↔
        p.hard b = true ∧ ∀ root ∈ roots, root b = true := by
    intro roots b
    rw [Bool.and_eq_true,List.all_eq_true]
  refine ⟨fun k roots h => ?_,fun k roots h => ?_⟩
  · obtain ⟨b,h1,h2⟩ := bitWhere_some ((exists_congr (hok roots)).mpr h)
    exact ⟨b,by simp only [bitSolve,h1],(hok roots b).mp h2⟩
  · simp only [bitSolve,bitWhere_none (fun he => h ((exists_congr (hok roots)).mp he))]

def bitSearch (p : Problem Bool) : Search Bool where
  core _ value :=
    match bitWhere fun b => p.hard b && p.softs.zipIdx.all fun s => !value s.2 || s.1.root b with
    | some b => .ok b
    | none => .unsat
  propagate _ value :=
    (bitWhere fun b => p.hard b && p.softs.zipIdx.all fun s => !value s.2 || s.1.root b).isSome

theorem bitSearch_exact (p : Problem Bool) : (bitSearch p).Exact p := by
  have hok : ∀ (value : ℕ → Bool) b,
      (p.hard b && p.softs.zipIdx.all fun s => !value s.2 || s.1.root b) = true ↔
        p.hard b = true ∧ ∀ i ∈ marks value, p.Meets b i := by
    intro value b
    rw [Bool.and_eq_true,List.all_eq_true]
    refine and_congr_right fun _ => ⟨fun h i hi ss hs => ?_,fun h s hs => ?_⟩
    · have hb := h (ss,i) (List.mem_zipIdx_iff_getElem?.mpr hs)
      rw [show value i = true from hi] at hb
      exact hb
    · cases hvalue : value s.2 with
      | false => rfl
      | true => exact h s.2 hvalue s.1 (List.mem_zipIdx_iff_getElem?.mp hs)
  have hsome : ∀ value : ℕ → Bool, marks value ∈ p.feasible → ∃ b, _ := fun value h =>
    bitWhere_some ((exists_congr (hok value)).mpr h)
  refine ⟨fun k value h => ?_,fun k value h => ?_,fun k value h => ?_⟩
  · obtain ⟨b,h1,h2⟩ := hsome value h
    exact ⟨b,by simp only [bitSearch,h1],(hok value b).mp h2⟩
  · simp only [bitSearch,bitWhere_none (fun he => h ((exists_congr (hok value)).mp he))]
  · obtain ⟨b,h1,_⟩ := hsome value h
    simp only [bitSearch,h1,Option.isSome_some]

/-- Two softs that exclude each other, the first one preferred. -/
def opposed : Problem Bool := ⟨fun _ => true,[⟨id,0⟩,⟨not,1⟩]⟩

theorem maxsat_greedy_opposed :
    Chosen opposed none 0 (checkMaxsat (bitSolve opposed) opposed ⟨true,true,true⟩ none 0) ∧
      Agrees opposed (solveRelax (bitSearch opposed) (compileSofts opposed true fun _ => true)) :=
  (maxsat_greedy_iff opposed (bitSolve opposed) (bitSearch opposed) ⟨true,true,true⟩ none 0 true
    (fun _ => true) (bitSolve_exact opposed) (bitSearch_exact opposed) rfl fun _ => rfl).mpr
    ⟨.inr ⟨⟨rfl,rfl⟩,.inl rfl⟩,.inl (by decide)⟩

/-- One soft more than the mask has bits, and it excludes the others. -/
def crowd : Problem Bool := ⟨fun _ => true,List.replicate 64 ⟨id,0⟩ ++ [⟨not,1⟩]⟩

theorem crowd_conflict : crowd.indices ∉ crowd.feasible := by
  rintro ⟨b,_,h⟩
  have h0 : id b = true := h 0 (show 0 < crowd.softs.length by decide) ⟨id,0⟩ rfl
  have h64 : not b = true := h 64 (show 64 < crowd.softs.length by decide) ⟨not,1⟩ rfl
  rw [show b = true from h0] at h64
  exact absurd h64 (by decide)

theorem maxsat_crowd_undefined :
    Exact crowd (bitSolve crowd) ∧ (bitSearch crowd).Exact crowd ∧
      ¬ (Chosen crowd none 0 (checkMaxsat (bitSolve crowd) crowd ⟨true,true,true⟩ none 0) ∧
        Agrees crowd (solveRelax (bitSearch crowd) (compileSofts crowd true fun _ => true))) := by
  refine ⟨bitSolve_exact crowd,bitSearch_exact crowd,fun h => ?_⟩
  have hof : (compileSofts crowd true fun _ => true).Of crowd := compileSofts_of rfl fun _ => rfl
  have hcond := (agrees_iff (bitSearch_exact crowd) hof rfl).mp h.2
  obtain hlen | hF := hcond
  · exact absurd hlen (by decide)
  · exact crowd_conflict hF

end Maxsat
end DvSolve
