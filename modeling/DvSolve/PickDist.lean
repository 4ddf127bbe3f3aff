import DvSolve.PickHoles
import Mathlib.Probability.Distributions.Uniform
import Mathlib.Probability.ProbabilityMassFunction.Monad

/-! The distribution `_pick_value_dist` draws from when its draws are uniform. -/
namespace DvSolve
namespace Pick

open Solver DvSolve.Dist
open scoped ENNReal
open BitVec (ofNat toNat_add)
open Nat (mod_eq_of_lt)
open Finset (card_range coe_range mem_range sum_congr)

variable {v : Variable} {lo hi x : BitVec 64} {es : List Entry}

theorem pickValueDist_of_roll {r : BitVec 64 × BitVec 64} (hne : totalWeight v lo hi es ≠ 0#64)
    (h : ∀ x : BitVec 64, rollEntry v lo hi (x%totalWeight v lo hi es) 0#64 es = some r)
    (s : BitVec 64) : pickValueDist v es s lo hi = randRange64 (rand64 s).2 r.1 r.2 := by
  unfold pickValueDist
  simp only [hne,if_false]
  rw [h]

theorem randRange64_self (s a : BitVec 64) : (randRange64 s a a).1 = a := by
  unfold randRange64
  dsimp only
  rw [BitVec.sub_self,BitVec.zero_add,if_neg (by decide),BitVec.umod_one,BitVec.add_zero]

def pickDist {m : Type → Type} [Monad m] (below : BitVec 64 → m (BitVec 64))
    (range : BitVec 64 → BitVec 64 → m (BitVec 64)) (v : Variable) (es : List Entry)
    (lo hi : BitVec 64) : m (BitVec 64) :=
  if totalWeight v lo hi es = 0#64 then range lo hi
  else do
    let roll ← below (totalWeight v lo hi es)
    match rollEntry v lo hi roll 0#64 es with
    | some r => range r.1 r.2
    | none => range lo hi

theorem pickDist_rand64 (v : Variable) (es : List Entry) (lo hi s : BitVec 64) :
    (pickDist (fun n => fun s => ((rand64 s).1%n,(rand64 s).2))
      (fun lo hi => fun s => randRange64 s lo hi) v es lo hi : StateM (BitVec 64) _).run s =
      pickValueDist v es s lo hi := by
  by_cases hzero : totalWeight v lo hi es = 0#64
  · simp only [pickDist,pickValueDist,hzero,if_true,StateT.run]
  · simp only [pickDist,pickValueDist,hzero,if_false,StateT.run,bind,StateT.bind]
    cases rollEntry v lo hi ((rand64 s).1%totalWeight v lo hi es) 0#64 es <;> rfl

/-- Each value of a range with the same probability. -/
noncomputable def uniformFrom (lo hi : BitVec 64) : PMF (BitVec 64) :=
  .uniformOfFinset ((Finset.range ((hi-lo).toNat+1)).image fun i => lo+ofNat 64 i) (by simp)

theorem add_ofNat_sub {i : ℕ} (h : i < 2^64) : (lo+ofNat 64 i-lo).toNat = i := by
  rw [show lo+ofNat 64 i-lo = ofNat 64 i by bv_omega,BitVec.toNat_ofNat,mod_eq_of_lt h]

theorem from_injOn (lo hi : BitVec 64) : Set.InjOn (fun i => lo+ofNat 64 i)
    (Finset.range ((hi-lo).toNat+1)) := by
  intro i hir j hjr heq
  simp only [coe_range,Set.mem_Iio] at hir hjr
  have h1 : (lo+ofNat 64 i-lo).toNat = i := add_ofNat_sub (by omega)
  have h2 : (lo+ofNat 64 j-lo).toNat = j := add_ofNat_sub (by omega)
  dsimp only at heq
  rw [heq,h2] at h1
  exact h1.symm

theorem uniformFrom_apply : uniformFrom lo hi x =
    if (x-lo).toNat ≤ (hi-lo).toNat then (((hi-lo).toNat+1 : ℕ) : ℝ≥0∞)⁻¹ else 0 := by
  have hmem : x ∈ (Finset.range ((hi-lo).toNat+1)).image (fun i => lo+ofNat 64 i) ↔
      (x-lo).toNat ≤ (hi-lo).toNat := by
    rw [Finset.mem_image]
    constructor
    · rintro ⟨i,hir,rfl⟩
      rw [mem_range] at hir
      rw [add_ofNat_sub (by omega)]
      omega
    · intro hle
      refine ⟨(x-lo).toNat,mem_range.mpr (by omega),?_⟩
      rw [BitVec.ofNat_toNat,BitVec.setWidth_eq]
      bv_omega
  have hcard : ((Finset.range ((hi-lo).toNat+1)).image fun i => lo+ofNat 64 i).card =
      (hi-lo).toNat+1 := by
    rw [Finset.card_image_of_injOn (from_injOn lo hi),card_range]
  rw [uniformFrom,PMF.uniformOfFinset_apply,hcard]
  simp only [hmem]

/-- `_pick_value_dist` with uniform draws. -/
noncomputable def idealDist (v : Variable) (es : List Entry) (lo hi : BitVec 64) : PMF (BitVec 64) :=
  pickDist (fun n => uniformFrom 0#64 (n-1#64)) uniformFrom v es lo hi

/-- The rolls from `cum` on, weighted by what they select, are the entries weighted by their
effective weights. -/
theorem sum_rolls {M : Type*} [AddCommMonoid M] (f : Option (BitVec 64 × BitVec 64) → M)
    (cum : BitVec 64) (h : cum.toNat+weightIn v lo hi es < 2^64) :
    ∑ i ∈ Finset.range (weightIn v lo hi es),f (rollEntry v lo hi (cum+ofNat 64 i) cum es) =
      (es.map fun e => e.weightIn v lo hi • f (some (e.clip v lo hi))).sum := by
  induction es generalizing cum with
  | nil => simp [weightIn]
  | cons e es ih =>
    have hsum : weightIn v lo hi (e :: es) = e.weightIn v lo hi+weightIn v lo hi es := by
      simp [weightIn]
    rw [hsum] at h ⊢
    rw [List.map_cons,List.sum_cons]
    by_cases hlive : e.live v lo hi = true
    · have heff := e.effective_toNat hlive (by omega)
      have hcum : (cum+e.effective v lo hi).toNat = cum.toNat+e.weightIn v lo hi := by
        rw [toNat_add,heff,mod_eq_of_lt (by omega)]
      have hroll : ∀ i < e.weightIn v lo hi+weightIn v lo hi es,
          (cum+ofNat 64 i).toNat = cum.toNat+i := fun i hi' => by
        rw [toNat_add,BitVec.toNat_ofNat,mod_eq_of_lt (show i < 2^64 by omega),mod_eq_of_lt (by omega)]
      rw [Finset.sum_range_add]
      congr 1
      · rw [sum_congr rfl (g:=fun _ => f (some (e.clip v lo hi))) fun i hi' => ?_]
        · rw [Finset.sum_const,card_range]
        · have hi' := mem_range.mp hi'
          rw [rollEntry,if_pos hlive,if_pos]
          rw [BitVec.lt_def,hroll i (by omega),hcum]
          omega
      · rw [← ih (cum+e.effective v lo hi) (by omega)]
        refine sum_congr rfl fun i hi' => ?_
        have hi' := mem_range.mp hi'
        rw [rollEntry,if_pos hlive,if_neg]
        · congr 2
          apply BitVec.eq_of_toNat_eq
          rw [hroll _ (by omega),toNat_add,hcum,BitVec.toNat_ofNat,
            mod_eq_of_lt (show i < 2^64 by omega),mod_eq_of_lt (by omega)]
          omega
        · rw [BitVec.lt_def,hroll _ (by omega),hcum]
          omega
    · have hzero : e.weightIn v lo hi = 0 := if_neg hlive
      rw [hzero,zero_smul,zero_add,zero_add,← ih cum (by omega)]
      refine sum_congr rfl fun i _ => ?_
      rw [rollEntry,if_neg hlive]

/-- How many values of the domain an entry contains. -/
noncomputable def Entry.count (e : Entry) (v : Variable) (lo hi : BitVec 64) : ℕ :=
  Set.ncard {y | Between v lo hi y ∧ e.Has v y}

/-- What an entry gives a value: its weight, or a value's share of it. -/
noncomputable def Entry.gives (e : Entry) (v : Variable) (lo hi x : BitVec 64) : ℝ≥0∞ :=
  if e.Has v x then
    if e.isPerValue then (e.weight.toNat : ℝ≥0∞) else (e.weight.toNat : ℝ≥0∞)/Entry.count e v lo hi
  else 0

/-- What the entries give a value. -/
noncomputable def given (v : Variable) (es : List Entry) (lo hi x : BitVec 64) : ℝ≥0∞ :=
  (es.map fun e => Entry.gives e v lo hi x).sum

theorem uniformFrom_sum (g : BitVec 64 → ℝ≥0∞) : (tsum fun a => uniformFrom lo hi a*g a) =
    (((hi-lo).toNat+1 : ℕ) : ℝ≥0∞)⁻¹*∑ i ∈ Finset.range ((hi-lo).toNat+1), g (lo+ofNat 64 i) := by
  have hout : ∀ a ∉ (Finset.range ((hi-lo).toNat+1)).image (fun i => lo+ofNat 64 i),
      uniformFrom lo hi a*g a = 0 := fun a ha => by
    rw [uniformFrom,PMF.uniformOfFinset_apply_of_notMem _ ha,zero_mul]
  rw [tsum_eq_sum hout,Finset.sum_image (from_injOn lo hi),Finset.mul_sum]
  refine sum_congr rfl fun i hi' => ?_
  have hi' := mem_range.mp hi'
  rw [uniformFrom_apply,if_pos]
  rw [add_ofNat_sub (by omega)]
  omega

/-- What a roll selects, as a distribution. -/
noncomputable def selected (lo hi : BitVec 64) : Option (BitVec 64 × BitVec 64) → PMF (BitVec 64)
  | some r => uniformFrom r.1 r.2
  | none => uniformFrom lo hi

theorem idealDist_rolls (hne : totalWeight v lo hi es ≠ 0#64) : idealDist v es lo hi x =
    ((totalWeight v lo hi es).toNat : ℝ≥0∞)⁻¹*
      ∑ i ∈ Finset.range (totalWeight v lo hi es).toNat,
        selected lo hi (rollEntry v lo hi (0#64+ofNat 64 i) 0#64 es) x := by
  have hpos : (totalWeight v lo hi es-1#64-0#64).toNat+1 = (totalWeight v lo hi es).toNat := by
    bv_omega
  have hbind : idealDist v es lo hi = (uniformFrom 0#64 (totalWeight v lo hi es-1#64)).bind
      fun roll => selected lo hi (rollEntry v lo hi roll 0#64 es) := by
    unfold idealDist pickDist
    rw [if_neg hne]
    change PMF.bind _ _ = _
    congr 1
  rw [hbind,PMF.bind_apply,uniformFrom_sum,hpos]

theorem entry_has_iff {e : Entry} (h : e.live v lo hi = true) :
    Between v lo hi x ∧ e.Has v x ↔ (x-(e.clip v lo hi).1).toNat ≤
      ((e.clip v lo hi).2-(e.clip v lo hi).1).toNat := by
  have hclip : rank v (e.clip v lo hi).1 ≤ rank v (e.clip v lo hi).2 := by
    simp only [Entry.clip,rank_max,rank_min]
    exact (Entry.live_iff.mp h).2
  rw [← between_iff hclip]
  constructor
  · rintro ⟨hx,-,h1,h2⟩
    refine ⟨?_,?_⟩ <;> simp only [Entry.clip,rank_max,rank_min]
    · exact max_le h1 hx.1
    · exact le_min h2 hx.2
  · intro hx
    obtain ⟨hhas,hdom⟩ := Entry.clip_mem h hx
    exact ⟨hdom,hhas⟩

theorem entry_count {e : Entry} (h : e.live v lo hi = true) :
    Entry.count e v lo hi = ((e.clip v lo hi).2-(e.clip v lo hi).1).toNat+1 := by
  generalize hc : e.clip v lo hi = c
  have hset : {y | Between v lo hi y ∧ e.Has v y} =
      (fun i => c.1+ofNat 64 i) '' ((Finset.range ((c.2-c.1).toNat+1) : Finset ℕ) : Set ℕ) := by
    ext y
    rw [Set.mem_ofPred_eq,entry_has_iff h,hc,Set.mem_image]
    constructor
    · intro hy
      refine ⟨(y-c.1).toNat,by
        rw [coe_range,Set.mem_Iio]
        omega,?_⟩
      rw [BitVec.ofNat_toNat,BitVec.setWidth_eq]
      bv_omega
    · rintro ⟨i,hir,rfl⟩
      simp only [coe_range,Set.mem_Iio] at hir
      rw [add_ofNat_sub (by omega)]
      omega
  rw [Entry.count,hset,Set.InjOn.ncard_image,Set.ncard_coe_finset,card_range]
  intro i hir j hjr heq
  simp only [coe_range,Set.mem_Iio] at hir hjr
  have h1 : (c.1+ofNat 64 i-c.1).toNat = i := add_ofNat_sub (by omega)
  have h2 : (c.1+ofNat 64 j-c.1).toNat = j := add_ofNat_sub (by omega)
  dsimp only at heq
  rw [heq,h2] at h1
  exact h1.symm

theorem entry_gives (e : Entry) (hx : Between v lo hi x) :
    e.weightIn v lo hi • uniformFrom (e.clip v lo hi).1 (e.clip v lo hi).2 x =
      Entry.gives e v lo hi x := by
  rw [nsmul_eq_mul,uniformFrom_apply]
  by_cases hlive : e.live v lo hi = true
  · have hcount := entry_count hlive
    have hin := entry_has_iff (x:=x) hlive
    have hw : e.weightIn v lo hi = if e.isPerValue then e.weight.toNat*Entry.count e v lo hi
        else e.weight.toNat := by
      rw [Entry.weightIn,if_pos hlive,hcount]
    rw [hw,← hcount]
    unfold Entry.gives
    by_cases hhas : e.Has v x
    · rw [if_pos hhas,if_pos (hin.mp ⟨hx,hhas⟩)]
      split_ifs
      · rw [Nat.cast_mul,mul_assoc,ENNReal.mul_inv_cancel,mul_one]
        · rw [hcount]
          exact Nat.cast_ne_zero.mpr (Nat.succ_ne_zero _)
        · exact ENNReal.natCast_ne_top _
      · rw [div_eq_mul_inv]
    · rw [if_neg hhas,if_neg fun hle => hhas (hin.mpr hle).2,mul_zero]
  · have hzero : e.weightIn v lo hi = 0 := if_neg hlive
    have hhas : ¬e.Has v x := fun hhas => hlive (Entry.live_of_has hx hhas)
    rw [hzero,Nat.cast_zero,zero_mul,Entry.gives,if_neg hhas]

/-- Where the weights do not wrap around, the chance of a value is what the entries give it
out of all they give. -/
theorem idealDist_apply (hpos : 0 < weightIn v lo hi es) (hlt : weightIn v lo hi es < 2^64)
    (hx : Between v lo hi x) : idealDist v es lo hi x = given v es lo hi x/weightIn v lo hi es := by
  obtain ⟨hsum,htotal,hne⟩ := totalWeight_spec hpos hlt
  rw [idealDist_rolls hne,htotal,sum_rolls (fun o => selected lo hi o x) 0#64 (hsum.trans_lt hlt),
    mul_comm,← div_eq_mul_inv]
  congr 1
  exact congrArg List.sum (List.map_congr_left fun e _ => entry_gives e hx)

theorem given_eq_zero (h : weightIn v lo hi es = 0) (hx : Between v lo hi x) :
    given v es lo hi x = 0 := by
  rw [given,List.sum_eq_zero_iff]
  intro g hg
  obtain ⟨e,he,rfl⟩ := List.mem_map.mp hg
  have hzero : e.weightIn v lo hi = 0 := List.sum_eq_zero_iff.mp h _ (List.mem_map_of_mem he)
  rw [← entry_gives e hx,hzero,zero_smul]

theorem idealDist_proportional (hlt : weightIn v lo hi es < 2^64) {y : BitVec 64}
    (hx : Between v lo hi x) (hy : Between v lo hi y) :
    idealDist v es lo hi x*given v es lo hi y = idealDist v es lo hi y*given v es lo hi x := by
  rcases Nat.eq_zero_or_pos (weightIn v lo hi es) with h0 | hpos
  · rw [given_eq_zero h0 hx,given_eq_zero h0 hy,mul_zero,mul_zero]
  · rw [idealDist_apply hpos hlt hx,idealDist_apply hpos hlt hy,div_eq_mul_inv,div_eq_mul_inv]
    ring

end Pick
end DvSolve
