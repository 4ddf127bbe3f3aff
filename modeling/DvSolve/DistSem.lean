import DvSolve.Dist

/-! What the draws and the encoding of a distribution guarantee. -/
namespace DvSolve
namespace Dist

open Solver
open BitVec (lt_def toInt_eq_toNat_cond toNat_add toNat_ofNat toNat_sub)
open Bool (not_eq_true)
open Nat (mod_eq_of_lt)

variable {v : Variable} {a b c lo hi x : BitVec 64}
variable {e : Entry} {es : List Entry}

/-- A pattern as a number, ordered as the variable orders it. -/
def rank (v : Variable) (a : BitVec 64) : ℤ :=
  if !v.signed && v.width ≥ 64 then a.toNat else a.toInt

theorem varBLt_iff : varBLt v a b = true ↔ rank v a < rank v b := by
  unfold varBLt rank
  split_ifs
  · simp [BitVec.ult_iff_lt,lt_def]
  · exact BitVec.slt_iff_toInt_lt

theorem varBLt_eq_false : varBLt v a b = false ↔ rank v b ≤ rank v a := by
  rw [← not_eq_true,varBLt_iff,not_lt]

theorem varBGt_eq_false : varBGt v a b = false ↔ rank v a ≤ rank v b := varBLt_eq_false

theorem rank_injective (h : rank v a = rank v b) : a = b := by
  unfold rank at h
  split_ifs at h
  · exact BitVec.eq_of_toNat_eq (by exact_mod_cast h)
  · exact BitVec.eq_of_toInt_eq h

theorem rank_between (hle : rank v lo ≤ rank v hi) (hx : (x-lo).toNat ≤ (hi-lo).toNat) :
    rank v lo ≤ rank v x ∧ rank v x ≤ rank v hi := by
  rw [toNat_sub,toNat_sub] at hx
  unfold rank at *
  split_ifs at *
  · omega
  · simp only [toInt_eq_toNat_cond] at *
    split_ifs at * <;> omega

theorem rank_max : rank v (varBMax v a b) = max (rank v a) (rank v b) := by
  unfold varBMax
  split_ifs with h
  · rw [max_eq_right (varBLt_iff.mp h).le]
  · rw [max_eq_left (not_lt.mp (mt varBLt_iff.mpr h))]

theorem rank_min : rank v (varBMin v a b) = min (rank v a) (rank v b) := by
  unfold varBMin
  split_ifs with h
  · rw [min_eq_left (varBLt_iff.mp h).le]
  · rw [min_eq_right (not_lt.mp (mt varBLt_iff.mpr h))]

theorem randRange64_mem (s : BitVec 64) (hle : rank v lo ≤ rank v hi) :
    rank v lo ≤ rank v (randRange64 s lo hi).1 ∧ rank v (randRange64 s lo hi).1 ≤ rank v hi := by
  apply rank_between hle
  simp only [randRange64]
  split_ifs with h
  · bv_omega
  · have hne : (hi-lo+1#64).toNat ≠ 0 := fun h0 => h (BitVec.eq_of_toNat_eq h0)
    have hmod : ((rand64 s).1%(hi-lo+1#64)).toNat < (hi-lo+1#64).toNat := by
      rw [BitVec.toNat_umod]
      exact Nat.mod_lt _ (by omega)
    generalize (rand64 s).1%(hi-lo+1#64) = r at hmod
    bv_omega

def Entry.Has (v : Variable) (e : Entry) (x : BitVec 64) : Prop :=
  e.weight ≠ 0#32 ∧ rank v e.lo ≤ rank v x ∧ rank v x ≤ rank v e.hi

instance (v : Variable) (e : Entry) (x : BitVec 64) : Decidable (e.Has v x) :=
  inferInstanceAs (Decidable (_ ∧ _))

def InDist (v : Variable) (es : List Entry) (x : BitVec 64) : Prop := ∃ e ∈ es, e.Has v x

theorem Entry.live_iff : e.live v lo hi = true ↔ e.weight ≠ 0#32 ∧
    max (rank v e.lo) (rank v lo) ≤ min (rank v e.hi) (rank v hi) := by
  simp only [live,clip,Bool.and_eq_true,bne_iff_ne,Bool.not_eq_true',varBGt_eq_false,rank_max,rank_min]

theorem Entry.clip_mem (h : e.live v lo hi = true)
    (hx : rank v (e.clip v lo hi).1 ≤ rank v x ∧ rank v x ≤ rank v (e.clip v lo hi).2) :
    e.Has v x ∧ rank v lo ≤ rank v x ∧ rank v x ≤ rank v hi := by
  simp only [clip,rank_max,rank_min,max_le_iff,le_min_iff] at hx
  exact ⟨⟨(live_iff.mp h).1,hx.1.1,hx.2.1⟩,hx.1.2,hx.2.2⟩

/-- The weight an entry has in `[lo,hi]`, without wrapping around. -/
def Entry.weightIn (e : Entry) (v : Variable) (lo hi : BitVec 64) : ℕ :=
  if e.live v lo hi then
    if e.isPerValue then e.weight.toNat*(((e.clip v lo hi).2-(e.clip v lo hi).1).toNat+1)
    else e.weight.toNat
  else 0

def weightIn (v : Variable) (lo hi : BitVec 64) (es : List Entry) : ℕ :=
  (es.map fun e => e.weightIn v lo hi).sum

theorem Entry.effective_toNat (h : e.live v lo hi = true) (hlt : e.weightIn v lo hi < 2^64) :
    (e.effective v lo hi).toNat = e.weightIn v lo hi := by
  have hw : e.weight.toNat ≠ 0 := fun h0 => (live_iff.mp h).1 (BitVec.eq_of_toNat_eq h0)
  unfold weightIn at hlt ⊢
  unfold effective
  rw [if_pos h] at hlt ⊢
  have hwidth : (e.weight.setWidth 64).toNat = e.weight.toNat := by
    rw [BitVec.toNat_setWidth]
    omega
  split_ifs at hlt ⊢
  · have hcount : ((e.clip v lo hi).2-(e.clip v lo hi).1).toNat+1 < 2^64 ∨
        ((e.clip v lo hi).2-(e.clip v lo hi).1).toNat+1 = 2^64 := by omega
    rcases hcount with hcount | hcount
    · rw [BitVec.toNat_mul,hwidth,toNat_add,toNat_ofNat,
        mod_eq_of_lt (show 1 < 2^64 by omega),mod_eq_of_lt hcount,mod_eq_of_lt hlt]
    · rw [hcount] at hlt
      omega
  · exact hwidth

theorem totalWeight_toNat (t : BitVec 64) (h : t.toNat+weightIn v lo hi es < 2^64) :
    (es.foldl (fun t e => if e.live v lo hi then t+e.effective v lo hi else t) t).toNat =
      t.toNat+weightIn v lo hi es := by
  induction es generalizing t with
  | nil => simp [weightIn]
  | cons e es ih =>
    simp only [weightIn,List.map_cons,List.sum_cons] at h
    rw [List.foldl_cons]
    split_ifs with hlive
    · have he := e.effective_toNat hlive (by omega)
      have hadd : (t+e.effective v lo hi).toNat = t.toNat+e.weightIn v lo hi := by
        rw [toNat_add,he,mod_eq_of_lt (by omega)]
      rw [ih _ (by rw [hadd]; simp only [weightIn]; omega),hadd]
      simp only [weightIn,List.map_cons,List.sum_cons]
      omega
    · rw [ih _ (by simp only [weightIn]; omega)]
      simp [weightIn,Entry.weightIn,hlive]

theorem totalWeight_spec (hpos : 0 < weightIn v lo hi es) (hlt : weightIn v lo hi es < 2^64) :
    (0#64).toNat+weightIn v lo hi es = weightIn v lo hi es ∧
      (totalWeight v lo hi es).toNat = weightIn v lo hi es ∧ totalWeight v lo hi es ≠ 0#64 := by
  have hzero : (0#64).toNat = 0 := rfl
  have hsum : (0#64).toNat+weightIn v lo hi es = weightIn v lo hi es := by rw [hzero,Nat.zero_add]
  have htotal : (totalWeight v lo hi es).toNat = weightIn v lo hi es :=
    (totalWeight_toNat 0#64 (hsum.trans_lt hlt)).trans hsum
  refine ⟨hsum,htotal,fun h0 => ?_⟩
  rw [h0,hzero] at htotal
  omega

/-- A declaration that a distribution may be on: at most 64 bits, the domain within the
type. -/
structure Declared (v : Variable) : Prop where
  pos : 0 < v.width
  le : v.width ≤ 64
  lo : rank v (varReprMin v) ≤ rank v (varLo64 v)
  hi : rank v (varHi64 v) ≤ rank v (varReprMax v)

/-- In the range of the type. -/
def InRepr (v : Variable) (a : BitVec 64) : Prop :=
  rank v (varReprMin v) ≤ rank v a ∧ rank v a ≤ rank v (varReprMax v)

theorem one_shiftLeft_toNat {n : ℕ} (hn : n < 64) : (1#64 <<< n).toNat = 2^n := by
  have : 2^n < 2^64 := Nat.pow_lt_pow_right (by decide) hn
  rw [BitVec.toNat_shiftLeft,toNat_ofNat,Nat.one_mod_two_pow (by decide),Nat.shiftLeft_eq,
    Nat.one_mul,mod_eq_of_lt this]

theorem InRepr.signed (hs : v.signed = true) (hpos : 0 < v.width) (hle : v.width ≤ 64)
    (ha : InRepr v a) : rank v a = a.toInt ∧ -(2^(v.width-1)) ≤ a.toInt ∧ a.toInt < 2^(v.width-1) := by
  unfold InRepr rank varReprMin varReprMax at ha
  simp only [hs,Bool.not_true,Bool.false_and,Bool.false_eq_true,if_false,if_true] at ha
  refine ⟨by simp [rank,hs],?_⟩
  split_ifs at ha with hw
  · have hw : v.width = 64 := le_antisymm hle hw
    rw [hw]
    simp only [toInt_eq_toNat_cond]
    split_ifs <;> omega
  · have hshift := one_shiftLeft_toNat (show v.width-1 < 64 by omega)
    have hlt : 2^(v.width-1) ≤ 2^62 := Nat.pow_le_pow_right (by decide) (by omega)
    have hge : 1 ≤ 2^(v.width-1) := Nat.one_le_two_pow
    have hcast : ((2^(v.width-1) : ℕ) : ℤ) = 2^(v.width-1) := by push_cast; rfl
    rw [← hcast]
    generalize 1#64 <<< (v.width-1) = m at ha hshift
    rw [← hshift] at hlt hge ⊢
    have h₁ : (-m).toInt = -m.toNat := by
      rw [toInt_eq_toNat_cond,BitVec.toNat_neg]
      split_ifs <;> omega
    have h₂ : (m-1#64).toInt = m.toNat-1 := by
      rw [toInt_eq_toNat_cond,toNat_sub]
      simp only [toNat_ofNat]
      split_ifs <;> omega
    rw [h₁,h₂] at ha
    omega

theorem InRepr.unsigned (hs : v.signed = false) (hpos : 0 < v.width) (hle : v.width ≤ 64)
    (ha : InRepr v a) : rank v a = a.toNat ∧ a.toNat < 2^v.width := by
  by_cases hw : v.width = 64
  · refine ⟨by simp [rank,hs,hw],?_⟩
    rw [hw]
    exact a.isLt
  · have hlt : v.width < 64 := lt_of_le_of_ne hle hw
    have hrank : ∀ b, rank v b = b.toInt := fun b => by simp [rank,hs,hlt]
    have hshift := one_shiftLeft_toNat hlt
    have hP : 2^v.width ≤ 2^63 := Nat.pow_le_pow_right (by decide) (by omega)
    have hge : 1 ≤ 2^v.width := Nat.one_le_two_pow
    simp only [InRepr,hrank,varReprMin,varReprMax,hs,Bool.false_eq_true,if_false,hw,not_lt.mpr hle] at ha
    generalize 1#64 <<< v.width = m at ha hshift
    rw [← hshift] at hP hge ⊢
    have h₂ : (m-1#64).toInt = m.toNat-1 := by
      rw [toInt_eq_toNat_cond,toNat_sub]
      simp only [toNat_ofNat]
      split_ifs <;> omega
    rw [h₂] at ha
    have h₀ : (0#64).toInt = 0 := rfl
    rw [h₀] at ha
    rw [hrank]
    rw [toInt_eq_toNat_cond] at *
    split_ifs at * <;> omega

def InDomain (v : Variable) (x : BitVec 64) : Prop :=
  rank v (varLo64 v) ≤ rank v x ∧ rank v x ≤ rank v (varHi64 v)

instance (v : Variable) (x : BitVec 64) : Decidable (InDomain v x) :=
  inferInstanceAs (Decidable (_ ∧ _))

/-- Some range with a weight meets the declared domain. -/
def Overlaps (v : Variable) (es : List Entry) : Prop :=
  ∃ e ∈ es, ∃ x, InDomain v x ∧ e.Has v x

theorem Entry.live_of_has (hx : rank v lo ≤ rank v x ∧ rank v x ≤ rank v hi) (h : e.Has v x) :
    e.live v lo hi = true :=
  live_iff.mpr ⟨h.1,(max_le h.2.1 hx.1).trans (le_min h.2.2 hx.2)⟩

end Dist
end DvSolve
