import DvSolve.BitblastSem

/-! Vectors as keys of the tables of `dvs_bbsum.c` and `dvs_bbword.c`.
Both files strip leading FALSE bits, read constant vectors and hash literals with
the same code. -/
namespace DvSolve
namespace BvKey

open Aig Bitblast

/-- Drop the leading FALSE bits. -/
def strip : Bv → Bv
  | [] => []
  | l :: v => if l = aigFalse then strip v else l :: v

def isConst (v : Bv) : Bool := v.all fun l => l = aigTrue || l = aigFalse

def constVal (v : Bv) : ℕ :=
  v.foldl (fun c l => (c <<< 1 ||| if l = aigTrue then 1 else 0) % 2^64) 0

def hash (v : Bv) : ℕ :=
  let h := v.foldl (fun h l => (h ^^^ (l % 2^32).toNat) * 1099511628211 % 2^64)
    (1469598103934665603 ^^^ v.length)
  (h ^^^ h >>> 32) % 2^32

/-- Order of two vectors given LSB first: by their literals, then by size. -/
def litsCmp : List ℤ → List ℤ → Ordering
  | [], [] => .eq
  | [], _ :: _ => .lt
  | _ :: _, [] => .gt
  | x :: a, y :: b => if x ≠ y then (if x < y then .lt else .gt) else litsCmp a b

def Stripped (v : Bv) : Prop := v.head? ≠ some aigFalse

theorem strip_stripped (v : Bv) : Stripped (strip v) := by
  induction v with
  | nil => simp [strip,Stripped]
  | cons l v ih =>
    by_cases hl : l = aigFalse
    · simpa [strip,hl] using ih
    · simp [strip,hl,Stripped]

theorem strip_sublist (v : Bv) : (strip v).Sublist v := by
  induction v with
  | nil => exact .slnil
  | cons l v ih =>
    by_cases hl : l = aigFalse
    · simpa [strip,hl] using ih.cons l
    · simp [strip,hl]

theorem strip_length_le (v : Bv) : (strip v).length ≤ v.length := (strip_sublist v).length_le

theorem strip_valid {m : Aig} {v : Bv} (h : ∀ l ∈ v, m.Valid l) : ∀ l ∈ strip v, m.Valid l :=
  fun l hl => h l ((strip_sublist v).subset hl)

theorem value_cons (m : Aig) (ρ : ℕ → Bool) (l : ℤ) (v : Bv) :
    value m ρ (l :: v) = (m.evalLit ρ l).toNat * 2^v.length + value m ρ v := by
  simp [value,Bits.val]

@[simp] theorem value_nil (m : Aig) (ρ : ℕ → Bool) : value m ρ [] = 0 := rfl

@[simp] theorem value_strip (m : Aig) (ρ : ℕ → Bool) (v : Bv) :
    value m ρ (strip v) = value m ρ v := by
  induction v with
  | nil => rfl
  | cons l v ih =>
    by_cases hl : l = aigFalse
    · rw [strip,if_pos hl,ih,value_cons,hl,evalLit_false]
      simp
    · rw [strip,if_neg hl]

theorem value_append (m : Aig) (ρ : ℕ → Bool) (u v : Bv) :
    value m ρ (u ++ v) = value m ρ u * 2^v.length + value m ρ v := by
  induction u with
  | nil => simp
  | cons l u ih =>
    rw [List.cons_append,value_cons,value_cons,ih,List.length_append,pow_add]
    ring

theorem constVal_fold {v : Bv} (hv : isConst v = true) (m : Aig) (ρ : ℕ → Bool) (c : ℕ) :
    v.foldl (fun c l => (c <<< 1 ||| if l = aigTrue then 1 else 0) % 2^64) c % 2^64 =
      (c * 2^v.length + value m ρ v) % 2^64 := by
  induction v generalizing c with
  | nil => simp
  | cons l v ih =>
    rw [isConst,List.all_cons,Bool.and_eq_true] at hv
    have hl : (if l = aigTrue then 1 else 0) = (m.evalLit ρ l).toNat := by
      rcases Bool.or_eq_true_iff.mp hv.1 with h | h
      · rw [of_decide_eq_true h,evalLit_true]
        rfl
      · rw [of_decide_eq_true h,evalLit_false]
        rfl
    have hlt : (m.evalLit ρ l).toNat < 2^1 := Bool.toNat_lt _
    rw [List.foldl_cons,ih hv.2,hl,← Nat.shiftLeft_add_eq_or_of_lt hlt,Nat.shiftLeft_eq,
      value_cons,List.length_cons]
    conv_lhs => rw [Nat.add_mod,Nat.mul_mod,Nat.mod_mod,← Nat.mul_mod,← Nat.add_mod]
    congr 1
    ring

theorem value_const {v : Bv} (hv : isConst v = true) (h64 : v.length ≤ 64) (m : Aig)
    (ρ : ℕ → Bool) : value m ρ v = constVal v := by
  have hfold := constVal_fold hv m ρ 0
  have hpow : 2^v.length ≤ 2^64 := Nat.pow_le_pow_right (by norm_num) h64
  have hlt := (value_lt m ρ v).trans_le hpow
  have hc : constVal v < 2^64 := by
    rcases List.eq_nil_or_concat v with rfl | ⟨u,l,rfl⟩
    · simp [constVal]
    · simp only [constVal,List.concat_eq_append,List.foldl_append,List.foldl_cons,List.foldl_nil]
      exact Nat.mod_lt _ (by norm_num)
  rw [Nat.zero_mul,Nat.zero_add,Nat.mod_eq_of_lt hlt] at hfold
  rw [← hfold]
  exact Nat.mod_eq_of_lt hc

end BvKey
end DvSolve
