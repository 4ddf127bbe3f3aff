import Mathlib.Tactic

/-! Binary min-heaps in an array, kept by moving a hole.
The array is a function of which the first `n` places are in use; a new entry moves up
from the end, and the last one moves down from the root. -/
namespace DvSolve
namespace MinHeap

open Function

variable {α : Type*}
variable {h : ℕ → α} {n i : ℕ} {v : α}

def entries (h : ℕ → α) (n : ℕ) : Multiset α := (Multiset.range n).map h

def others (h : ℕ → α) (n i : ℕ) : Multiset α := ((Multiset.range n).erase i).map h

theorem entries_eq (hi : i < n) : entries h n = h i ::ₘ others h n i := by
  rw [entries,others,← Multiset.map_cons,Multiset.cons_erase (Multiset.mem_range.mpr hi)]

theorem others_update (h : ℕ → α) (n i : ℕ) (v : α) :
    others (Function.update h i v) n i = others h n i := by
  refine Multiset.map_congr rfl fun j hj => update_of_ne ?_ _ _
  rintro rfl
  exact absurd hj (Multiset.Nodup.notMem_erase (Multiset.nodup_range n))

theorem others_move {j : ℕ} (hi : i < n) (hj : j < n) (hne : j ≠ i) :
    others (Function.update h i (h j)) n j = others h n i := by
  have h1 := entries_eq (h:=Function.update h i (h j)) hi
  rw [entries_eq (h:=Function.update h i (h j)) hj,update_self,update_of_ne hne,
    others_update,Multiset.cons_inj_right] at h1
  exact h1

theorem entries_fill (hi : i < n) (v : α) :
    entries (Function.update h i v) n = v ::ₘ others h n i := by
  rw [entries_eq hi,update_self,others_update]

theorem mem_entries {x : α} : x ∈ entries h n ↔ ∃ i < n, h i = x := by
  simp [entries]

variable [LinearOrder α]

def parent (i : ℕ) : ℕ := (i-1)/2

/-- Put `v` at the hole `i` or above. -/
def siftUp (v : α) (h : ℕ → α) (i : ℕ) : ℕ → α :=
  if _hup : i ≠ 0 ∧ v < h (parent i) then siftUp v (Function.update h i (h (parent i))) (parent i)
  else Function.update h i v
termination_by i
decreasing_by
  unfold parent
  omega

/-- The lesser child of `i`, or `n` or more when there is none. -/
def least (h : ℕ → α) (n i : ℕ) : ℕ :=
  if 2*i+2 < n ∧ h (2*i+2) < h (2*i+1) then 2*i+2 else 2*i+1

theorem least_cases (h : ℕ → α) (n i : ℕ) :
    least h n i = 2*i+1 ∨ (least h n i = 2*i+2 ∧ 2*i+2 < n) := by
  unfold least
  split_ifs with hc
  · exact .inr ⟨rfl,hc.1⟩
  · exact .inl rfl

/-- Put `v` at the hole `i` or below, among the first `n` places. -/
def siftDown (v : α) (n : ℕ) (h : ℕ → α) (i : ℕ) : ℕ → α :=
  if _hdown : 2*i+1 < n ∧ h (least h n i) < v then
    siftDown v n (Function.update h i (h (least h n i))) (least h n i)
  else Function.update h i v
termination_by n-i
decreasing_by
  have := least_cases h n i
  omega

def push (h : ℕ → α) (n : ℕ) (v : α) : ℕ → α := siftUp v h n

/-- What is left after the root is taken from `n+1` entries. -/
def pop (h : ℕ → α) (n : ℕ) : ℕ → α := if n = 0 then h else siftDown (h n) n h 0

theorem siftUp_entries (hi : i < n) :
    entries (siftUp v h i) n = v ::ₘ others h n i := by
  induction i using Nat.strong_induction_on generalizing h with
  | _ i ih =>
    rw [siftUp]
    split_ifs with hup
    · have hlt : parent i < i := by
        unfold parent
        omega
      rw [ih (parent i) hlt (by omega),others_move hi (by omega) (by omega)]
    · exact entries_fill hi v

theorem siftDown_entries (hi : i < n) :
    entries (siftDown v n h i) n = v ::ₘ others h n i := by
  induction hk : n-i using Nat.strong_induction_on generalizing h i with
  | _ k ih =>
    rw [siftDown]
    split_ifs with hdown
    · have hc := least_cases h n i
      rw [ih (n-least h n i) (by omega) (by omega) rfl,others_move hi (by omega) (by omega)]
    · exact entries_fill hi v

theorem entries_push (h : ℕ → α) (n : ℕ) (v : α) :
    entries (push h n v) (n+1) = v ::ₘ entries h n := by
  rw [push,siftUp_entries (Nat.lt_succ_self n),others,entries,Multiset.range_succ,
    Multiset.erase_cons_head]

theorem entries_pop (h : ℕ → α) (n : ℕ) : entries h (n+1) = h 0 ::ₘ entries (pop h n) n := by
  have hlast : entries h (n+1) = h n ::ₘ entries h n := by
    rw [entries,entries,Multiset.range_succ,Multiset.map_cons]
  unfold pop
  split_ifs with hn
  · subst hn
    exact hlast
  · rw [hlast,siftDown_entries (by omega),entries_eq (h:=h) (show 0 < n by omega),Multiset.cons_swap]

def IsHeap (h : ℕ → α) (n : ℕ) : Prop := ∀ i, 0 < i → i < n → h (parent i) ≤ h i

theorem IsHeap.root_le (hh : IsHeap h n) (hi : i < n) :
    h 0 ≤ h i := by
  induction i using Nat.strong_induction_on with
  | _ i ih =>
    rcases Nat.eq_zero_or_pos i with rfl | hpos
    · exact le_rfl
    · have hlt : parent i < i := by
        unfold parent
        omega
      exact (ih (parent i) hlt (by omega)).trans (hh i hpos hi)

structure Hole (h : ℕ → α) (n i : ℕ) : Prop where
  away : ∀ j, 0 < j → j < n → j ≠ i → parent j ≠ i → h (parent j) ≤ h j
  across : ∀ j, 0 < j → j < n → parent j = i → 0 < i → h (parent i) ≤ h j

/-- The hole moves to its parent or to a child, whose entry fits there. -/
theorem Hole.fill (hh : Hole h n i) (hup : 0 < i → h (parent i) ≤ v)
    (hdown : ∀ j, 0 < j → j < n → parent j = i → v ≤ h j) :
    IsHeap (Function.update h i v) n := by
  intro j hj hjn
  have hlt : parent j < j := by
    unfold parent
    omega
  by_cases hji : j = i
  · subst hji
    rw [update_self,update_of_ne (by omega)]
    exact hup hj
  · rw [update_of_ne hji]
    by_cases hpi : parent j = i
    · rw [hpi,update_self]
      exact hdown j hj hjn hpi
    · rw [update_of_ne hpi]
      exact hh.away j hj hjn hji hpi

theorem Hole.up (hh : Hole h n i) (hi : 0 < i) (hin : i < n) :
    Hole (Function.update h i (h (parent i))) n (parent i) := by
  have hlt : parent i < i := by
    unfold parent
    omega
  have habove : 0 < parent i → h (parent (parent i)) ≤ h (parent i) := by
    intro h0
    have : parent (parent i) < parent i := by
      unfold parent at h0 ⊢
      omega
    exact hh.away _ h0 (by omega) (by omega) (by omega)
  constructor
  · intro j hj hjn hjp hpj
    by_cases hji : j = i
    · exact absurd (congrArg parent hji) hpj
    · rw [update_of_ne hji]
      by_cases hpi : parent j = i
      · rw [hpi,update_self]
        exact hh.across j hj hjn hpi hi
      · rw [update_of_ne hpi]
        exact hh.away j hj hjn hji hpi
  · intro j hj hjn hpj h0
    have hpp : parent (parent i) < parent i := by
      unfold parent at h0 ⊢
      omega
    rw [update_of_ne (by omega)]
    by_cases hji : j = i
    · rw [hji,update_self]
      exact habove h0
    · rw [update_of_ne hji]
      have := hh.away j hj hjn hji (by omega)
      rw [hpj] at this
      exact (habove h0).trans this

theorem siftUp_isHeap (hi : i < n) (hh : Hole h n i)
    (hdown : ∀ j, 0 < j → j < n → parent j = i → v ≤ h j) : IsHeap (siftUp v h i) n := by
  induction i using Nat.strong_induction_on generalizing h with
  | _ i ih =>
    rw [siftUp]
    split_ifs with hup
    · have hlt : parent i < i := by
        unfold parent
        omega
      refine ih (parent i) hlt (by omega) (hh.up (by omega) hi) fun j hj hjn hpj => ?_
      by_cases hji : j = i
      · rw [hji,update_self]
        exact hup.2.le
      · rw [update_of_ne hji]
        have := hh.away j hj hjn hji (by omega)
        rw [hpj] at this
        exact hup.2.le.trans this
    · refine hh.fill (fun h0 => ?_) hdown
      exact not_lt.mp fun hlt => hup ⟨by omega,hlt⟩

theorem parent_eq {j : ℕ} (hj : 0 < j) (h : parent j = i) : j = 2*i+1 ∨ j = 2*i+2 := by
  unfold parent at h
  omega

theorem least_le {j : ℕ} (hj : 0 < j) (hjn : j < n) (hp : parent j = i) :
    h (least h n i) ≤ h j := by
  unfold least
  split_ifs with hc
  · rcases parent_eq hj hp with rfl | rfl
    · exact hc.2.le
    · exact le_rfl
  · rcases parent_eq hj hp with rfl | rfl
    · exact le_rfl
    · exact not_lt.mp fun hlt => hc ⟨hjn,hlt⟩

theorem Hole.down (hh : Hole h n i) (hc : 2*i+1 < n) :
    Hole (Function.update h i (h (least h n i))) n (least h n i) := by
  have hl := least_cases h n i
  have hpl : parent (least h n i) = i := by
    unfold parent
    omega
  constructor
  · intro j hj hjn hjl hpj
    have hlt : parent j < j := by
      unfold parent
      omega
    by_cases hji : j = i
    · subst hji
      rw [update_self,update_of_ne (by omega)]
      exact hh.across _ (by omega) (by omega) hpl hj
    · rw [update_of_ne hji]
      by_cases hpi : parent j = i
      · rw [hpi,update_self]
        exact least_le hj hjn hpi
      · rw [update_of_ne hpi]
        exact hh.away j hj hjn hji hpi
  · intro j hj hjn hpj _
    have hlt : parent j < j := by
      unfold parent
      omega
    rw [hpl,update_self,update_of_ne (by omega)]
    have := hh.away j hj hjn (by omega) (by omega)
    rwa [hpj] at this

theorem siftDown_isHeap (hi : i < n) (hh : Hole h n i) (hup : 0 < i → h (parent i) ≤ v) :
    IsHeap (siftDown v n h i) n := by
  induction hk : n-i using Nat.strong_induction_on generalizing h i with
  | _ k ih =>
    have hl := least_cases h n i
    rw [siftDown]
    split_ifs with hdown
    · have hpl : parent (least h n i) = i := by
        unfold parent
        omega
      refine ih (n-least h n i) (by omega) (by omega) (hh.down hdown.1) (fun _ => ?_) rfl
      rw [hpl,update_self]
      exact hdown.2.le
    · refine hh.fill hup fun j hj hjn hp => ?_
      have hlt : 2*i+1 < n := by
        have := parent_eq hj hp
        omega
      exact (not_lt.mp fun hc => hdown ⟨hlt,hc⟩).trans (least_le hj hjn hp)

theorem IsHeap.push (hh : IsHeap h n) (v : α) :
    IsHeap (push h n v) (n+1) := by
  have hout : ∀ j, 0 < j → j < n+1 → parent j ≠ n := by
    intro j hj hjn
    unfold parent
    omega
  refine siftUp_isHeap (Nat.lt_succ_self n) ⟨fun j hj hjn hne _ => hh j hj (by omega),?_⟩ ?_
  · exact fun j hj hjn hp => absurd hp (hout j hj hjn)
  · exact fun j hj hjn hp => absurd hp (hout j hj hjn)

theorem IsHeap.pop (hh : IsHeap h (n+1)) : IsHeap (pop h n) n := by
  unfold MinHeap.pop
  split_ifs with hn
  · intro i hi hin
    omega
  · refine siftDown_isHeap (by omega) ⟨fun j hj hjn _ _ => hh j hj (by omega),?_⟩ ?_
    · exact fun _ _ _ _ h0 => absurd h0 (lt_irrefl 0)
    · exact fun h0 => absurd h0 (lt_irrefl 0)

end MinHeap
end DvSolve
