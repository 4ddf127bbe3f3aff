import DvSolve.AigsimModel

/-! Valuations of the nodes of a graph (`node_val`), as the passes of `dvs_bbsolver.c` over
the recorded assertions build and read them. -/
namespace DvSolve

namespace Sweep

variable {α : Type*}

/-- One pass over the `n` places from `lo` on: each is rewritten in turn. -/
def sweep (f : (ℕ → α) → ℕ → α) (lo : ℕ) : ℕ → (ℕ → α) → ℕ → α
  | 0, t => t
  | n+1, t => Function.update (sweep f lo n t) (lo+n) (f (sweep f lo n t) (lo+n))

variable {f : (ℕ → α) → ℕ → α} {lo n : ℕ} {t : ℕ → α}

theorem sweep_outside {j : ℕ} (h : j < lo ∨ lo+n ≤ j) : sweep f lo n t j = t j := by
  induction n with
  | zero => rfl
  | succ n ih => rw [sweep,Function.update_of_ne (by omega),ih (by omega)]

theorem sweep_more {j : ℕ} (k : ℕ) (h : j < lo+n) : sweep f lo (n+k) t j = sweep f lo n t j := by
  induction k with
  | zero => rfl
  | succ k ih => rw [← Nat.add_assoc,sweep,Function.update_of_ne (by omega),ih]

theorem sweep_inside {id : ℕ} (h₁ : lo ≤ id) (h₂ : id < lo+n) :
    sweep f lo n t id = f (fun j => if j < id then sweep f lo n t j else t j) id := by
  obtain ⟨i,rfl⟩ : ∃ i, id = lo+i := ⟨id-lo,by omega⟩
  obtain ⟨k,rfl⟩ : ∃ k, n = i+1+k := ⟨n-(i+1),by omega⟩
  have hmix : (fun j => if j < lo+i then sweep f lo (i+1+k) t j else t j) = sweep f lo i t := by
    funext j
    by_cases hj : j < lo+i
    · rw [if_pos hj,Nat.add_assoc,sweep_more (1+k) hj]
    · rw [if_neg hj,sweep_outside (.inr (by omega))]
  rw [hmix,sweep_more k (by omega),sweep,Function.update_self]

theorem sweep_induction {P : ℕ → α → Prop} (hbefore : ∀ j < lo, P j (t j))
    (hstep : ∀ id, lo ≤ id → id < lo+n → ∀ s : ℕ → α, (∀ j < id, P j (s j)) → s id = t id →
      P id (f s id)) (id : ℕ) (hid : id < lo+n) : P id (sweep f lo n t id) := by
  induction id using Nat.strong_induction_on with
  | _ id ih =>
    by_cases hlo : id < lo
    · rw [sweep_outside (.inl hlo)]
      exact hbefore id hlo
    · rw [sweep_inside (by omega) hid]
      refine hstep id (by omega) hid _ (fun j hj => ?_) (by simp)
      rw [if_pos hj]
      exact ih j hj (by omega)

end Sweep

namespace Bbsolver

open Aig

/-- `_lit_val`: node 1 is TRUE, whatever is stored for it. -/
def litVal (nv : ℕ → Bool) (lit : ℤ) : Bool := (nv lit.natAbs || lit.natAbs == 1) ^^ decide (lit < 0)

def freeVarFill (seed : BitVec 64) (varId limb : ℕ) : BitVec 64 :=
  let x := seed + 0x9E3779B97F4A7C15#64*(BitVec.ofNat 64 varId+1#64)
    + 0xD1B54A32D192ED03#64*(BitVec.ofNat 64 limb+1#64)
  let x := (x ^^^ x >>> 30)*0xBF58476D1CE4E5B9#64
  let x := (x ^^^ x >>> 27)*0x94D049BB133111EB#64
  x ^^^ x >>> 31

def Consistent (m : Aig) (nv : ℕ → Bool) : Prop :=
  ∀ id, 2 ≤ id → id ≤ m.nodes.size → m.isAndId id = true →
    nv id = (litVal nv (m.childrenOf id).1 && litVal nv (m.childrenOf id).2)

structure Model (m : Aig) (asserts : List ℤ) (nv : ℕ → Bool) : Prop where
  consistent : Consistent m nv
  holds : ∀ a ∈ asserts, litVal nv a = true

variable {m : Aig} {nv : ℕ → Bool}

theorem children_valid (hm : m.Wf) {id : ℕ} (h : m.isAndId id = true) :
    m.Valid (m.childrenOf id).1 ∧ m.Valid (m.childrenOf id).2 ∧
      (m.childrenOf id).1.natAbs < id ∧ (m.childrenOf id).2.natAbs < id := by
  simpa using hm.and_children h

theorem evalNode_gate (hm : m.Wf) (ρ : ℕ → Bool) {id : ℕ} (h : m.isAndId id = true) :
    m.evalNode ρ id = (m.evalLit ρ (m.childrenOf id).1 && m.evalLit ρ (m.childrenOf id).2) := by
  have hlit := hm.evalLit_and ρ h
  rw [evalLit] at hlit
  simpa using hlit

theorem isInput_or_and {id : ℕ} (h₁ : 2 ≤ id) (h₂ : id ≤ m.nodes.size) :
    (m.isInput id = true ∧ m.isAndId id = false) ∨ (m.isInput id = false ∧ m.isAndId id = true) := by
  have hc : ¬ ((id : ℤ) = 0 ∨ (id : ℤ) = aigTrue ∨ (id : ℤ) = aigFalse) := by
    simp only [aigTrue,aigFalse]
    omega
  have hs : ¬ (id : ℤ).natAbs > m.nodes.size := by simpa using h₂
  rw [isInput,isAndId,if_neg hc,if_neg hc,if_neg hs,if_neg hs,Int.natAbs_natCast]
  by_cases hl : (m.node id).left = 0
  · simp [hl]
  · simp [hl]

theorem isInput_spec {id : ℕ} (h : m.isInput id = true) :
    2 ≤ id ∧ id ≤ m.nodes.size ∧ (m.node id).left = 0 := by
  unfold isInput at h
  by_cases h1 : (id : ℤ) = 0 ∨ (id : ℤ) = aigTrue ∨ (id : ℤ) = aigFalse
  · rw [if_pos h1] at h
    exact absurd h (by simp)
  rw [if_neg h1] at h
  by_cases h2 : (id : ℤ).natAbs > m.nodes.size
  · rw [if_pos h2] at h
    exact absurd h (by simp)
  rw [if_neg h2] at h
  simp only [aigTrue,aigFalse] at h1
  rw [Int.natAbs_natCast] at h h2
  exact ⟨by omega,by omega,of_decide_eq_true h⟩

theorem evalNode_isInput (ρ : ℕ → Bool) {id : ℕ} (h : m.isInput id = true) :
    m.evalNode ρ id = ρ id := by
  obtain ⟨h1,_,h2⟩ := isInput_spec h
  rw [evalNode,if_neg (by omega),if_pos h2]

theorem Consistent.evalNode_eq (h : Consistent m nv) (hm : m.Wf) {id : ℕ} (h₁ : 1 ≤ id)
    (h₂ : id ≤ m.nodes.size) : m.evalNode nv id = (nv id || id == 1) := by
  induction id using Nat.strong_induction_on with
  | _ id ih =>
    by_cases hone : id = 1
    · rw [hone,Aigsim.evalNode_le_one m nv le_rfl]
      simp
    · have hne : (id == 1) = false := by simpa using hone
      rw [hne,Bool.or_false]
      rcases isInput_or_and (m:=m) (show 2 ≤ id by omega) h₂ with ⟨hin,_⟩ | ⟨_,hand⟩
      · exact evalNode_isInput nv hin
      · obtain ⟨hv1,hv2,hlt1,hlt2⟩ := children_valid hm hand
        rw [evalNode_gate hm nv hand,h id (by omega) h₂ hand,evalLit,evalLit,litVal,litVal,
          ih _ hlt1 (Nat.pos_of_ne_zero (by simpa using hv1.1)) (by omega),
          ih _ hlt2 (Nat.pos_of_ne_zero (by simpa using hv2.1)) (by omega)]

theorem Consistent.evalLit_eq (h : Consistent m nv) (hm : m.Wf) {l : ℤ} (hl : m.Valid l) :
    m.evalLit nv l = litVal nv l := by
  rw [evalLit,litVal,h.evalNode_eq hm (Nat.pos_of_ne_zero (by simpa using hl.1)) hl.2]

end Bbsolver
end DvSolve
