import Mathlib.Tactic

/-! Expressions held in a pool.
A node names its operands by their place and comes after them, so a pool is read in one
pass; changing a node for one that means the same changes no meaning. -/
namespace DvSolve
namespace NodePool

variable {α M : Type*}

def denote (sem : α → (ℕ → M) → M) (null : M) (nodes : List α) (r : ℕ) : M :=
  match nodes[r]? with
  | none => null
  | some n => sem n fun c => if c < r then denote sem null nodes c else null
termination_by r

variable {sem sem' : α → (ℕ → M) → M} {null : M} {nodes nodes' : List α} {r : ℕ}

theorem denote_none (h : nodes[r]? = none) : denote sem null nodes r = null := by
  rw [denote,h]

theorem denote_some {n : α} (h : nodes[r]? = some n) :
    denote sem null nodes r = sem n fun c => if c < r then denote sem null nodes c else null := by
  rw [denote,h]

theorem denote_step (hn : nodes[r]? = nodes'[r]?)
    (hs : ∀ n, nodes[r]? = some n → ∀ m, sem n m = sem' n m)
    (h : ∀ c < r, denote sem null nodes c = denote sem' null nodes' c) :
    denote sem null nodes r = denote sem' null nodes' r := by
  cases hr : nodes[r]? with
  | none => rw [denote_none hr,denote_none (hn ▸ hr)]
  | some n =>
    rw [denote_some hr,denote_some (hn ▸ hr),hs n hr]
    congr 1
    funext c
    split_ifs with hc
    · exact h c hc
    · rfl

end NodePool
end DvSolve
