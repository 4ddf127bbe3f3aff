import Mathlib.Tactic

/-! Runs of set bits of a number, found from the low end up. -/
namespace DvSolve
namespace BitRuns

/-- The last bit of the run of set bits below `w` that `j` stands in, at most `n` bits on. -/
def runEnd (m w : ℕ) : ℕ → ℕ → ℕ
  | 0, j => j
  | n+1, j => if j+1 < w ∧ m.testBit (j+1) then runEnd m w n (j+1) else j

def runs (m w : ℕ) : ℕ → ℕ → List (ℕ × ℕ)
  | 0, _ => []
  | n+1, i =>
    if i < w then
      if m.testBit i then (i,runEnd m w w i) :: runs m w n (runEnd m w w i+1) else runs m w n (i+1)
    else []

variable {m w : ℕ}

theorem runEnd_spec {n j : ℕ} (hj : j < w) (hm : m.testBit j = true) :
    j ≤ runEnd m w n j ∧ runEnd m w n j < w ∧ ∀ k, j ≤ k → k ≤ runEnd m w n j → m.testBit k = true := by
  induction n generalizing j with
  | zero =>
    refine ⟨le_refl _,hj,fun k h1 h2 => ?_⟩
    rwa [le_antisymm h2 h1]
  | succ n ih =>
    rw [runEnd]
    split_ifs with h
    · obtain ⟨hle,hlt,hall⟩ := ih h.1 h.2
      refine ⟨by omega,hlt,fun k h1 h2 => ?_⟩
      rcases Nat.eq_or_lt_of_le h1 with rfl | h1
      · exact hm
      · exact hall k h1 h2
    · refine ⟨le_refl _,hj,fun k h1 h2 => ?_⟩
      rwa [le_antisymm h2 h1]

theorem runs_set {n i : ℕ} {r : ℕ × ℕ} (h : r ∈ runs m w n i) :
    i ≤ r.1 ∧ r.1 ≤ r.2 ∧ r.2 < w ∧ ∀ k, r.1 ≤ k → k ≤ r.2 → m.testBit k = true := by
  induction n generalizing i with
  | zero => simp [runs] at h
  | succ n ih =>
    rw [runs] at h
    split_ifs at h with hi hm
    · rcases List.mem_cons.mp h with rfl | h
      · obtain ⟨hle,hlt,hall⟩ := runEnd_spec (n := w) hi hm
        exact ⟨le_refl _,hle,hlt,hall⟩
      · obtain ⟨h1,h2⟩ := ih h
        have := (runEnd_spec (n := w) hi hm).1
        exact ⟨by omega,h2⟩
    · obtain ⟨h1,h2⟩ := ih h
      exact ⟨by omega,h2⟩
    · simp at h

theorem exists_run {n i k : ℕ} (hn : w ≤ i+n) (hi : i ≤ k) (hk : k < w) (hm : m.testBit k = true) :
    ∃ r ∈ runs m w n i, r.1 ≤ k ∧ k ≤ r.2 := by
  induction n generalizing i with
  | zero => omega
  | succ n ih =>
    rw [runs,if_pos (by omega)]
    split_ifs with hb
    · have hend := (runEnd_spec (n := w) (show i < w by omega) hb).1
      by_cases hle : k ≤ runEnd m w w i
      · exact ⟨_,List.mem_cons_self,hi,hle⟩
      · obtain ⟨r,hr,h⟩ := ih (show w ≤ runEnd m w w i+1+n by omega) (by omega)
        exact ⟨r,List.mem_cons_of_mem _ hr,h⟩
    · have hne : i ≠ k := by
        rintro rfl
        exact hb hm
      exact ih (by omega) (by omega)

theorem testBit_iff_runs {k : ℕ} (hk : k < w) :
    m.testBit k = true ↔ ∃ r ∈ runs m w w 0, r.1 ≤ k ∧ k ≤ r.2 := by
  constructor
  · exact exists_run (by omega) (Nat.zero_le k) hk
  · rintro ⟨r,hr,h1,h2⟩
    exact (runs_set hr).2.2.2 k h1 h2

end BitRuns
end DvSolve
