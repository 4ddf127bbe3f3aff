import Mathlib.Data.List.TakeDrop
import Mathlib.Tactic

/-! Logs that closing a scope cuts back.
A log can be undone in two ways: cut it at the length it had when the scope was
opened, or drop the entries tagged with a deeper scope. The two agree as long as
every entry is tagged with the depth it is made at. -/
namespace DvSolve
namespace ScopedLog

variable {α : Type*}
variable {L : List (ℕ × α)} {marks : List ℕ}

def upTo (k : ℕ) (L : List (ℕ × α)) : List (ℕ × α) := L.filter (fun e => e.1 ≤ k)

theorem mem_upTo {k : ℕ} {e : ℕ × α} : e ∈ upTo k L ↔ e ∈ L ∧ e.1 ≤ k := by
  simp [upTo]

theorem upTo_upTo {j k : ℕ} (h : j ≤ k) (L : List (ℕ × α)) : upTo j (upTo k L) = upTo j L := by
  unfold upTo
  rw [List.filter_filter]
  apply List.filter_congr
  intro e _
  by_cases he : e.1 ≤ j
  · simp [he,he.trans h]
  · simp [he]

theorem upTo_length_le {j k : ℕ} (h : j ≤ k) (L : List (ℕ × α)) :
    (upTo j L).length ≤ (upTo k L).length := by
  rw [← upTo_upTo h L]
  exact List.length_filter_le _ _

theorem upTo_self {k : ℕ} (h : ∀ e ∈ L, e.1 ≤ k) : upTo k L = L :=
  List.filter_eq_self.mpr (by simpa using h)

/-- `marks` holds, outermost first, the length the tagged log `L` had when each open
scope was opened. -/
structure Scoped (marks : List ℕ) (L : List (ℕ × α)) : Prop where
  tag_le : ∀ e ∈ L, e.1 ≤ marks.length
  cut : ∀ k n, marks[k]? = some n → upTo k L = L.take n ∧ n ≤ L.length

theorem Scoped.nil : Scoped [] ([] : List (ℕ × α)) := ⟨by simp,by simp⟩

theorem Scoped.push (h : Scoped marks L) (a : α) :
    Scoped marks (L++[(marks.length,a)]) := by
  constructor
  · intro e he
    rcases List.mem_append.mp he with he | he
    · exact h.tag_le e he
    · rw [List.mem_singleton.mp he]
  · intro k n hk
    obtain ⟨hcut,hn⟩ := h.cut k n hk
    have hlt : k < marks.length := (List.getElem?_eq_some_iff.mp hk).1
    have hnew : upTo k [(marks.length,a)] = [] := by simp [upTo,hlt]
    constructor
    · rw [List.take_append_of_le_length hn,← hcut]
      unfold upTo at hnew ⊢
      rw [List.filter_append,hnew,List.append_nil]
    · simp only [List.length_append]
      omega

theorem Scoped.checkpoint (h : Scoped marks L) :
    Scoped (marks++[L.length]) L := by
  constructor
  · intro e he
    have := h.tag_le e he
    simp only [List.length_append]
    omega
  · intro k n hk
    rcases Nat.lt_or_ge k marks.length with hlt | hge
    · rw [List.getElem?_append_left hlt] at hk
      exact h.cut k n hk
    · obtain ⟨rfl,rfl⟩ : k = marks.length ∧ n = L.length := by
        rw [List.getElem?_append_right hge] at hk
        obtain ⟨h0,hn⟩ := List.getElem?_eq_some_iff.mp hk
        simp only [List.length_singleton] at h0
        exact ⟨by omega,by simpa using hn.symm⟩
      exact ⟨by rw [upTo_self h.tag_le,List.take_length],le_rfl⟩

theorem Scoped.cut_le (h : Scoped marks L) {j k m n : ℕ} (hjk : j ≤ k) (hj : marks[j]? = some m)
    (hk : marks[k]? = some n) : m ≤ n := by
  obtain ⟨hcut,hm⟩ := h.cut j m hj
  obtain ⟨hcut',hn⟩ := h.cut k n hk
  have hle := upTo_length_le hjk L
  rw [hcut,hcut',List.length_take,List.length_take] at hle
  omega

/-- Cutting at a mark and dropping the deeper entries are the same. -/
theorem Scoped.restore (h : Scoped marks L) {cp n : ℕ} (hcp : marks[cp]? = some n) :
    L.take n = upTo cp L ∧ Scoped (marks.take cp) (upTo cp L) := by
  obtain ⟨hcut,hn⟩ := h.cut cp n hcp
  have hlt : cp < marks.length := (List.getElem?_eq_some_iff.mp hcp).1
  refine ⟨hcut.symm,?_,?_⟩
  · intro e he
    rw [List.length_take,min_eq_left hlt.le]
    exact (mem_upTo.mp he).2
  · intro k m hk
    obtain ⟨hk',hm⟩ := List.getElem?_eq_some_iff.mp hk
    simp only [List.length_take] at hk'
    rw [List.getElem_take] at hm
    obtain ⟨hcut',hm'⟩ := h.cut k m (List.getElem?_eq_some_iff.mpr ⟨by omega,hm⟩)
    have hmn : m ≤ n :=
      h.cut_le (show k ≤ cp by omega) (List.getElem?_eq_some_iff.mpr ⟨by omega,hm⟩) hcp
    constructor
    · rw [upTo_upTo (by omega),hcut',hcut,List.take_take,min_eq_left hmn]
    · rw [hcut,List.length_take]
      omega

theorem Scoped.innermost {ms : List ℕ} {n : ℕ} (h : Scoped (ms++[n]) L) :
    L.drop n = L.filter (fun e => e.1 = ms.length+1) := by
  obtain ⟨hcut,hn⟩ := h.cut ms.length n (by simp)
  have hmem : ∀ e ∈ L.take n, ¬ e.1 = ms.length+1 := by
    intro e he
    rw [← hcut] at he
    have := (mem_upTo.mp he).2
    omega
  have hlater : upTo ms.length (L.drop n) = [] := by
    have hsplit : upTo ms.length L = upTo ms.length (L.take n) ++ upTo ms.length (L.drop n) := by
      unfold upTo
      rw [← List.filter_append,List.take_append_drop]
    have hfirst : upTo ms.length (L.take n) = L.take n := by
      rw [← hcut,upTo_upTo le_rfl]
    rw [hfirst,hcut] at hsplit
    exact List.append_right_eq_self.mp hsplit.symm
  have hdrop : ∀ e ∈ L.drop n, e.1 = ms.length+1 := by
    intro e he
    have hle := h.tag_le e (List.mem_of_mem_drop he)
    simp only [List.length_append,List.length_singleton] at hle
    by_contra hne
    have : e ∈ upTo ms.length (L.drop n) := mem_upTo.mpr ⟨he,by omega⟩
    rw [hlater] at this
    cases this
  nth_rewrite 2 [← List.take_append_drop n L]
  rw [List.filter_append,List.filter_eq_nil_iff.mpr (by simpa using hmem),
    List.filter_eq_self.mpr (by simpa using hdrop),List.nil_append]

end ScopedLog
end DvSolve
