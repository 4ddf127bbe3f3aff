import Mathlib.Tactic
import Mathlib.Order.UpperLower.Basic

/-! Greedy selection from a ranked set. `F` is the family of the feasible sets, closed under
subsets; the members of `U` are gone through by ascending `key`, and each is kept when it is
feasible with those kept before. -/
namespace DvSolve
namespace Greedy

variable {α β : Type*} [LinearOrder β] {F : Set (Set α)} {key : α → β} {U D K L : Set α} {a b : α}

def before (key : α → β) (K : Set α) (a : α) : Set α := {b | b ∈ K ∧ key b < key a}

theorem before_subset : before key K a ⊆ K := fun _ h => h.1

theorem before_eq_self (h : ∀ b ∈ K, key b < key a) : before key K a = K :=
  Set.Subset.antisymm before_subset fun b hb => ⟨hb,h b hb⟩

theorem before_insert_of_le (h : key b ≤ key a) : before key (insert a K) b = before key K b := by
  ext c
  refine ⟨fun hc => ⟨hc.1.resolve_left ?_,hc.2⟩,fun hc => ⟨.inr hc.1,hc.2⟩⟩
  rintro rfl
  exact absurd hc.2 (not_lt.mpr h)

structure IsGreedy (F : Set (Set α)) (key : α → β) (U K : Set α) : Prop where
  sub : K ⊆ U
  keep : ∀ a ∈ U, a ∈ K ↔ insert a (before key K a) ∈ F

theorem IsGreedy.unique [WellFoundedLT β] (hK : IsGreedy F key U K) (hL : IsGreedy F key U L) :
    K = L := by
  have h : ∀ k : β, ∀ a, key a = k → (a ∈ K ↔ a ∈ L) := by
    intro k
    induction k using WellFoundedLT.induction with
    | ind k ih =>
      rintro a rfl
      by_cases ha : a ∈ U
      · have hbefore : before key K a = before key L a := by
          ext b
          exact and_congr_left fun hb => ih (key b) hb b rfl
        rw [hK.keep a ha,hL.keep a ha,hbefore]
      · exact iff_of_false (fun h => ha (hK.sub h)) fun h => ha (hL.sub h)
  ext a
  exact h (key a) a rfl

theorem IsGreedy.eq_of_feasible (hF : IsLowerSet F) (hK : IsGreedy F key U K) (hL : L ∈ F)
    (hKL : K ⊆ L) (hLU : L ⊆ U) : L = K := by
  refine Set.Subset.antisymm (fun a ha => ?_) hKL
  refine (hK.keep a (hLU ha)).mpr (hF ?_ hL)
  exact Set.insert_subset ha (before_subset.trans hKL)

/-- The choice so far: `D` is a first part of `U`, and `K` is kept of it. -/
structure Upto (F : Set (Set α)) (key : α → β) (U D K : Set α) : Prop where
  sub : K ⊆ D
  inside : D ⊆ U
  closed : ∀ a ∈ D, ∀ b ∈ U, key b < key a → b ∈ D
  keep : ∀ a ∈ D, a ∈ K ↔ insert a (before key K a) ∈ F
  feasible : K ∈ F

theorem Upto.isGreedy (h : Upto F key U U K) : IsGreedy F key U K := ⟨h.sub,h.keep⟩

theorem Upto.whole (hF : IsLowerSet F) (hDU : D ⊆ U)
    (hclosed : ∀ a ∈ D, ∀ b ∈ U, key b < key a → b ∈ D) (hD : D ∈ F) : Upto F key U D D := by
  refine ⟨Set.Subset.rfl,hDU,hclosed,fun a ha => iff_of_true ha ?_,hD⟩
  exact hF (Set.insert_subset ha before_subset) hD

theorem Upto.empty (hF : IsLowerSet F) (h : ∅ ∈ F) : Upto F key U ∅ ∅ :=
  .whole hF (Set.empty_subset U) (fun a ha => absurd ha (Set.notMem_empty a)) h

/-- The first one of `U` that is not in `D`. -/
structure Next (key : α → β) (U D : Set α) (a : α) : Prop where
  mem : a ∈ U
  new : a ∉ D
  least : ∀ b ∈ U, b ∉ D → key a ≤ key b

section Step

variable (hkey : Function.Injective key) (h : Upto F key U D K) (ha : Next key U D a)
include hkey h ha

theorem Upto.lt_next : ∀ b ∈ D, key b < key a := by
  intro b hb
  have hle : key b ≤ key a := not_lt.mp fun hlt => ha.new (h.closed b hb a ha.mem hlt)
  refine lt_of_le_of_ne hle fun he => ha.new ?_
  rw [← hkey he]
  exact hb

omit hkey in
theorem Upto.next_closed : ∀ b ∈ insert a D, ∀ c ∈ U, key c < key b → c ∈ insert a D := by
  rintro b (rfl | hb) c hc hlt
  · by_contra hn
    have hle : key b ≤ key c := ha.least c hc fun hcD => hn (.inr hcD)
    exact absurd hlt (not_lt.mpr hle)
  · exact .inr (h.closed b hb c hc hlt)

theorem Upto.take (hF : insert a K ∈ F) : Upto F key U (insert a D) (insert a K) := by
  have hlt := h.lt_next hkey ha
  refine ⟨Set.insert_subset_insert h.sub,Set.insert_subset ha.mem h.inside,h.next_closed ha,?_,hF⟩
  rintro b (rfl | hb)
  · rw [before_insert_of_le le_rfl,before_eq_self fun c hc => hlt c (h.sub hc)]
    exact iff_of_true (Set.mem_insert _ _) hF
  · rw [before_insert_of_le (hlt b hb).le,← h.keep b hb]
    refine ⟨fun hm => hm.resolve_left ?_,.inr⟩
    rintro rfl
    exact ha.new hb

theorem Upto.skip (hF : insert a K ∉ F) : Upto F key U (insert a D) K := by
  have hlt := h.lt_next hkey ha
  refine ⟨h.sub.trans (Set.subset_insert a D),Set.insert_subset ha.mem h.inside,
    h.next_closed ha,?_,h.feasible⟩
  rintro b (rfl | hb)
  · rw [before_eq_self fun c hc => hlt c (h.sub hc)]
    exact iff_of_false (fun hb => ha.new (h.sub hb)) hF
  · exact h.keep b hb

end Step

end Greedy
end DvSolve
