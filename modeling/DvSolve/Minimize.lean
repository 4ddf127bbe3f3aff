import Mathlib.Order.Minimal
import Mathlib.Data.Set.Finite.Powerset
import Mathlib.Order.Preorder.Finite

/-! Minimal sets of an upward closed property: divide and conquer over a background set,
and one deletion after another. -/
namespace DvSolve
namespace Minimize

variable {ι : Type*} {U : Set ι → Prop} {b c s s₁ s₂ : Set ι} {x : ι}

/-- `s` completes the background `b`, and no part of `s` that lacks an element does. -/
structure MinimalOver (U : Set ι → Prop) (b s : Set ι) : Prop where
  holds : U (b ∪ s)
  needed : ∀ x ∈ s, ¬U (b ∪ s \ {x})

theorem MinimalOver.empty (h : U b) : MinimalOver U b ∅ :=
  ⟨by rwa [Set.union_empty],fun _ hx => absurd hx (Set.notMem_empty _)⟩

theorem MinimalOver.singleton (hb : ¬U b) (h : U (b ∪ {x})) : MinimalOver U b {x} := by
  refine ⟨h,fun y hy => ?_⟩
  obtain rfl : y = x := hy
  rwa [Set.sdiff_self,Set.union_empty]

section
variable (hU : ∀ ⦃s t⦄, U t → t ⊆ s → U s)
include hU

theorem MinimalOver.union (h₂ : MinimalOver U (b ∪ c) s₂) (hc : s₁ ⊆ c)
    (h₁ : MinimalOver U (b ∪ s₂) s₁) : MinimalOver U b (s₂ ∪ s₁) := by
  refine ⟨by rw [← Set.union_assoc]; exact h₁.holds,fun x hx hu => ?_⟩
  rcases hx with hx | hx
  · refine h₂.needed x hx (hU hu fun y hy => ?_)
    rcases hy with hy | ⟨hy | hy,hne⟩
    · exact Or.inl (Or.inl hy)
    · exact Or.inr ⟨hy,hne⟩
    · exact Or.inl (Or.inr (hc hy))
  · refine h₁.needed x hx (hU hu fun y hy => ?_)
    rcases hy with hy | ⟨hy | hy,hne⟩
    · exact Or.inl (Or.inl hy)
    · exact Or.inl (Or.inr hy)
    · exact Or.inr ⟨hy,hne⟩

theorem MinimalOver.minimal (h : MinimalOver U ∅ s) : Minimal U s := by
  rw [Set.minimal_iff_forall_sdiff_singleton hU]
  refine ⟨by simpa using h.holds,fun x hx => ?_⟩
  simpa using h.needed x hx

theorem needed_deletion (h : ∀ y ∈ c, y ∈ s → ¬U (s \ {y})) (hx : U (s \ {x})) :
    ∀ y ∈ insert x c, y ∈ s \ {x} → ¬U ((s \ {x}) \ {y}) := by
  rintro y (rfl | hy) ⟨hs,hne⟩ hu
  · exact hne rfl
  · exact h y hy hs (hU hu (Set.sdiff_subset_sdiff_left Set.sdiff_subset))

end

end Minimize
end DvSolve
