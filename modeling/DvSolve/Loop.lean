import Mathlib.Tactic

/-! Loops with an explicit bound on the number of rounds.
A body either leaves the loop or goes round again; the rules below turn an
invariant with a decreasing variant into the existence of a result, so that a
bounded loop is known to have run to its end. -/
namespace DvSolve
namespace Loop

inductive Step (σ ρ : Type*)
  | exit (r : ρ)
  | again (s : σ)

variable {σ ρ : Type*}

/-- At most `n` rounds of `body`; `none` when the bound is reached first. -/
def loop (body : σ → Step σ ρ) : ℕ → σ → Option ρ
  | 0, _ => none
  | n+1, s =>
    match body s with
    | .exit r => some r
    | .again s' => loop body n s'

/-- What a round must establish: the result on leaving, otherwise the invariant
at a smaller variant. -/
def Step.Good (Inv : σ → Prop) (Post : ρ → Prop) (μ : σ → ℕ) (s : σ) : Step σ ρ → Prop
  | .exit r => Post r
  | .again s' => Inv s' ∧ μ s' < μ s

theorem Step.Good.mono {Inv : σ → Prop} {Post Post' : ρ → Prop} {μ : σ → ℕ} {s : σ}
    {t : Step σ ρ} (h : t.Good Inv Post μ s) (hpost : ∀ r, Post r → Post' r) :
    t.Good Inv Post' μ s := by
  cases t with
  | exit r => exact hpost r h
  | again s' => exact h

theorem loop_spec {body : σ → Step σ ρ} {Inv : σ → Prop} {Post : ρ → Prop} (μ : σ → ℕ)
    (hbody : ∀ s, Inv s → (body s).Good Inv Post μ s) (n : ℕ) (s : σ)
    (hs : Inv s) (hn : μ s < n) : ∃ r, loop body n s = some r ∧ Post r := by
  induction n generalizing s with
  | zero => omega
  | succ n ih =>
    have hb := hbody s hs
    rw [loop]
    cases hr : body s with
    | exit r =>
      rw [hr] at hb
      exact ⟨r,rfl,hb⟩
    | again s' =>
      rw [hr] at hb
      have hlt : μ s' < n := lt_of_lt_of_le hb.2 (by omega)
      exact ih s' hb.1 hlt

theorem loop_exit_of {body : σ → Step σ ρ} {Post : ρ → Prop}
    (hbody : ∀ s r, body s = .exit r → Post r) {n : ℕ} {s : σ} {r : ρ}
    (h : loop body n s = some r) : Post r := by
  induction n generalizing s with
  | zero => simp [loop] at h
  | succ n ih =>
    rw [loop] at h
    cases hb : body s with
    | exit r' =>
      rw [hb] at h
      obtain rfl : r' = r := by simpa using h
      exact hbody s _ hb
    | again s' =>
      rw [hb] at h
      exact ih h

def searchVariant {α : Type*} [DecidableEq α] (k : ℕ) (U seen : Finset α) (stack : ℕ) : ℕ :=
  stack + k * (U \ seen).card

theorem searchVariant_visit {α : Type*} [DecidableEq α] (k : ℕ) {U seen : Finset α} {c : α}
    (hc : c ∈ U) (h : c ∉ seen) {m n : ℕ} (hm : m < n+k) :
    searchVariant k U (insert c seen) m < searchVariant k U seen n := by
  have hmem : c ∈ U \ seen := Finset.mem_sdiff.mpr ⟨hc,h⟩
  have herase : U \ insert c seen = (U \ seen).erase c := by
    ext x
    simp only [Finset.mem_sdiff,Finset.mem_insert,Finset.mem_erase]
    tauto
  have hcard : k * (U \ seen).card = k * (U \ insert c seen).card + k := by
    rw [herase,← Finset.card_erase_add_one hmem,Nat.mul_add,Nat.mul_one]
  unfold searchVariant
  omega

theorem searchVariant_mono {α : Type*} [DecidableEq α] (k : ℕ) {U seen seen' : Finset α}
    (h : seen ⊆ seen') {m n : ℕ} (hm : m < n) :
    searchVariant k U seen' m < searchVariant k U seen n := by
  have hcard := Finset.card_le_card (Finset.sdiff_subset_sdiff (le_refl U) h)
  have hmul := Nat.mul_le_mul_left k hcard
  unfold searchVariant
  omega

inductive Reach (body : σ → Step σ ρ) : ℕ → σ → σ → Prop
  | refl (s : σ) : Reach body 0 s s
  | step {k : ℕ} {s t u : σ} : body s = .again t → Reach body k t u → Reach body (k+1) s u

theorem Reach.trans {body : σ → Step σ ρ} {j k : ℕ} {s t u : σ} (h : Reach body j s t)
    (h' : Reach body k t u) : Reach body (j+k) s u := by
  induction h with
  | refl s => simpa using h'
  | step hs _ ih => simpa [Nat.add_right_comm] using Reach.step hs (ih h')

theorem Reach.single {body : σ → Step σ ρ} {s t : σ} (h : body s = .again t) :
    Reach body 1 s t := .step h (.refl t)

theorem Reach.keeps {body : σ → Step σ ρ} {Inv : σ → Prop}
    (hbody : ∀ s t, Inv s → body s = .again t → Inv t) {k : ℕ} {s t : σ} (h : Reach body k s t)
    (hs : Inv s) : Inv t := by
  induction h with
  | refl s => exact hs
  | step hstep _ ih => exact ih (hbody _ _ hs hstep)

theorem Reach.loop_eq {body : σ → Step σ ρ} {k n : ℕ} {s t : σ} {r : ρ} (h : Reach body k s t)
    (ht : body t = .exit r) (hn : k < n) : loop body n s = some r := by
  induction h generalizing n with
  | refl s =>
    obtain ⟨n,rfl⟩ : ∃ n', n = n'+1 := ⟨n-1,by omega⟩
    rw [loop,ht]
  | step hs _ ih =>
    obtain ⟨n,rfl⟩ : ∃ n', n = n'+1 := ⟨n-1,by omega⟩
    rw [loop,hs]
    exact ih ht (by omega)

end Loop
end DvSolve
