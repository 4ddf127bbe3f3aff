import DvSolve.Greedy
import DvSolve.Maxsat

/-! What the two engines keep of the softs. Each engine's loop is the greedy choice carried on
from a first part of the ranking; the bit-blast solver starts from nothing, the search engine
from what its dropping leaves. -/
namespace DvSolve
namespace Maxsat

open Greedy

variable {V : Type*} {p : Problem V}

/-- The `i`th soft holds under `m`. -/
def Problem.Meets (p : Problem V) (m : V) (i : ℕ) : Prop := ∀ ss ∈ p.softs[i]?, ss.root m

def Problem.indices (p : Problem V) : Set ℕ := {i | i < p.softs.length}

/-- The sets of softs that are satisfiable with the hard constraints. -/
def Problem.feasible (p : Problem V) : Set (Set ℕ) := {S | ∃ m, p.hard m ∧ ∀ i ∈ S, p.Meets m i}

/-- Softs rank by priority value, then by position. -/
def Problem.key (p : Problem V) (i : ℕ) : ℕ ×ₗ ℕ := toLex (p.pri i,i)

theorem Problem.key_injective (p : Problem V) : Function.Injective p.key := fun _ _ h =>
  congrArg (fun k => (ofLex k).2) h

theorem Problem.key_lt {a b : ℕ} : p.key a < p.key b ↔ ahead p.pri a b := Prod.Lex.toLex_lt_toLex

theorem Problem.key_le {a b : ℕ} :
    p.key a ≤ p.key b ↔ p.pri a < p.pri b ∨ p.pri a = p.pri b ∧ a ≤ b := Prod.Lex.toLex_le_toLex

theorem Problem.feasible_lower (p : Problem V) : IsLowerSet p.feasible := by
  rintro S T hTS ⟨m,hm,hS⟩
  exact ⟨m,hm,fun i hi => hS i (hTS hi)⟩

theorem Problem.empty_feasible : ∅ ∈ p.feasible ↔ ∃ m, p.hard m :=
  exists_congr fun _ => and_iff_left fun _ h => absurd h (Set.notMem_empty _)

theorem Problem.meets_outside {m : V} {i : ℕ} (h : i ∉ p.indices) : p.Meets m i := by
  intro ss hs
  rw [List.getElem?_eq_none (not_lt.mp h)] at hs
  exact absurd hs (Option.not_mem_none _)

def Problem.Keeps (p : Problem V) (K : Set ℕ) : Prop := IsGreedy p.feasible p.key p.indices K

structure Problem.Models (p : Problem V) (m : V) (K : Set ℕ) : Prop where
  hard : p.hard m
  softs : ∀ i ∈ p.indices, p.Meets m i ↔ i ∈ K

theorem Problem.Keeps.models {K : Set ℕ} (hK : p.Keeps K) {m : V} (hm : p.hard m)
    (hmeets : ∀ i ∈ K, p.Meets m i) : p.Models m K := by
  let L : Set ℕ := {i | i ∈ p.indices ∧ p.Meets m i}
  have hL : L = K := hK.eq_of_feasible p.feasible_lower ⟨m,hm,fun i hi => hi.2⟩
    (fun i hi => ⟨hK.sub hi,hmeets i hi⟩) fun i hi => hi.1
  refine ⟨hm,fun i hi => ?_⟩
  rw [← hL]
  exact (and_iff_right hi).symm

def marks (keep : ℕ → Bool) : Set ℕ := {i | keep i = true}

theorem marks_mark (keep : ℕ → Bool) (i : ℕ) :
    marks (Function.update keep i true) = insert i (marks keep) := by
  ext j
  by_cases hj : j = i
  · subst hj
    simp [marks]
  · simp [marks,hj]

theorem mem_kept {keep : ℕ → Bool} (m : V) (l : List (SoftSpec V)) (si : ℕ) :
    (∀ root ∈ kept keep si l, root m) ↔ ∀ i, keep (si+i) = true → ∀ ss ∈ l[i]?, ss.root m := by
  induction l generalizing si with
  | nil => simp [kept]
  | cons ss cur ih =>
    have htail : (∀ root ∈ kept keep (si+1) cur, root m) ↔
        ∀ i, keep (si+(i+1)) = true → ∀ ss ∈ cur[i]?, ss.root m := by
      rw [ih (si+1)]
      exact forall_congr' fun i => by rw [show si+1+i = si+(i+1) by omega]
    have hsplit : (∀ i, keep (si+i) = true → ∀ s ∈ (ss::cur)[i]?, s.root m) ↔
        (keep si = true → ss.root m) ∧ ∀ i, keep (si+(i+1)) = true → ∀ s ∈ cur[i]?, s.root m := by
      constructor
      · refine fun h => ⟨fun h0 => h 0 h0 ss rfl,fun i hi s hs => h (i+1) hi s ?_⟩
        rw [List.getElem?_cons_succ]
        exact hs
      · rintro ⟨h0,h1⟩ i hi s hs
        cases i with
        | zero =>
          obtain rfl : ss = s := Option.some.inj hs
          exact h0 hi
        | succ i =>
          rw [List.getElem?_cons_succ] at hs
          exact h1 i hi s hs
    rw [hsplit,← htail,kept]
    by_cases hk : keep si = true
    · rw [if_pos hk,List.forall_mem_cons]
      exact and_congr_left fun _ => ⟨fun h _ => h,fun h => h hk⟩
    · rw [if_neg hk]
      exact (and_iff_right fun h => absurd h hk).symm

theorem kept_models {keep : ℕ → Bool} (m : V) :
    (∀ root ∈ kept keep 0 p.softs, root m) ↔ ∀ i ∈ marks keep, p.Meets m i := by
  rw [mem_kept]
  exact forall_congr' fun i => by rw [Nat.zero_add]; rfl

structure Exact (p : Problem V) (solve : Solve V) : Prop where
  sat_of : ∀ k roots, (∃ m, p.hard m ∧ ∀ root ∈ roots, root m) →
    ∃ m, solve k roots = some (.sat m) ∧ p.hard m ∧ ∀ root ∈ roots, root m
  unsat_of : ∀ k roots, (¬ ∃ m, p.hard m ∧ ∀ root ∈ roots, root m) → solve k roots = some .unsat

section Answers

variable {solve : Solve V} (hE : Exact p solve) {keep : ℕ → Bool} (k : ℕ)
include hE

theorem Exact.sat (h : marks keep ∈ p.feasible) :
    ∃ m, solve k (kept keep 0 p.softs) = some (.sat m) ∧ p.hard m ∧ ∀ i ∈ marks keep, p.Meets m i := by
  obtain ⟨m,hm,hmeets⟩ := h
  obtain ⟨m',h1,h2,h3⟩ := hE.sat_of k _ ⟨m,hm,(kept_models m).mpr hmeets⟩
  exact ⟨m',h1,h2,(kept_models m').mp h3⟩

theorem Exact.unsat (h : marks keep ∉ p.feasible) :
    solve k (kept keep 0 p.softs) = some .unsat := by
  refine hE.unsat_of k _ ?_
  rintro ⟨m,hm,hroots⟩
  exact h ⟨m,hm,(kept_models m).mp hroots⟩

end Answers

section Order

variable {n : ℕ}

theorem bestJ_spec (order : ℕ → ℕ) {i : ℕ} (hi : i < n) :
    i ≤ bestJ p.pri n order i ∧ bestJ p.pri n order i < n ∧
      ∀ j, i ≤ j → j < n → p.key (order (bestJ p.pri n order i)) ≤ p.key (order j) := by
  have hscan : ∀ d lo best, i ≤ best → best < lo → (∀ j, i ≤ j → j < lo →
      p.key (order best) ≤ p.key (order j)) → ∀ r, r = (List.range' lo d).foldl
        (fun best j => if ahead p.pri (order j) (order best) then j else best) best →
      i ≤ r ∧ r < lo+d ∧ ∀ j, i ≤ j → j < lo+d → p.key (order r) ≤ p.key (order j) := by
    intro d
    induction d with
    | zero =>
      rintro lo best h1 h2 h3 r rfl
      exact ⟨h1,h2,h3⟩
    | succ d ih =>
      intro lo best h1 h2 h3 r hr
      rw [List.range'_succ,List.foldl_cons] at hr
      rw [show lo+(d+1) = lo+1+d by omega]
      by_cases ha : ahead p.pri (order lo) (order best)
      · rw [if_pos ha] at hr
        refine ih (lo+1) lo (by omega) (by omega) (fun j hij hj => ?_) r hr
        obtain rfl | hlt : j = lo ∨ j < lo := by omega
        · exact le_rfl
        · exact (p.key_lt.mpr ha).le.trans (h3 j hij hlt)
      · rw [if_neg ha] at hr
        refine ih (lo+1) best h1 (by omega) (fun j hij hj => ?_) r hr
        obtain rfl | hlt : j = lo ∨ j < lo := by omega
        · exact not_lt.mp fun h => ha (p.key_lt.mp h)
        · exact h3 j hij hlt
  have hlen : i+1+(n-(i+1)) = n := by omega
  have h := hscan (n-(i+1)) (i+1) i le_rfl (Nat.lt_succ_self i) (fun j h1 h2 => ?_) _ rfl
  · rw [hlen] at h
    exact h
  · obtain rfl : j = i := by omega
    exact le_rfl

/-- The order after `k` rounds: all positions, with the `k` most preferred in their places. -/
structure Sorted (p : Problem V) (n k : ℕ) (order : ℕ → ℕ) : Prop where
  perm : ∃ σ : Equiv.Perm ℕ, order = σ ∧ ∀ i, n ≤ i → σ i = i
  sorted : ∀ a b, a < k → a < b → b < n → p.key (order a) < p.key (order b)

theorem sortRound_eq (order : ℕ → ℕ) (i : ℕ) :
    sortRound p.pri n order i = order ∘ Equiv.swap i (bestJ p.pri n order i) := by
  rw [Equiv.swap_comm,Equiv.comp_swap_eq_update]
  rfl

theorem sorted_round {order : ℕ → ℕ} {k : ℕ} (hk : k < n) (h : Sorted p n k order) :
    Sorted p n (k+1) (sortRound p.pri n order k) := by
  obtain ⟨hlow,hhigh,hleast⟩ := bestJ_spec (p := p) order hk
  obtain ⟨σ,hσ,hfix⟩ := h.perm
  rw [sortRound_eq]
  generalize bestJ p.pri n order k = best at *
  refine ⟨⟨(Equiv.swap k best).trans σ,by rw [hσ]; rfl,fun i hi => ?_⟩,fun a b ha hab hb => ?_⟩
  · rw [Equiv.trans_apply,Equiv.swap_apply_of_ne_of_ne (by omega) (by omega),hfix i hi]
  · have hswap : ∀ j, k ≤ j → j < n → k ≤ Equiv.swap k best j ∧ Equiv.swap k best j < n := by
      intro j hj hjn
      by_cases h1 : j = k
      · rw [h1,Equiv.swap_apply_left]
        exact ⟨hlow,hhigh⟩
      by_cases h2 : j = best
      · rw [h2,Equiv.swap_apply_right]
        exact ⟨le_rfl,hk⟩
      · rw [Equiv.swap_apply_of_ne_of_ne h1 h2]
        exact ⟨hj,hjn⟩
    rw [Function.comp_apply,Function.comp_apply]
    obtain rfl | halt : a = k ∨ a < k := by omega
    · obtain ⟨h1,h2⟩ := hswap b (by omega) hb
      rw [Equiv.swap_apply_left]
      refine lt_of_le_of_ne (hleast _ h1 h2) fun he => ?_
      have hsame : best = Equiv.swap a best b := by
        refine σ.injective ?_
        rw [← hσ]
        exact p.key_injective he
      have hba : b = a := (Equiv.swap a best).injective
        (hsame.symm.trans (Equiv.swap_apply_left a best).symm)
      omega
    · rw [Equiv.swap_apply_of_ne_of_ne (show a ≠ k by omega) (show a ≠ best by omega)]
      by_cases hbk : k ≤ b
      · obtain ⟨h1,h2⟩ := hswap b hbk hb
        exact h.sorted a _ halt (by omega) h2
      · rw [Equiv.swap_apply_of_ne_of_ne (show b ≠ k by omega) (show b ≠ best by omega)]
        exact h.sorted a b halt hab hb

theorem sortOrder_sorted {k : ℕ} (hk : k ≤ n) : Sorted p n k (sortOrder p.pri n k) := by
  induction k with
  | zero => exact ⟨⟨Equiv.refl ℕ,rfl,fun _ _ => rfl⟩,fun a b ha => absurd ha (Nat.not_lt_zero a)⟩
  | succ k ih =>
    rw [sortOrder,List.range_succ,List.foldl_append]
    exact sorted_round (by omega) (ih (by omega))

variable {order : ℕ → ℕ}

theorem Sorted.inside {k : ℕ} (h : Sorted p n k order) {i : ℕ} : order i < n ↔ i < n := by
  obtain ⟨σ,rfl,hfix⟩ := h.perm
  constructor
  · intro hi
    by_contra hn
    rw [hfix i (not_lt.mp hn)] at hi
    exact hn hi
  · intro hi
    by_contra hn
    have hsame : σ i = i := σ.injective (hfix (σ i) (not_lt.mp hn))
    rw [hsame] at hn
    exact hn hi

theorem Sorted.next (h : Sorted p p.softs.length p.softs.length order) {k : ℕ}
    (hk : k < p.softs.length) : Next p.key p.indices (order '' {j | j < k}) (order k) := by
  obtain ⟨σ,rfl,_⟩ := h.perm
  refine ⟨h.inside.mpr hk,?_,fun b hb hnew => ?_⟩
  · rintro ⟨j,hj,he⟩
    have hjk : j = k := σ.injective he
    exact absurd hj (by rw [Set.mem_ofPred_eq]; omega)
  · obtain ⟨j,rfl⟩ := σ.surjective b
    have hjn : j < p.softs.length := h.inside.mp hb
    have hkj : k ≤ j := not_lt.mp fun hlt => hnew ⟨j,hlt,rfl⟩
    obtain rfl | hlt : k = j ∨ k < j := by omega
    · exact le_rfl
    · exact (h.sorted k j hk hlt hjn).le

end Order

section Add

variable {solve : Solve V} {order : ℕ → ℕ}

/-- The choice among the first `k` of the order, and the solver that is `best`. -/
structure Added (p : Problem V) (order : ℕ → ℕ) (k : ℕ) (s : Best V) : Prop where
  upto : Upto p.feasible p.key p.indices (order '' {j | j < k}) (marks s.1)
  hard : p.hard s.2
  meets : ∀ i ∈ marks s.1, p.Meets s.2 i

theorem first_succ (k : ℕ) : order '' {j | j < k+1} = insert (order k) (order '' {j | j < k}) := by
  rw [← Set.image_insert_eq]
  refine congrArg (order '' ·) (Set.ext fun j => ?_)
  rw [Set.mem_insert_iff,Set.mem_ofPred_eq,Set.mem_ofPred_eq]
  omega

theorem tryAdd_added (hE : Exact p solve) (ho : Sorted p p.softs.length p.softs.length order)
    {k : ℕ} (hk : k < p.softs.length) {s : Best V} (h : Added p order k s) :
    Added p order (k+1) (tryAdd solve p order s k) := by
  have hnext := ho.next hk
  have hoff : order k ∉ marks s.1 := fun hm => hnext.new (h.upto.sub hm)
  have hmark := marks_mark s.1 (order k)
  unfold tryAdd
  by_cases hF : insert (order k) (marks s.1) ∈ p.feasible
  · rw [← hmark] at hF
    obtain ⟨m,hs,hm,hmeets⟩ := hE.sat (2+k) hF
    simp only [hs]
    refine ⟨?_,hm,hmeets⟩
    rw [hmark] at hF ⊢
    rw [first_succ]
    exact h.upto.take p.key_injective hnext hF
  · rw [← hmark] at hF
    have hback : Function.update s.1 (order k) false = s.1 := by
      rw [← Bool.eq_false_iff.mpr hoff,Function.update_eq_self]
    simp only [hE.unsat (2+k) hF,Function.update_idem,hback]
    refine ⟨?_,h.hard,h.meets⟩
    rw [hmark] at hF
    rw [first_succ]
    exact h.upto.skip p.key_injective hnext hF

theorem addLoop_added (hE : Exact p solve) (ho : Sorted p p.softs.length p.softs.length order)
    {m : V} (hm : p.hard m) {k : ℕ} (hk : k ≤ p.softs.length) :
    Added p order k ((List.range k).foldl (tryAdd solve p order) (fun _ => false,m)) := by
  induction k with
  | zero =>
    have hnone : marks (fun _ => false) = ∅ := Set.ext fun i => iff_of_false (by simp [marks]) id
    have hfirst : order '' {j | j < 0} = ∅ := by simp
    refine ⟨?_,hm,fun i hi => ?_⟩
    · rw [List.range_zero,List.foldl_nil,hnone,hfirst]
      exact .empty p.feasible_lower (p.empty_feasible.mpr ⟨m,hm⟩)
    · exact absurd hi Bool.false_ne_true
  | succ k ih =>
    rw [List.range_succ,List.foldl_append]
    exact tryAdd_added hE ho (by omega) (ih (by omega))

/-- The answer is right: UNSAT exactly when the hard constraints are unsatisfiable, and otherwise
a model of the hard constraints and of exactly the greedy set, which is what is marked. -/
structure Chosen (p : Problem V) (out : Option (ℕ → Bool)) (keepCap : ℕ) (r : Ret V) : Prop where
  unsat : r.rc = .unsat ↔ ¬ ∃ m, p.hard m
  sat : (∃ m, p.hard m) → ∃ m K, r.rc = .sat m ∧ p.Keeps K ∧ p.Models m K ∧
    ∀ o ∈ out, ∃ o' ∈ r.outKeep, ∀ i,
      if i < p.softs.length ∧ i < keepCap then o' i = true ↔ i ∈ K else o' i = o i

variable {out : Option (ℕ → Bool)} {keepCap : ℕ} {mem : Memory}

theorem chosen_of_keeps {K : Set ℕ} (hK : p.Keeps K) {m : V} (hm : p.hard m)
    (hmeets : ∀ i ∈ K, p.Meets m i) {keep : ℕ → Bool}
    (hkeep : ∀ i ∈ p.indices, keep i = true ↔ i ∈ K) :
    Chosen p out keepCap ⟨.sat m,out.map (writeKeep p.softs.length keepCap keep)⟩ := by
  refine ⟨iff_of_false nofun fun hn => hn ⟨m,hm⟩,fun _ => ⟨m,K,rfl,hK,hK.models hm hmeets,?_⟩⟩
  rintro o rfl
  refine ⟨_,rfl,fun i => ?_⟩
  have hcap : i < (if keepCap < p.softs.length then keepCap else p.softs.length) ↔
      i < p.softs.length ∧ i < keepCap := by
    split_ifs <;> omega
  unfold writeKeep
  by_cases hi : i < p.softs.length ∧ i < keepCap
  · rw [if_pos hi,if_pos (hcap.mpr hi)]
    exact hkeep i hi.1
  · rw [if_neg hi,if_neg fun h => hi (hcap.mp h)]

theorem not_chosen_error : ¬ Chosen p out keepCap ⟨.error,out⟩ := by
  intro h
  by_cases hs : ∃ m, p.hard m
  · obtain ⟨m,_,hr,_⟩ := h.sat hs
    exact absurd hr nofun
  · exact absurd (h.unsat.mpr hs) nofun

theorem chosen_of_unsat (h : ¬ ∃ m, p.hard m) : Chosen p out keepCap ⟨.unsat,out⟩ :=
  ⟨iff_of_true rfl h,fun hs => absurd hs h⟩

theorem Problem.keeps_all (h : p.indices ∈ p.feasible) : p.Keeps p.indices :=
  (Upto.whole p.feasible_lower Set.Subset.rfl (fun _ _ _ hb _ => hb) h).isGreedy

theorem addSofts_chosen (hE : Exact p solve) :
    Chosen p out keepCap (addSofts solve p mem out keepCap) ↔ mem.order = true := by
  unfold addSofts
  by_cases ho : mem.order = true
  · rw [if_pos ho]
    refine iff_of_true ?_ ho
    have hnone : marks (fun _ => false) = ∅ := Set.ext fun i => iff_of_false (by simp [marks]) id
    by_cases hs : ∃ m, p.hard m
    · have hF : marks (fun _ => false) ∈ p.feasible := by
        rw [hnone]
        exact p.empty_feasible.mpr hs
      obtain ⟨m,hsat,hm,_⟩ := hE.sat 1 hF
      simp only [hsat]
      have hsort := sortOrder_sorted (p := p) (le_refl p.softs.length)
      have hadd := addLoop_added hE hsort hm le_rfl
      have hall : sortOrder p.pri p.softs.length p.softs.length '' {j | j < p.softs.length} =
          p.indices := by
        obtain ⟨σ,hσ,_⟩ := hsort.perm
        ext i
        constructor
        · rintro ⟨j,hj,rfl⟩
          exact hsort.inside.mpr hj
        · intro hi
          obtain ⟨j,rfl⟩ := σ.surjective i
          rw [hσ] at hsort ⊢
          exact ⟨j,hsort.inside.mp hi,rfl⟩
      have hupto := hadd.upto
      rw [hall] at hupto
      exact chosen_of_keeps hupto.isGreedy hadd.hard hadd.meets fun _ _ => Iff.rfl
    · have hF : marks (fun _ => false) ∉ p.feasible := by
        rw [hnone]
        exact fun h => hs (p.empty_feasible.mp h)
      rw [hE.unsat 1 hF]
      exact chosen_of_unsat hs
  · rw [if_neg ho]
    exact iff_of_false not_chosen_error ho

theorem Problem.all_feasible : marks (fun _ => true) ∈ p.feasible ↔ p.indices ∈ p.feasible := by
  refine exists_congr fun m => and_congr_right fun _ => ⟨fun h i _ => h i rfl,fun h i _ => ?_⟩
  by_cases hi : i ∈ p.indices
  · exact h i hi
  · exact p.meets_outside hi

theorem chosen_of_all (out : Option (ℕ → Bool)) (keepCap : ℕ) {m : V} (hm : p.hard m) (hmeets : ∀ i ∈ marks fun _ => true, p.Meets m i) :
    Chosen p out keepCap ⟨.sat m,out.map (writeKeep p.softs.length keepCap fun _ => true)⟩ :=
  chosen_of_keeps (Problem.keeps_all ⟨m,hm,fun i _ => hmeets i rfl⟩) hm (fun i _ => hmeets i rfl)
    fun _ hi => iff_of_true rfl hi

/-- A problem without softs. -/
theorem checkMaxsat_plain (hE : Exact p solve) (hn : p.softs.length = 0) :
    Chosen p out keepCap (checkMaxsat solve p mem out keepCap) := by
  have hroots : kept (fun _ => true) 0 p.softs = [] := by
    rw [List.length_eq_zero_iff.mp hn]
    rfl
  unfold checkMaxsat
  rw [if_pos hn,← hroots]
  by_cases hF : marks (fun _ => true) ∈ p.feasible
  · obtain ⟨m,hsat,hm,hmeets⟩ := hE.sat 0 hF
    have hwrite : writeKeep p.softs.length keepCap (fun _ => true) = id := by
      funext o i
      unfold writeKeep
      exact if_neg (by split_ifs <;> omega)
    have h := chosen_of_all out keepCap hm hmeets
    rw [hwrite,Option.map_id] at h
    rw [hsat]
    exact h
  · rw [hE.unsat 0 hF]
    refine chosen_of_unsat fun ⟨m,hm⟩ => hF ⟨m,hm,fun i _ => p.meets_outside ?_⟩
    exact not_lt.mpr (hn.le.trans (Nat.zero_le i))

theorem checkMaxsat_chosen (hE : Exact p solve) :
    Chosen p out keepCap (checkMaxsat solve p mem out keepCap) ↔
      p.softs.length = 0 ∨ (mem.pri = true ∧ mem.keep = true) ∧
        (mem.order = true ∨ p.indices ∈ p.feasible) := by
  by_cases hn : p.softs.length = 0
  · exact iff_of_true (checkMaxsat_plain hE hn) (.inl hn)
  unfold checkMaxsat
  rw [if_neg hn,or_iff_right hn]
  by_cases hmem : mem.pri = false ∨ mem.keep = false
  · rw [if_pos hmem]
    refine iff_of_false not_chosen_error fun h => ?_
    rw [h.1.1,h.1.2] at hmem
    exact absurd hmem (by decide)
  · rw [if_neg hmem]
    have hboth : mem.pri = true ∧ mem.keep = true := by
      rw [not_or,Bool.not_eq_false,Bool.not_eq_false] at hmem
      exact hmem
    rw [and_iff_right hboth]
    by_cases hF : marks (fun _ => true) ∈ p.feasible
    · obtain ⟨m,hsat,hm,hmeets⟩ := hE.sat 0 hF
      simp only [hsat]
      exact iff_of_true (chosen_of_all out keepCap hm hmeets) (.inr (p.all_feasible.mp hF))
    · simp only [hE.unsat 0 hF]
      rw [addSofts_chosen hE]
      exact (or_iff_left fun h => hF (p.all_feasible.mpr h)).symm

end Add

end Maxsat
end DvSolve
