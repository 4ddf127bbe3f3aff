import DvSolve.Contradiction
import DvSolve.Minimize
import Mathlib.Data.List.GetD
import Mathlib.Order.Interval.Finset.Nat
import Mathlib.Tactic.Common

/-! What the contradiction analysis reports, for a solver that answers every query exactly. -/
namespace DvSolve
namespace Contra

open Minimize
open Bool (false_eq_true)
open List (foldl_cons getD_eq_getElem mem_append mem_filter mem_range)
open Option (bind_some map_some)

variable {β ρ A : Type*}

structure Meaning (β ρ A : Type*) where
  frame : β → A → Prop
  holds : ρ → A → Prop

def Problem.added (p : Problem β ρ) : List (ConstraintSpec ρ) := p.constraints.reverse

def Problem.idOf (p : Problem β ρ) (i : ℕ) : ℕ := ((p.added[i]?).map (·.constraintId)).getD 0

def Meaning.Unsat (M : Meaning β ρ A) (p : Problem β ρ) (s : Set ℕ) : Prop :=
  ¬∃ a, M.frame p.frame a ∧ ∀ i ∈ s, ∀ c, p.added[i]? = some c → M.holds c.root a

structure Solver.Exact (S : Solver β ρ) (M : Meaning β ρ A) : Prop where
  conflict : ∀ f cs, S.conflict f cs = true → ¬∃ a, M.frame f a ∧ ∀ c ∈ cs, M.holds c a
  solve : ∀ p on, S.solve p on = true ↔ ∃ a, M.frame p.frame a ∧ (∀ c ∈ p.constraints, M.holds c.root a) ∧
    ∀ i ∈ on, ∀ c, p.softs[i]? = some c → M.holds c.root a

variable {M : Meaning β ρ A} {S : Solver β ρ} {p : Problem β ρ}
  {wide : BitVec 64 → ℕ → Option Bool}

theorem Meaning.Unsat.mono ⦃s t : Set ℕ⦄ (h : M.Unsat p t) (hts : t ⊆ s) : M.Unsat p s :=
  fun ⟨a,hf,ha⟩ => h ⟨a,hf,fun i hi => ha i (hts hi)⟩

theorem gate_foldl (l : List (ConstraintSpec ρ)) (g : Problem β ρ × ℕ × (ℕ → ℕ)) :
    (l.foldl gateConstraint g).1.frame = g.1.frame ∧
    (l.foldl gateConstraint g).1.constraints = g.1.constraints ∧
    (l.foldl gateConstraint g).1.softs.map (·.root) = l.reverse.map (·.root) ++ g.1.softs.map (·.root) ∧
    ∀ j, (l.foldl gateConstraint g).2.2 j = if j < g.2.1 then g.2.2 j else
      ((l[j - g.2.1]?).map (·.constraintId)).getD (g.2.2 j) := by
  induction l generalizing g with
  | nil => simp
  | cons c l ih =>
    obtain ⟨hf,hc,hs,hm⟩ := ih (gateConstraint g c)
    refine ⟨hf,hc,by rw [foldl_cons,hs]; simp [gateConstraint,problemAddSoftConstraint],fun j => ?_⟩
    rw [foldl_cons,hm j]
    simp only [gateConstraint]
    rcases lt_trichotomy j g.2.1 with hj | rfl | hj
    · have h₁ : j < g.2.1 + 1 := by omega
      simp only [h₁,hj,hj.ne,if_true,if_false]
    · simp
    · have h₁ : ¬j < g.2.1 + 1 := by omega
      simp only [h₁,hj.not_gt,hj.ne',if_false]
      rw [show j - g.2.1 = j - (g.2.1 + 1) + 1 by omega,List.getElem?_cons_succ]

theorem swapEnds_foldl (n : ℕ) (m : ℕ → ℕ) (k : ℕ) (hk : k ≤ n / 2) (j : ℕ) :
    (List.range k).foldl (swapEnds n) m j = if j < k ∨ n - k ≤ j ∧ j < n then m (n - 1 - j) else m j := by
  induction k generalizing j with
  | zero => rw [if_neg (by omega)]; rfl
  | succ k ih =>
    rw [List.range_succ,List.foldl_append,foldl_cons,List.foldl_nil]
    rw [show ∀ m' : ℕ → ℕ, swapEnds n m' k j = if j = k then m' (n - 1 - k)
      else if j = n - 1 - k then m' k else m' j from fun _ => rfl]
    split_ifs with h₁ h₂ h₃ h₄
    · rw [ih (by omega),if_neg (by omega),h₁]
    · omega
    · rw [ih (by omega),if_neg (by omega)]
      congr 1
      omega
    · omega
    · rw [ih (by omega),if_pos (by omega)]
    · rw [ih (by omega),if_neg (by omega)]

theorem reverseMap_eq {n : ℕ} (m : ℕ → ℕ) {j : ℕ} (hj : j < n) :
    reverseMap n m j = m (n - 1 - j) := by
  rw [reverseMap,swapEnds_foldl n m _ le_rfl]
  split_ifs
  · rfl
  · congr 1
    omega

@[simp] theorem added_length : p.added.length = p.constraints.length := List.length_reverse

theorem gated_softs : (buildGatedProblem p).sp.softs.map SoftSpec.root =
    p.added.map ConstraintSpec.root := by
  obtain ⟨_,_,hs,_⟩ := gate_foldl p.constraints (p.bare,0,fun _ => 0)
  exact hs.trans (List.append_nil _)

theorem gated_length : (buildGatedProblem p).sp.softs.length = p.constraints.length := by
  rw [← List.length_map SoftSpec.root,gated_softs,List.length_map,added_length]

theorem gated_frame : (buildGatedProblem p).sp.frame = p.frame :=
  (gate_foldl p.constraints (p.bare,0,fun _ => 0)).1

theorem gated_constraints : (buildGatedProblem p).sp.constraints = [] :=
  (gate_foldl p.constraints (p.bare,0,fun _ => 0)).2.1

theorem gated_cidMap {i : ℕ} (hi : i < p.constraints.length) :
    (buildGatedProblem p).cidMap i = p.idOf i := by
  obtain ⟨_,_,_,hm⟩ := gate_foldl p.constraints (p.bare,0,fun _ => 0)
  rw [show (buildGatedProblem p).cidMap = reverseMap p.constraints.length _ from rfl,
    reverseMap_eq _ hi,hm,if_neg (Nat.not_lt_zero _),Problem.idOf,Problem.added,
    List.getElem?_reverse hi]
  rfl

theorem activeAssumptions_eq {mask : BitVec 64} {f : ℕ → Bool} {n : ℕ}
    (h : ∀ i < n, (if i < 64 then some (mask.getLsbD i) else wide mask i) = some (f i)) :
    activeAssumptions wide mask n = some ((List.range n).filter f) := by
  induction n with
  | zero => rfl
  | succ n ih =>
    rw [activeAssumptions,ih fun i hi => h i (by omega),bind_some,h n (by omega),map_some,
      List.range_succ,List.filter_append]
    split_ifs with h <;> simp [h]

theorem activeAssumptions_none (mask : BitVec 64) {n : ℕ} (hn : 64 < n) :
    activeAssumptions (fun _ _ => none) mask n = none := by
  induction n, hn using Nat.le_induction with
  | base => simp [activeAssumptions]
  | succ n _ ih => rw [activeAssumptions,ih,Option.bind_none]

theorem softs_holds_iff (on : List ℕ) (a : A) :
    (∀ i ∈ on, ∀ c, (buildGatedProblem p).sp.softs[i]? = some c → M.holds c.root a) ↔
      ∀ i ∈ on, ∀ c, p.added[i]? = some c → M.holds c.root a := by
  have hroot : ∀ i : ℕ, ((buildGatedProblem p).sp.softs[i]?).map SoftSpec.root =
      (p.added[i]?).map ConstraintSpec.root := fun i => by
    rw [← List.getElem?_map,gated_softs,List.getElem?_map]
  refine forall₂_congr fun i _ => ⟨fun h c hc => ?_,fun h c hc => ?_⟩
  · have := hroot i
    rw [hc,map_some,Option.map_eq_some_iff] at this
    obtain ⟨d,hd,he⟩ := this
    exact he ▸ h d hd
  · have := (hroot i).symm
    rw [hc,map_some,Option.map_eq_some_iff] at this
    obtain ⟨d,hd,he⟩ := this
    exact he ▸ h d hd

theorem gated_solve (hS : S.Exact M) (on : List ℕ) :
    S.solve (buildGatedProblem p).sp on = true ↔ ¬M.Unsat p {i | i ∈ on} := by
  rw [hS.solve,Meaning.Unsat,not_not]
  refine exists_congr fun a => ?_
  rw [softs_holds_iff,gated_frame,gated_constraints]
  exact and_congr_right fun _ => ⟨fun h => h.2,fun h => ⟨by simp,h⟩⟩

theorem isSat_eq (hS : S.Exact M) {mask : BitVec 64} {f : ℕ → Bool}
    (h : ∀ i < p.constraints.length,
      (if i < 64 then some (mask.getLsbD i) else wide mask i) = some (f i)) :
    ∃ r, isSat wide S (buildGatedProblem p).sp mask = some r ∧
      (r = true ↔ ¬M.Unsat p {i | f i = true}) := by
  refine ⟨_,by rw [isSat,gated_length,activeAssumptions_eq h]; rfl,?_⟩
  rw [gated_solve hS,not_iff_not]
  refine ⟨fun hu => hu.mono fun i hi => (mem_filter.mp hi).2,fun hu ⟨a,hf,ha⟩ => hu ⟨a,hf,?_⟩⟩
  intro i hi c hc
  have hlt : i < p.constraints.length := by
    rw [← added_length]
    exact (List.getElem?_eq_some_iff.mp hc).1
  exact ha i (mem_filter.mpr ⟨mem_range.mpr hlt,hi⟩) c hc

/-- With no more than 64 assumptions a query is about the constraints of its mask. -/
theorem isSat_exact (hS : S.Exact M) (hn : p.constraints.length ≤ 64) (mask : BitVec 64) :
    ∃ r, isSat wide S (buildGatedProblem p).sp mask = some r ∧
      (r = true ↔ ¬M.Unsat p {i | mask.getLsbD i = true}) :=
  isSat_eq hS fun i hi => if_pos (by omega)

theorem getLsbD_setBit (m : BitVec 64) (j i : ℕ) (hj : j < 64) :
    (m ||| 1#64 <<< j).getLsbD i = (m.getLsbD i || decide (i = j)) := by
  rw [BitVec.getLsbD_or,BitVec.getLsbD_shiftLeft,BitVec.getLsbD_one]
  by_cases h : i = j
  · subst h
    simp [hj]
  · have : ¬(¬i < j ∧ i - j = 0) := by omega
    simp only [h,decide_false,Bool.or_false]
    by_cases hlt : i < j
    · simp [hlt]
    · have : i - j ≠ 0 := by omega
      simp [this]

theorem activateSet_bits (l : List ℕ) (m : BitVec 64) (hl : ∀ i ∈ l, i < 64) (i : ℕ) :
    (activateSet m l).getLsbD i = true ↔ m.getLsbD i = true ∨ i ∈ l := by
  induction l generalizing m with
  | nil => simp [activateSet]
  | cons a l ih =>
    have := ih (m ||| 1#64 <<< a) fun i hi => hl i (by simp [hi])
    rw [activateSet] at this ⊢
    rw [foldl_cons,if_pos (hl a (by simp)),this,getLsbD_setBit _ _ _ (hl a (by simp))]
    simp only [Bool.or_eq_true,decide_eq_true_eq,List.mem_cons]
    tauto

theorem activateSet_zero (l : List ℕ) (hl : ∀ i ∈ l, i < 64) :
    {i | (activateSet 0#64 l).getLsbD i = true} = {i | i ∈ l} := by
  ext i
  simp [activateSet_bits l 0#64 hl i]

theorem activateSet_activateSet (bg c : List ℕ) (hb : ∀ i ∈ bg, i < 64) (hc : ∀ i ∈ c, i < 64) :
    {i | (activateSet (activateSet 0#64 bg) c).getLsbD i = true} = {i | i ∈ bg} ∪ {i | i ∈ c} := by
  ext i
  simp [activateSet_bits c _ hc i,activateSet_bits bg _ hb i]

/-- A query that answers whether the constraints of its mask lack the property `U`. -/
def Answers (sat : BitVec 64 → Option Bool) (U : Set ℕ → Prop) : Prop :=
  ∀ mask, ∃ r, sat mask = some r ∧ (r = true ↔ ¬U {i | mask.getLsbD i = true})

section
variable {U : Set ℕ → Prop} {sat : BitVec 64 → Option Bool} {stop : ℕ → Bool} {maxOut : ℕ}

theorem quickxplain_nil (bg : List ℕ) (st : Found) :
    quickxplain sat stop maxOut bg [] st = some st := by
  rw [quickxplain]
  split_ifs <;> simp_all

theorem quickxplain_one (hstop : ∀ n, stop n = false) (bg : List ℕ) (x : ℕ) {st : Found}
    (hroom : st.out.length < maxOut) {r : Bool} (hr : sat (activateSet 0#64 bg) = some r) :
    quickxplain sat stop maxOut bg [x] st = some ⟨if r then st.out ++ [x] else st.out,st.calls + 1⟩ := by
  rw [quickxplain,hstop]
  simp [hr,hroom,hroom.not_ge]

theorem quickxplain_split (hstop : ∀ n, stop n = false) {bg cand : List ℕ} {st : Found}
    (hroom : st.out.length < maxOut) (hlen : 2 ≤ cand.length) {r : Bool}
    (hr : sat (activateSet (activateSet 0#64 bg) (cand.take (cand.length / 2))) = some r) :
    quickxplain sat stop maxOut bg cand st = let c1 := cand.take (cand.length / 2)
      let st' : Found := ⟨st.out,st.calls + 1⟩
      if r then
        (quickxplain sat stop maxOut (bg ++ c1) (cand.drop (cand.length / 2)) st').bind fun st₂ =>
          quickxplain sat stop maxOut (bg ++ st₂.out.drop st.out.length) c1 st₂
      else quickxplain sat stop maxOut bg c1 st' := by
  have h₀ : ¬(maxOut ≤ st.out.length ∨ cand.length = 0) := by omega
  have h₁ : ¬cand.length = 1 := by omega
  rw [quickxplain,hstop]
  simp only [false_eq_true,if_false,h₀,h₁,hr,bind_some]

theorem activateSet_keeps (l : List ℕ) {m : BitVec 64} {i : ℕ} (h : m.getLsbD i = true) :
    (activateSet m l).getLsbD i = true := by
  induction l generalizing m with
  | nil => exact h
  | cons a l ih =>
    refine ih ?_
    dsimp only
    split_ifs with ha
    · rw [getLsbD_setBit _ _ _ ha,h,Bool.true_or]
    · exact h

/-- Where every query that activates 0 is answered UNSAT the search goes to the candidate 0. -/
theorem quickxplain_head (hstop : ∀ n, stop n = false) (hroom : 0 < maxOut)
    (hsat : ∀ mask, sat mask = some !mask.getLsbD 0) (n : ℕ) : ∀ (cand : List ℕ) (calls : ℕ),
    cand.length = n + 1 → cand.head? = some 0 →
    ∃ st, quickxplain sat stop maxOut [] cand ⟨[],calls⟩ = some st ∧ st.out = [0] := by
  induction n using Nat.strong_induction_on with
  | _ n ih =>
    intro cand calls hlen hhead
    match n, cand, hlen, hhead with
    | 0, [x], _, hhead =>
      obtain rfl : x = 0 := by simpa using hhead
      exact ⟨_,quickxplain_one hstop [] 0 hroom (hsat _),rfl⟩
    | n + 1, a :: b :: cand, hlen, hhead =>
      obtain rfl : a = 0 := by simpa using hhead
      set c := (0 :: b :: cand).take ((0 :: b :: cand).length / 2) with hc
      have hl : c.length = (n + 2) / 2 := by
        rw [hc,List.length_take,hlen]
        omega
      have hch : c.head? = some 0 := by
        rw [hc,List.head?_take,if_neg (by rw [hlen]; omega)]
        rfl
      have hbit : (activateSet (activateSet 0#64 []) c).getLsbD 0 = true := by
        obtain ⟨d,hd⟩ : ∃ d, c = 0 :: d := ⟨c.tail,(List.cons_head?_tail hch).symm⟩
        rw [hd]
        exact activateSet_keeps d (by decide)
      rw [quickxplain_split hstop hroom (by simp) (hsat _),hbit]
      exact ih (c.length - 1) (by omega) c (calls + 1) (by omega) hch

/-- What a call adds: distinct candidates that complete the background, none to spare. -/
structure Adds (U : Set ℕ → Prop) (bg cand : List ℕ) (st st' : Found) (l : List ℕ) : Prop where
  out : st'.out = st.out ++ l
  nodup : l.Nodup
  mem : ∀ i ∈ l, i ∈ cand
  minimal : MinimalOver U {i | i ∈ bg} {i | i ∈ l}

theorem Adds.length {bg cand l : List ℕ} {st st' : Found} (h : Adds U bg cand st st' l) :
    l.length ≤ cand.length := (h.nodup.subperm h.mem).length_le

theorem setOf_append (a b : List ℕ) : {i | i ∈ a ++ b} = {i | i ∈ a} ∪ {i | i ∈ b} := by
  ext i
  simp

/-- Where the background lacks the property and gets it from the candidates, a call finds a
minimal completion. The induction is on the number of candidates. -/
theorem quickxplain_adds (hU : ∀ ⦃s t⦄, U t → t ⊆ s → U s) (hsat : Answers sat U)
    (hstop : ∀ n, stop n = false) (n : ℕ) : ∀ (bg cand : List ℕ) (st : Found),
    cand.length = n → (∀ i ∈ bg, i < 64) → (∀ i ∈ cand, i < 64) → cand.Nodup →
    U ({i | i ∈ bg} ∪ {i | i ∈ cand}) → st.out.length + cand.length ≤ maxOut →
    ∃ st' l, quickxplain sat stop maxOut bg cand st = some st' ∧ Adds U bg cand st st' l := by
  induction n using Nat.strong_induction_on with
  | _ n ih =>
    intro bg cand st hlen hb hc hnd hu hroom
    match cand, hlen, hc, hnd, hu, hroom with
    | [], _, _, _, hu, _ =>
      refine ⟨st,[],quickxplain_nil bg st,by simp,.nil,by simp,?_⟩
      simpa using MinimalOver.empty (by simpa using hu)
    | [x], _, hc, _, hu, hroom =>
      simp only [List.length_singleton] at hroom
      obtain ⟨r,hr,hru⟩ := hsat (activateSet 0#64 bg)
      rw [activateSet_zero bg hb] at hru
      refine ⟨_,if r then [x] else [],quickxplain_one hstop bg x (by omega) hr,?_⟩
      cases r with
      | true =>
        refine ⟨rfl,List.nodup_singleton x,fun i hi => hi,?_⟩
        simpa using MinimalOver.singleton (hru.mp rfl) (by simpa using hu)
      | false =>
        have hbg : U {i | i ∈ bg} := by simpa using hru
        refine ⟨(List.append_nil _).symm,.nil,by simp,?_⟩
        simpa using MinimalOver.empty hbg
    | a :: b :: cand, hlen, hc, hnd, hu, hroom =>
      obtain ⟨c,hcdef⟩ : ∃ c, c = a :: b :: cand := ⟨_,rfl⟩
      have hlen₂ : 2 ≤ c.length := by simp [hcdef]
      rw [← hcdef] at hlen hc hnd hu hroom ⊢
      obtain ⟨c₁,hc₁⟩ : ∃ c₁, c₁ = c.take (c.length / 2) := ⟨_,rfl⟩
      obtain ⟨c₂,hc₂⟩ : ∃ c₂, c₂ = c.drop (c.length / 2) := ⟨_,rfl⟩
      have hsplit : c₁ ++ c₂ = c := by rw [hc₁,hc₂,List.take_append_drop]
      have hl₁ : c₁.length = c.length / 2 := by rw [hc₁,List.length_take]; omega
      have hl₂ : c₂.length = c.length - c.length / 2 := by rw [hc₂,List.length_drop]
      have hm₁ : ∀ i ∈ c₁, i ∈ c := fun i hi => hsplit ▸ List.mem_append_left _ hi
      have hm₂ : ∀ i ∈ c₂, i ∈ c := fun i hi => hsplit ▸ List.mem_append_right _ hi
      obtain ⟨hn₁,hn₂,hdisj⟩ := List.nodup_append'.mp (hsplit ▸ hnd)
      obtain ⟨r,hr,hru⟩ := hsat (activateSet (activateSet 0#64 bg) c₁)
      rw [activateSet_activateSet bg c₁ hb fun i hi => hc i (hm₁ i hi)] at hru
      rw [quickxplain_split hstop (by omega) hlen₂ (hc₁ ▸ hr),← hc₁,← hc₂]
      cases r with
      | false =>
        have hu₁ : U ({i | i ∈ bg} ∪ {i | i ∈ c₁}) := by simpa using hru
        obtain ⟨st',l,heq,h⟩ := ih c₁.length (by omega) bg c₁ ⟨st.out,st.calls + 1⟩ rfl hb
          (fun i hi => hc i (hm₁ i hi)) hn₁ hu₁ (by dsimp only; omega)
        exact ⟨st',l,heq,h.out,h.nodup,fun i hi => hm₁ i (h.mem i hi),h.minimal⟩
      | true =>
        have hu₂ : U ({i | i ∈ bg ++ c₁} ∪ {i | i ∈ c₂}) := by
          rwa [setOf_append,Set.union_assoc,← setOf_append,hsplit]
        obtain ⟨st₂,l₂,heq₂,h₂⟩ := ih c₂.length (by omega) (bg ++ c₁) c₂ ⟨st.out,st.calls + 1⟩
          rfl (fun i hi => (mem_append.mp hi).elim (hb i) fun hi => hc i (hm₁ i hi))
          (fun i hi => hc i (hm₂ i hi)) hn₂ hu₂ (by dsimp only; omega)
        have hout₂ : st₂.out = st.out ++ l₂ := h₂.out
        have hmin₂ : MinimalOver U ({i | i ∈ bg} ∪ {i | i ∈ c₁}) {i | i ∈ l₂} := by
          rw [← setOf_append]
          exact h₂.minimal
        have hu₁ : U ({i | i ∈ bg ++ l₂} ∪ {i | i ∈ c₁}) := by
          rw [setOf_append,Set.union_right_comm]
          exact hmin₂.holds
        have hlen' := h₂.length
        obtain ⟨st₁,l₁,heq₁,h₁⟩ := ih c₁.length (by omega) (bg ++ l₂) c₁ st₂ rfl
          (fun i hi => (mem_append.mp hi).elim (hb i) fun hi => hc i (hm₂ i (h₂.mem i hi)))
          (fun i hi => hc i (hm₁ i hi)) hn₁ hu₁
          (by rw [hout₂,List.length_append]; omega)
        refine ⟨st₁,l₂ ++ l₁,?_,?_,?_,?_,?_⟩
        · simp only [if_true,heq₂,bind_some,hout₂,List.drop_left,heq₁]
        · rw [h₁.out,hout₂,List.append_assoc]
        · refine List.nodup_append'.mpr ⟨h₂.nodup,h₁.nodup,fun i h h' => ?_⟩
          exact hdisj (h₁.mem i h') (h₂.mem i h)
        · intro i hi
          exact (mem_append.mp hi).elim (fun hi => hm₂ i (h₂.mem i hi))
            fun hi => hm₁ i (h₁.mem i hi)
        · rw [setOf_append]
          refine hmin₂.union hU h₁.mem ?_
          rw [← setOf_append]
          exact h₁.minimal

def kept (core : List ℕ) (f : ℕ → Bool) : Set ℕ :=
  {i | ∃ j < core.length, f j = true ∧ core.getD j 0 = i}

theorem necessaryMask_bits {core : List ℕ} (hc : ∀ i ∈ core, i < 64) (hnd : core.Nodup)
    (f : ℕ → Bool) {n : ℕ} (hn : n < core.length) :
    {i | (necessaryMask core f n).getLsbD i = true} = kept core f \ {core.getD n 0} := by
  have hlt : ∀ j < core.length, core.getD j 0 < 64 := fun j hj => by
    rw [getD_eq_getElem _ _ hj]
    exact hc _ (List.getElem_mem hj)
  have hfold : ∀ (l : List ℕ) (m : BitVec 64) (i : ℕ), (∀ j ∈ l, j < core.length) →
      ((l.foldl (fun m j => if j ≠ n ∧ f j ∧ core.getD j 0 < 64
        then m ||| 1#64 <<< core.getD j 0 else m) m).getLsbD i = true ↔
      m.getLsbD i = true ∨ ∃ j ∈ l, j ≠ n ∧ f j = true ∧ core.getD j 0 = i) := by
    intro l
    induction l with
    | nil => simp
    | cons a l ih =>
      intro m i hl
      have ha := hlt a (hl a (by simp))
      have hstep : (if a ≠ n ∧ f a = true ∧ core.getD a 0 < 64 then m ||| 1#64 <<< core.getD a 0
          else m).getLsbD i = true ↔
          m.getLsbD i = true ∨ (a ≠ n ∧ f a = true ∧ core.getD a 0 = i) := by
        by_cases h : a ≠ n ∧ f a = true
        · rw [if_pos ⟨h.1,h.2,ha⟩,getLsbD_setBit _ _ _ ha,Bool.or_eq_true,decide_eq_true_eq]
          exact or_congr_right ⟨fun he => ⟨h.1,h.2,he.symm⟩,fun he => he.2.2.symm⟩
        · rw [if_neg fun hh => h ⟨hh.1,hh.2.1⟩]
          exact (or_iff_left fun hh => h ⟨hh.1,hh.2.1⟩).symm
      rw [foldl_cons,ih _ _ fun j hj => hl j (by simp [hj]),hstep,or_assoc]
      simp only [List.mem_cons,exists_eq_or_imp]
  ext i
  rw [Set.mem_ofPred_eq,necessaryMask,hfold _ _ _ fun j hj => mem_range.mp hj]
  simp only [BitVec.getLsbD_zero,false_eq_true,false_or,mem_range,kept,Set.mem_sdiff,
    Set.mem_ofPred_eq,Set.mem_singleton_iff]
  constructor
  · rintro ⟨j,hj,hne,hf,rfl⟩
    refine ⟨⟨j,hj,hf,rfl⟩,fun he => hne ?_⟩
    rw [getD_eq_getElem _ _ hj,getD_eq_getElem _ _ hn] at he
    exact (List.Nodup.getElem_inj_iff hnd).mp he
  · rintro ⟨⟨j,hj,hf,rfl⟩,hne⟩
    exact ⟨j,hj,fun he => hne (by rw [he]),hf,rfl⟩

theorem kept_drop {core : List ℕ} (hnd : core.Nodup) (f : ℕ → Bool) {n : ℕ}
    (hn : n < core.length) : kept core (fun j => if j = n then false else f j) =
      kept core f \ {core.getD n 0} := by
  ext i
  simp only [kept,Set.mem_sdiff,Set.mem_ofPred_eq,Set.mem_singleton_iff]
  constructor
  · rintro ⟨j,hj,hf,rfl⟩
    have hne : j ≠ n := fun he => by simp [he] at hf
    rw [if_neg hne] at hf
    refine ⟨⟨j,hj,hf,rfl⟩,fun he => hne ?_⟩
    rw [getD_eq_getElem _ _ hj,getD_eq_getElem _ _ hn] at he
    exact (List.Nodup.getElem_inj_iff hnd).mp he
  · rintro ⟨⟨j,hj,hf,rfl⟩,hne⟩
    have hjn : j ≠ n := fun he => hne (by rw [he])
    exact ⟨j,hj,by rwa [if_neg hjn],rfl⟩

/-- After `n` trials the members kept have the property, and none of those tried is spare. -/
theorem deletionFlags_spec (hU : ∀ ⦃s t⦄, U t → t ⊆ s → U s) (hsat : Answers sat U)
    {core : List ℕ} (hc : ∀ i ∈ core, i < 64) (hnd : core.Nodup) (hu : U {i | i ∈ core}) :
    ∀ n ≤ core.length, ∃ f, deletionFlags sat core n = some f ∧ U (kept core f) ∧
      ∀ y ∈ {y | ∃ j < n, core.getD j 0 = y}, y ∈ kept core f → ¬U (kept core f \ {y}) := by
  intro n hn
  induction n with
  | zero =>
    refine ⟨_,rfl,hU hu fun i hi => ?_,fun y ⟨j,hj,_⟩ => absurd hj (Nat.not_lt_zero j)⟩
    obtain ⟨j,hj,rfl⟩ := List.mem_iff_getElem.mp hi
    exact ⟨j,hj,rfl,getD_eq_getElem _ _ hj⟩
  | succ n ih =>
    obtain ⟨f,hf,hk,hneed⟩ := ih (by omega)
    obtain ⟨r,hr,hru⟩ := hsat (necessaryMask core f n)
    rw [necessaryMask_bits hc hnd f (by omega)] at hru
    refine ⟨_,by rw [deletionFlags,hf,bind_some,hr,map_some],?_⟩
    cases r with
    | true =>
      refine ⟨hk,fun y ⟨j,hj,hjy⟩ hy => ?_⟩
      rcases Nat.lt_succ_iff_lt_or_eq.mp hj with hlt | rfl
      · exact hneed y ⟨j,hlt,hjy⟩ hy
      · rw [← hjy]
        exact hru.mp rfl
    | false =>
      have hu' : U (kept core f \ {core.getD n 0}) := by simpa using hru
      simp only [false_eq_true,if_false]
      rw [kept_drop hnd f (by omega)]
      refine ⟨hu',fun y ⟨j,hj,hjy⟩ hy => needed_deletion hU hneed hu' y ?_ hy⟩
      rcases Nat.lt_succ_iff_lt_or_eq.mp hj with hlt | rfl
      · exact Or.inr ⟨j,hlt,hjy⟩
      · exact Or.inl hjy.symm

theorem deletionMus_minimal (hU : ∀ ⦃s t⦄, U t → t ⊆ s → U s) (hsat : Answers sat U)
    {core : List ℕ} (hc : ∀ i ∈ core, i < 64) (hnd : core.Nodup) (hu : U {i | i ∈ core})
    (hroom : core.length ≤ maxOut) (calls : ℕ) : ∃ st, deletionMus sat core maxOut calls = some st ∧
      st.out.Nodup ∧ (∀ i ∈ st.out, i ∈ core) ∧ Minimal U {i | i ∈ st.out} := by
  obtain ⟨f,hf,hk,hneed⟩ := deletionFlags_spec hU hsat hc hnd hu core.length le_rfl
  have hout : ((((List.range core.length).filter f).map fun j => core.getD j 0).take maxOut) =
      ((List.range core.length).filter f).map fun j => core.getD j 0 := by
    refine List.take_of_length_le ?_
    rw [List.length_map]
    exact (List.length_filter_le _ _).trans (by simpa using hroom)
  have hmem : ∀ i, i ∈ ((List.range core.length).filter f).map (fun j => core.getD j 0) ↔
      i ∈ kept core f := fun i => by
    simp [kept,and_assoc]
  refine ⟨_,by rw [deletionMus,hf,map_some],?_,fun i hi => ?_,?_⟩
  · rw [hout]
    refine List.Nodup.map_on (fun a ha b hb he => ?_) (List.nodup_range.filter _)
    rw [mem_filter,mem_range] at ha hb
    rw [getD_eq_getElem _ _ ha.1,getD_eq_getElem _ _ hb.1] at he
    exact (List.Nodup.getElem_inj_iff hnd).mp he
  · obtain ⟨j,hj,_,rfl⟩ := (hmem i).mp (hout ▸ hi)
    rw [getD_eq_getElem _ _ hj]
    exact List.getElem_mem hj
  · have hset : {i | i ∈ ((((List.range core.length).filter f).map fun j =>
        core.getD j 0).take maxOut)} = kept core f := by
      rw [hout]
      exact Set.ext hmem
    rw [hset,Set.minimal_iff_forall_sdiff_singleton hU]
    exact ⟨hk,fun y hy => hneed y (by obtain ⟨j,hj,_,he⟩ := hy; exact ⟨j,hj,he⟩) hy⟩

end

theorem withoutConstraint_frame (n i : ℕ) : (withoutConstraint p n i).frame = p.frame := by
  have hfold : ∀ (l : List (ConstraintSpec ρ)) (t : Problem β ρ × ℕ),
      (l.foldl (fun (t : Problem β ρ × ℕ) cs =>
        (if t.2 ≠ n - 1 - i then problemAddConstraint t.1 cs.root else t.1,t.2 + 1)) t).1.frame =
        t.1.frame := by
    intro l
    induction l with
    | nil => exact fun _ => rfl
    | cons c l ih =>
      intro t
      rw [foldl_cons,ih]
      split_ifs <;> rfl
  exact hfold p.constraints (p.bare,0)

theorem compileTimeMus_nil (hS : S.Exact M) (hf : ¬∃ a, M.frame p.frame a) (n : ℕ) :
    compileTimeMus S p n = [] := by
  refine List.filter_eq_nil_iff.mpr fun i _ => ?_
  have hsolve : S.solve (withoutConstraint p n i) [] = false := by
    rw [← Bool.not_eq_true,hS.solve,withoutConstraint_frame]
    exact fun ⟨a,ha,_⟩ => hf ⟨a,ha⟩
  simp [stillUnsat,hsolve]

/-- A minimal unsatisfiable subset: without any one of its constraints it is satisfiable. -/
def IsMus (M : Meaning β ρ A) (p : Problem β ρ) (s : Set ℕ) : Prop :=
  M.Unsat p s ∧ ∀ i ∈ s, ¬M.Unsat p (s \ {i})

theorem isMus_iff (s : Set ℕ) : IsMus M p s ↔ Minimal (M.Unsat p) s :=
  (Set.minimal_iff_forall_sdiff_singleton fun _ _ h hts => Meaning.Unsat.mono h hts).symm

/-- The result names the constraints of a minimal unsatisfiable subset, each by its id. -/
structure Reports (M : Meaning β ρ A) (p : Problem β ρ) (r : ContraResult) : Prop where
  nodup : r.musIndices.Nodup
  mem : ∀ i ∈ r.musIndices, i < p.constraints.length
  ids : r.musConstraintIds = r.musIndices.map p.idOf
  mus : IsMus M p {i | i ∈ r.musIndices}

theorem reports_iff (coreSize : ℕ) {st : Found} (hnd : st.out.Nodup)
    (hmem : ∀ i ∈ st.out, i < p.constraints.length) :
    Reports M p (reportIds (buildGatedProblem p) coreSize st) ↔ Minimal (M.Unsat p) {i | i ∈ st.out} := by
  rw [← isMus_iff]
  refine ⟨fun h => h.mus,fun h => ⟨hnd,hmem,?_,h⟩⟩
  exact List.map_congr_left fun i hi => gated_cidMap (hmem i hi)

theorem fullMask_bits {n : ℕ} (hn : n ≤ 64) :
    {i | (if n < 64 then 1#64 <<< n - 1#64 else BitVec.allOnes 64).getLsbD i = true} = Set.Iio n := by
  ext i
  rw [Set.mem_ofPred_eq,Set.mem_Iio]
  split_ifs with h
  · have hpow : (1#64 <<< n - 1#64).toNat = 2 ^ n - 1 := by
      have hlt : 2 ^ n < 2 ^ 64 := Nat.pow_lt_pow_right (by omega) h
      have hone := Nat.one_le_two_pow (n := n)
      rw [BitVec.toNat_sub,BitVec.toNat_shiftLeft,BitVec.toNat_ofNat,Nat.one_mod,
        Nat.shiftLeft_eq,one_mul,Nat.mod_eq_of_lt hlt]
      omega
    rw [BitVec.getLsbD,hpow,Nat.testBit_two_pow_sub_one,decide_eq_true_eq]
  · rw [BitVec.getLsbD_allOnes,decide_eq_true_eq]
    omega

/-- For an unsatisfiable problem with exact queries, no budget and no deadline, the report is a
minimal unsatisfiable subset, whatever a shift of 64 or more gives, in two cases: the compile
refuses the frame alone, or there are at most 64 constraints. -/
theorem contraAnalyzeUnsat_reports_iff (S : Solver β ρ) (M : Meaning β ρ A) (p : Problem β ρ)
    (o : ContraOpts) (hS : S.Exact M) (hu : M.Unsat p (Set.Iio p.constraints.length))
    (hn : p.constraints.length ≤ maxCoreSize) (hstop : ∀ n, o.stop n = false)
    (hskip : o.skipMinimization = false) :
    (∀ wide, ∃ r, contraAnalyzeUnsat wide S o p = some r ∧ Reports M p r) ↔
      S.conflict p.frame [] = true ∨ p.constraints.length ≤ 64 := by
  have hU : ∀ ⦃s t⦄, M.Unsat p t → t ⊆ s → M.Unsat p s := fun _ _ h hts => h.mono hts
  have href : (buildGatedProblem p).sp.refused S = S.conflict p.frame [] := by
    rw [Problem.refused,gated_frame,gated_constraints]
    rfl
  simp only [contraAnalyzeUnsat,href,show (buildGatedProblem p).nHard = p.constraints.length from rfl,
    min_eq_left hn,List.length_range,hskip,false_eq_true,if_false]
  by_cases hc : S.conflict p.frame [] = true
  · have hf : ¬∃ a, M.frame p.frame a := fun ⟨a,ha⟩ => hS.conflict _ _ hc ⟨a,ha,by simp⟩
    simp only [hc,if_true,Option.some.injEq,exists_eq_left',true_or,iff_true]
    intro _
    rw [compileTimeMus_nil hS hf,reports_iff _ List.nodup_nil (by simp),← isMus_iff]
    exact ⟨fun ⟨a,ha,_⟩ => hf ⟨a,ha⟩,by simp⟩
  · rw [or_iff_right hc]
    simp only [hc,false_eq_true,if_false]
    refine ⟨fun h => ?_,fun hle wide => ?_⟩
    · by_contra hgt
      obtain ⟨r,hr,_⟩ := h fun _ _ => none
      simp [isSat,gated_length,activeAssumptions_none _ (not_le.mp hgt)] at hr
    · have hsat : Answers (isSat wide S (buildGatedProblem p).sp) (M.Unsat p) := isSat_exact hS hle
      obtain ⟨r,hr,hru⟩ := hsat
        (if p.constraints.length < 64 then 1#64 <<< p.constraints.length - 1#64
          else BitVec.allOnes 64)
      rw [fullMask_bits hle] at hru
      obtain rfl : r = false := by
        cases r with
        | false => rfl
        | true => exact absurd hu (hru.mp rfl)
      rw [hr]
      simp only [bind_some,false_eq_true,if_false]
      have hcore : ∀ i ∈ List.range p.constraints.length, i < 64 := fun i hi => by
        have := mem_range.mp hi
        omega
      have hset : {i | i ∈ List.range p.constraints.length} =
          Set.Iio p.constraints.length := Set.ext fun i => mem_range
      have hroom : (List.range p.constraints.length).length ≤ maxCoreSize := by
        rwa [List.length_range]
      split_ifs
      · obtain ⟨st,hst,hnd,hmem,hmin⟩ := deletionMus_minimal hU hsat hcore List.nodup_range
          (by rwa [hset]) hroom 1
        refine ⟨_,by rw [hst,map_some],?_⟩
        exact (reports_iff _ hnd fun i hi => mem_range.mp (hmem i hi)).mpr hmin
      · obtain ⟨st,l,hst,h⟩ := quickxplain_adds hU hsat hstop _ []
          (List.range p.constraints.length) ⟨[],1⟩ rfl (by simp) hcore List.nodup_range
          (by rw [hset]; exact hU hu Set.subset_union_right)
          (by simpa using hroom)
        have hout : st.out = l := h.out
        refine ⟨_,by rw [hst,map_some],?_⟩
        refine (reports_iff _ (hout ▸ h.nodup) fun i hi =>
          mem_range.mp (h.mem i (hout ▸ hi))).mpr ?_
        rw [hout]
        exact MinimalOver.minimal hU (by simpa using h.minimal)

inductive Cmp
  | lt (x c : ℕ)
  | gt (x c : ℕ)
  deriving DecidableEq

def Cmp.holds : Cmp → (ℕ → ℕ) → Prop
  | .lt x c, a => a x < c
  | .gt x c, a => c < a x

def bytes : Meaning Unit Cmp (ℕ → ℕ) := ⟨fun _ a => ∀ x, a x < 256,Cmp.holds⟩

def lowerBound (x : ℕ) : List Cmp → ℕ
  | [] => 0
  | .lt _ _ :: l => lowerBound x l
  | .gt y c :: l => if y = x then max (c + 1) (lowerBound x l) else lowerBound x l

def boundsMeet (l : List Cmp) : Bool := l.all fun
  | .lt x c => decide (lowerBound x l < c)
  | .gt x _ => decide (lowerBound x l < 256)

theorem lowerBound_le {a : ℕ → ℕ} {l : List Cmp} (h : ∀ c ∈ l, c.holds a) (x : ℕ) :
    lowerBound x l ≤ a x := by
  induction l with
  | nil => exact Nat.zero_le _
  | cons c l ih =>
    have hl := ih fun d hd => h d (by simp [hd])
    cases c with
    | lt y d => exact hl
    | gt y d =>
      have hy : d < a y := h (.gt y d) (by simp)
      simp only [lowerBound]
      split_ifs with he
      · subst he
        exact max_le hy hl
      · exact hl

theorem lt_lowerBound {l : List Cmp} {x c : ℕ} (h : Cmp.gt x c ∈ l) : c < lowerBound x l := by
  induction l with
  | nil => simp at h
  | cons d l ih =>
    rcases List.mem_cons.mp h with rfl | h
    · simp [lowerBound]
    · have := ih h
      cases d with
      | lt => exact this
      | gt y d =>
        simp only [lowerBound]
        split_ifs
        · exact lt_max_of_lt_right this
        · exact this

theorem boundsMeet_iff (l : List Cmp) : boundsMeet l = true ↔
    ∃ a : ℕ → ℕ, (∀ x, a x < 256) ∧ ∀ c ∈ l, c.holds a := by
  rw [boundsMeet,List.all_eq_true]
  constructor
  · intro h
    refine ⟨fun x => if lowerBound x l < 256 then lowerBound x l else 0,fun x => ?_, fun c hc => ?_⟩
    · dsimp only
      split_ifs <;> omega
    · have := h c hc
      cases c with
      | lt x d =>
        simp only [decide_eq_true_eq] at this
        simp only [Cmp.holds]
        split_ifs <;> omega
      | gt x d =>
        simp only [decide_eq_true_eq] at this
        simp only [Cmp.holds,this,if_true]
        exact lt_lowerBound hc
  · rintro ⟨a,ha,hl⟩ c hc
    cases c with
    | lt x d => exact decide_eq_true ((lowerBound_le hl x).trans_lt (hl _ hc))
    | gt x d => exact decide_eq_true ((lowerBound_le hl x).trans_lt (ha x))

/-- Compiling tightens the bounds by the hard constraints; a search decides the rest. -/
def boundsSolver : Solver Unit Cmp where
  conflict _ cs := !boundsMeet cs
  solve p on := boundsMeet (p.constraints.map (·.root) ++
    on.filterMap fun i => (p.softs[i]?).map (·.root))

theorem boundsSolver_exact : boundsSolver.Exact bytes where
  conflict _ cs h := by
    rintro ⟨a,hf,hc⟩
    rw [boundsSolver,Bool.not_eq_true',← Bool.not_eq_true,boundsMeet_iff] at h
    exact h ⟨a,hf,hc⟩
  solve p on := by
    rw [boundsSolver,boundsMeet_iff]
    refine exists_congr fun a => and_congr_right fun _ => ⟨fun h => ⟨fun c hc => ?_,?_⟩,?_⟩
    · exact h _ (List.mem_append_left _ (List.mem_map_of_mem hc))
    · intro i hi c hc
      refine h _ (List.mem_append_right _ (List.mem_filterMap.mpr ⟨i,hi,?_⟩))
      rw [hc,map_some]
    · rintro ⟨hc,hs⟩ c hmem
      simp only [mem_append,List.mem_map,List.mem_filterMap,Option.map_eq_some_iff] at hmem
      rcases hmem with ⟨d,hd,rfl⟩ | ⟨i,hi,d,hd,rfl⟩
      · exact hc d hd
      · exact hs i hi d hd

def byteProblem (l : List Cmp) : Problem Unit Cmp := l.foldl problemAddConstraint ⟨(),[],[],0⟩

theorem byteProblem_unsat {l : List Cmp} {x c d : ℕ} {i j : ℕ} (hd : d ≤ c + 1)
    (hi : (byteProblem l).added[i]? = some ⟨.gt x c,i + 1⟩)
    (hj : (byteProblem l).added[j]? = some ⟨.lt x d,j + 1⟩) {s : Set ℕ} (his : i ∈ s)
    (hjs : j ∈ s) : bytes.Unsat (byteProblem l) s := by
  rintro ⟨a,_,ha⟩
  have h₁ : c < a x := ha i his _ hi
  have h₂ : a x < d := ha j hjs _ hj
  omega

/-- `x < 3` and `x > 5` with 63 constraints `y < 3` between them. -/
def farPair : Problem Unit Cmp :=
  byteProblem (.lt 0 3 :: List.replicate 63 (.lt 1 3) ++ [.gt 0 5])

def shiftMod64 (mask : BitVec 64) (i : ℕ) : Option Bool := some (mask.getLsbD (i % 64))

theorem farPair_middle : ∀ i < 65, i % 64 ≠ 0 → (farPair.added[i]?).map (·.root) = some (.lt 1 3) := by
  decide

theorem isSat_farPair (mask : BitVec 64) :
    isSat shiftMod64 boundsSolver (buildGatedProblem farPair).sp mask = some !mask.getLsbD 0 := by
  have hbits : ∀ i < farPair.constraints.length,
      (if i < 64 then some (mask.getLsbD i) else shiftMod64 mask i) = some (mask.getLsbD (i % 64)) := by
    intro i _
    split_ifs with h
    · rw [Nat.mod_eq_of_lt h]
    · rfl
  obtain ⟨r,hr,hru⟩ := isSat_eq boundsSolver_exact hbits
  rw [hr]
  refine congrArg some ?_
  cases h0 : mask.getLsbD 0 with
  | true =>
    rw [Bool.not_true,← Bool.not_eq_true,hru,not_not]
    exact byteProblem_unsat (by decide : 3 ≤ 5 + 1) (i := 64) (j := 0) rfl rfl (by simpa using h0)
      (by simpa using h0)
  | false =>
    refine hru.mpr fun hu => hu ⟨fun _ => 0,by simp [bytes],fun i hi c hc => ?_⟩
    have hlt : i < 65 := (List.getElem?_eq_some_iff.mp hc).1
    have hne : i % 64 ≠ 0 := fun he => by
      rw [Set.mem_ofPred_eq,he,h0] at hi
      cases hi
    have hroot := farPair_middle i hlt hne
    rw [hc] at hroot
    rw [show c.root = .lt 1 3 from Option.some.inj hroot]
    exact (by decide : 0 < 3)

/-- With 65 constraints and the shift count taken modulo 64, the last constraint is active with
the first: the first is reported alone, and it is satisfiable. -/
theorem contraAnalyzeUnsat_far_pair : boundsSolver.Exact bytes ∧
    bytes.Unsat farPair (Set.Iio farPair.constraints.length) ∧
    farPair.constraints.length ≤ maxCoreSize ∧
    ∃ r, contraAnalyzeUnsat shiftMod64 boundsSolver ⟨fun _ => false,false⟩ farPair = some r ∧
      r.musConstraintIds = [1] ∧ ¬Reports bytes farPair r := by
  obtain ⟨st,hst,hout⟩ := quickxplain_head (fun _ => rfl : ∀ n, (fun _ : ℕ => false) n = false)
    (by decide : 0 < maxCoreSize) isSat_farPair 64 (List.range 65) 1 (by simp) rfl
  refine ⟨boundsSolver_exact,byteProblem_unsat (by decide : 3 ≤ 5 + 1) (i := 64) (j := 0) rfl rfl
    (by decide) (by decide),by decide,reportIds (buildGatedProblem farPair) 65 st,?_,?_,fun h => ?_⟩
  · have href : (buildGatedProblem farPair).sp.refused boundsSolver = false := by
      rw [Problem.refused,gated_frame,gated_constraints]
      rfl
    have hnum : (buildGatedProblem farPair).nHard = 65 := rfl
    simp only [contraAnalyzeUnsat,href,hnum,isSat_farPair,bind_some]
    exact (congrArg _ hst).trans (map_some ..)
  · rw [reportIds,hout]
    rfl
  · rw [reportIds,hout] at h
    refine h.mus.1 ⟨fun _ => 0,by simp [bytes],fun i hi c hc => ?_⟩
    obtain rfl : i = 0 := by simpa using hi
    obtain rfl : ⟨.lt 0 3,1⟩ = c := Option.some.inj hc
    exact (by decide : 0 < 3)

def onePair : Problem Unit Cmp := byteProblem [.lt 1 3,.lt 0 3,.lt 1 4,.gt 0 5,.lt 1 5]

theorem contraAnalyzeUnsat_one_pair : ∃ r,
    contraAnalyzeUnsat (fun _ _ => none) boundsSolver ⟨fun _ => false,false⟩ onePair = some r ∧
      Reports bytes onePair r :=
  (contraAnalyzeUnsat_reports_iff boundsSolver bytes onePair ⟨fun _ => false,false⟩
    boundsSolver_exact
    (byteProblem_unsat (by decide : 3 ≤ 5 + 1) (i := 3) (j := 1) rfl rfl (by decide) (by decide))
    (by decide) (fun _ => rfl) rfl).mpr (.inr (by decide)) _

end Contra
end DvSolve
