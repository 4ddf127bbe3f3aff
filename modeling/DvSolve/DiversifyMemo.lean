import DvSolve.DiversifySem

/-! The memoized flips leave the model of the plain ones.
Between two evaluations the valuation may be stale; the assignment `st` is not, and what the
table holds of an assignment is whether it satisfies. -/
namespace DvSolve
namespace Bbsolver

open Function Aig Aigsim

variable {m : Aig} {asserts : List ℤ} {nv W : ℕ → Bool}
variable {c : ℕ × Bool} {x : Diversifier}

theorem evalFrom_spec (asserts : List ℤ) (stop : Bool) (hm : m.Wf) (hW : Settled m W)
    (n lo : ℕ) (ok : Bool) (h : ∀ j, j < lo ∨ leftOf m j = 0 → nv j = W j) {r : (ℕ → Bool) × Bool}
    (hr : evalFrom m asserts stop (List.range' lo n) nv ok = r) :
    (∀ j, leftOf m j = 0 → r.1 j = W j) ∧
      (r.2 = true ↔ ok = true ∧ ∀ id, lo ≤ id → id < lo+n → barred m asserts id (W id) = false) ∧
      (stop = false ∨ r.2 = true → ∀ j < lo+n, r.1 j = W j) := by
  induction n generalizing lo nv ok with
  | zero =>
    subst hr
    refine ⟨fun j hj => h j (.inr hj),?_,fun _ j hj => h j (.inl (by omega))⟩
    constructor
    · exact fun hok => ⟨hok,fun id h1 h2 => by omega⟩
    · exact fun hok => hok.1
  | succ n ih =>
    have hnext : ∀ j, j < lo+1 ∨ leftOf m j = 0 →
        (if leftOf m lo ≠ 0 then Function.update nv lo (gate m nv lo) else nv) j = W j := by
      intro j hj
      by_cases hl : leftOf m lo = 0
      · rw [if_neg (by simpa using hl)]
        by_cases hjl : j = lo
        · exact h j (.inr (hjl ▸ hl))
        · exact h j (hj.imp_left fun h1 => by omega)
      · rw [if_pos hl]
        by_cases hjl : j = lo
        · rw [hjl,update_self,hW lo hl]
          exact gate_congr hm hl fun i _ hi => h i (.inl hi)
        · rw [update_of_ne hjl]
          exact h j (hj.imp_left fun h1 => by omega)
    rw [List.range'_succ,evalFrom] at hr
    rw [hnext lo (.inl (by omega))] at hr
    by_cases hb : barred m asserts lo (W lo) = true
    · have hnot : ¬ ∀ id, lo ≤ id → id < lo+(n+1) → barred m asserts id (W id) = false := by
        intro hall
        rw [hall lo le_rfl (by omega)] at hb
        exact absurd hb (by simp)
      rw [if_pos hb] at hr
      cases stop with
      | true =>
        subst hr
        refine ⟨fun j hj => hnext j (.inr hj),iff_of_false (by simp) fun h1 => hnot h1.2,?_⟩
        rintro (h1 | h1)
        · exact absurd h1 (by simp)
        · exact absurd h1 (by simp)
      | false =>
        obtain ⟨h1,h2,h3⟩ := ih (lo+1) false hnext hr
        refine ⟨h1,iff_of_false (fun h4 => ?_) fun h4 => hnot h4.2,fun h4 j hj => h3 h4 j (by omega)⟩
        exact absurd (h2.mp h4).1 (by simp)
    · rw [if_neg hb] at hr
      obtain ⟨h1,h2,h3⟩ := ih (lo+1) ok hnext hr
      refine ⟨h1,h2.trans (and_congr_right fun _ => ?_),fun h4 j hj => h3 h4 j (by omega)⟩
      constructor
      · intro hall id hge hlt
        rcases Nat.eq_or_lt_of_le hge with rfl | hgt
        · exact Bool.eq_false_iff.mpr hb
        · exact hall id hgt (by omega)
      · exact fun hall id hge hlt => hall id (by omega) (by omega)

theorem sat_settle_iff (hv : ∀ a ∈ asserts, m.Valid a) (hf : aigFalse ∉ asserts) :
    Sat asserts (settle m nv) ↔
      ∀ id, 1 ≤ id → id < 1+m.nodes.size → barred m asserts id (settle m nv id) = false := by
  constructor
  · exact fun h id _ _ => Bool.eq_false_iff.mpr fun hid => not_sat_of_barred hid h
  · exact fun h => sat_of_barred hv hf fun id h1 h2 => h id h1 (by omega)

theorem evalAll_spec (nv : ℕ → Bool) (hm : m.Wf) (hv : ∀ a ∈ asserts, m.Valid a)
    (hf : aigFalse ∉ asserts) (stop : Bool) :
    (∀ j, leftOf m j = 0 → (evalAll m asserts stop nv).1 j = nv j) ∧
      ((evalAll m asserts stop nv).2 = true ↔ Sat asserts (settle m nv)) ∧
      (stop = false ∨ (evalAll m asserts stop nv).2 = true →
        (evalAll m asserts stop nv).1 = settle m nv) := by
  have hstart : ∀ j, j < 1 ∨ leftOf m j = 0 → nv j = settle m nv j := by
    intro j hj
    refine (settle_leaf ?_).symm
    rcases hj with hj | hj
    · by_contra hl
      have := (leftOf_and hl).1
      omega
    · exact hj
  obtain ⟨h1,h2,h3⟩ := evalFrom_spec asserts stop hm (settle_settled hm nv)
    m.nodes.size 1 true hstart rfl
  have hleaf : ∀ j, leftOf m j = 0 → (evalAll m asserts stop nv).1 j = settle m nv j := h1
  refine ⟨fun j hj => (hleaf j hj).trans (settle_leaf hj),?_,fun h4 => funext fun j => ?_⟩
  · rw [sat_settle_iff hv hf]
    exact h2.trans (and_iff_right rfl)
  · by_cases hj : j < 1+m.nodes.size
    · exact h3 h4 j hj
    · refine hleaf j ?_
      by_contra hl
      have := (leftOf_and hl).2.1
      omega

def atInputs (m : Aig) (inputs : List ℕ) (nv : ℕ → Bool) (st : ℕ) : ℕ → Bool :=
  settle m (setInputs inputs st nv)

structure Memo.Good (m : Aig) (asserts : List ℤ) (inputs : List ℕ) (nv : ℕ → Bool) (s : Memo) :
    Prop where
  valid : ∀ x b, s.valid x = some b → (b = true ↔ Sat asserts (atInputs m inputs nv x))
  fresh : ∀ x, s.nvSt = some x → s.nv = atInputs m inputs nv x
  leaves : ∀ id, leftOf m id = 0 → id ∉ inputs → s.nv id = nv id
  here : Sat asserts (atInputs m inputs nv s.st)

variable {inputs : List ℕ} {s : Memo}

theorem setInputs_of_mem {id : ℕ} (st : ℕ) (h : id ∈ inputs) :
    setInputs inputs st nv id = st.testBit (inputs.idxOf id) := if_pos h

theorem setInputs_of_not_mem {id : ℕ} (st : ℕ) (h : id ∉ inputs) :
    setInputs inputs st nv id = nv id := if_neg h

theorem atInputs_flip (hm : m.Wf) (hc : c.1 ∈ inputs) {st : ℕ}
    (hne : st.testBit (inputs.idxOf c.1) ≠ c.2) :
    settle m (Function.update (atInputs m inputs nv st) c.1 c.2) =
      atInputs m inputs nv (st ^^^ 2^inputs.idxOf c.1) := by
  refine settle_congr hm fun id hid => ?_
  by_cases hpn : id = c.1
  · rw [hpn,update_self,setInputs_of_mem _ hc,Nat.testBit_xor,Nat.testBit_two_pow_self]
    revert hne
    cases c.2 <;> cases st.testBit (inputs.idxOf c.1) <;> simp
  · rw [update_of_ne hpn,atInputs,settle_leaf hid]
    by_cases hin : id ∈ inputs
    · have hidx : inputs.idxOf c.1 ≠ inputs.idxOf id := fun heq =>
        hpn ((List.idxOf_inj hc).mp heq).symm
      rw [setInputs_of_mem _ hin,setInputs_of_mem _ hin,Nat.testBit_xor,
        Nat.testBit_two_pow_of_ne hidx,Bool.xor_false]
    · rw [setInputs_of_not_mem _ hin,setInputs_of_not_mem _ hin]

theorem atInputs_same (hleaf : leftOf m c.1 = 0) (hc : c.1 ∈ inputs) {st : ℕ}
    (heq : st.testBit (inputs.idxOf c.1) = c.2) :
    atInputs m inputs nv st c.1 = c.2 := by
  rw [atInputs,settle_leaf hleaf,setInputs_of_mem _ hc,heq]

section
variable (hm : m.Wf) (hv : ∀ a ∈ asserts, m.Valid a) (hf : aigFalse ∉ asserts)
include hm hv hf

theorem Memo.Good.look (h : s.Good m asserts inputs nv) (nst : ℕ) :
    (s.look m asserts inputs nst).Good m asserts inputs nv ∧ (s.look m asserts inputs nst).st = s.st ∧
      ((s.look m asserts inputs nst).valid nst = some true ↔ Sat asserts (atInputs m inputs nv nst)) := by
  unfold Memo.look
  by_cases hnone : s.valid nst = none
  · rw [if_pos hnone]
    have hat : settle m (setInputs inputs nst s.nv) = atInputs m inputs nv nst := by
      refine settle_congr hm fun id hid => ?_
      by_cases hin : id ∈ inputs
      · rw [setInputs_of_mem _ hin,setInputs_of_mem _ hin]
      · rw [setInputs_of_not_mem _ hin,setInputs_of_not_mem _ hin,h.leaves id hid hin]
    obtain ⟨h1,h2,h3⟩ := evalAll_spec (setInputs inputs nst s.nv) hm hv hf true
    rw [hat] at h2 h3
    refine ⟨⟨fun x b hx => ?_,fun x hx => ?_,fun id hid hin => ?_,h.here⟩,rfl,?_⟩
    · by_cases hxn : x = nst
      · rw [hxn] at hx ⊢
        simp only [update_self,Option.some.injEq] at hx
        rw [← hx,h2]
      · simp only [update_of_ne hxn] at hx
        exact h.valid x b hx
    · dsimp only at hx
      split_ifs at hx with hok
      obtain rfl : nst = x := by simpa using hx
      exact h3 (.inr hok)
    · exact (h1 id hid).trans ((setInputs_of_not_mem _ hin).trans (h.leaves id hid hin))
    · simp only [update_self,Option.some.injEq]
      exact h2
  · rw [if_neg hnone]
    obtain ⟨b,hb⟩ := Option.ne_none_iff_exists'.mp hnone
    refine ⟨h,rfl,?_⟩
    rw [hb,Option.some.injEq]
    exact h.valid nst b hb

theorem Memo.Good.visit (h : s.Good m asserts inputs nv) (hc : Turns m c) (hin : c.1 ∈ inputs) :
    (s.visit m asserts inputs c).Good m asserts inputs nv ∧
      atInputs m inputs nv (s.visit m asserts inputs c).st =
        accept m asserts (atInputs m inputs nv s.st) c := by
  unfold Memo.visit
  by_cases hsame : s.st.testBit (inputs.idxOf c.1) = c.2
  · rw [if_pos hsame]
    exact ⟨h,(accept_same hm (settle_settled hm _) (atInputs_same hc.2 hin hsame)).symm⟩
  rw [if_neg hsame]
  by_cases hb : barred m asserts c.1 c.2 = true
  · rw [if_pos hb,accept_barred hc.2 hb]
    exact ⟨h,rfl⟩
  rw [if_neg hb,accept,atInputs_flip hm hin hsame]
  obtain ⟨hgood,hst,hiff⟩ := h.look hm hv hf (s.st ^^^ 2^inputs.idxOf c.1)
  by_cases hsat : Sat asserts (atInputs m inputs nv (s.st ^^^ 2^inputs.idxOf c.1))
  · rw [if_pos (hiff.mpr hsat),if_pos hsat]
    exact ⟨⟨hgood.valid,hgood.fresh,hgood.leaves,hsat⟩,rfl⟩
  · rw [if_neg fun h1 => hsat (hiff.mp h1),if_neg hsat,hst]
    exact ⟨hgood,rfl⟩

theorem Memo.Good.visits (cand : List (ℕ × Bool)) (hc : ∀ c ∈ cand, Turns m c)
    (hin : ∀ c ∈ cand, c.1 ∈ inputs) (h : s.Good m asserts inputs nv) :
    (cand.foldl (Memo.visit m asserts inputs) s).Good m asserts inputs nv ∧
      atInputs m inputs nv (cand.foldl (Memo.visit m asserts inputs) s).st =
        cand.foldl (accept m asserts) (atInputs m inputs nv s.st) := by
  induction cand generalizing s with
  | nil => exact ⟨h,rfl⟩
  | cons c cand ih =>
    obtain ⟨h1,h2⟩ := h.visit hm hv hf (hc c List.mem_cons_self) (hin c List.mem_cons_self)
    obtain ⟨h3,h4⟩ := ih (fun d hd => hc d (List.mem_cons_of_mem _ hd))
      (fun d hd => hin d (List.mem_cons_of_mem _ hd)) h1
    rw [h2] at h4
    exact ⟨h3,h4⟩

end

theorem atInputs_ofBits (hm : m.Wf) (h : Settled m nv) (inputs : List ℕ) :
    atInputs m inputs nv (Nat.ofBits fun i : Fin inputs.length => nv (inputs.get i)) = nv := by
  have hset : setInputs inputs (Nat.ofBits fun i : Fin inputs.length => nv (inputs.get i)) nv = nv := by
    funext id
    by_cases hin : id ∈ inputs
    · have hlt := List.idxOf_lt_length_iff.mpr hin
      rw [setInputs_of_mem _ hin,Nat.testBit_ofBits_lt _ _ hlt]
      simp
    · exact setInputs_of_not_mem _ hin
  rw [atInputs,hset,h.settle_eq hm]

/-- From a model the memoized flips, when they are made, leave what the flips leave; when
not, the valuation is untouched. -/
theorem diversifyMemo_spec (hm : m.Wf) (hv : ∀ a ∈ asserts, m.Valid a) (h : Holds m asserts nv)
    (alloc : Bool) {cand : List (ℕ × Bool)} (hc : ∀ c ∈ cand, Turns m c)
    (hin : ∀ c ∈ cand, c.1 ∈ inputs) :
    (diversifyMemo m asserts alloc cand inputs nv).1 =
      if (diversifyMemo m asserts alloc cand inputs nv).2 then cand.foldl (accept m asserts) nv
      else nv := by
  obtain ⟨_,h2,h3⟩ := evalAll_spec nv hm hv h.no_false true
  rw [h.settled.settle_eq hm] at h2 h3
  have hstart : evalAll m asserts true nv = (nv,true) :=
    Prod.ext (h3 (.inr (h2.mpr h.sat))) (h2.mpr h.sat)
  unfold diversifyMemo
  dsimp only
  rw [hstart,if_neg (by simp)]
  cases alloc with
  | false => simp
  | true =>
    rw [if_neg (by simp)]
    have hst := atInputs_ofBits hm h.settled inputs
    set st := Nat.ofBits fun i : Fin inputs.length => nv (inputs.get i)
    have hgood : Memo.Good m asserts inputs nv
        ⟨nv,st,Function.update (fun _ => none) st (some true),some st⟩ := by
      refine ⟨fun x b hx => ?_,fun x hx => ?_,fun _ _ _ => rfl,?_⟩
      · dsimp only at hx
        by_cases hxs : x = st
        · rw [hxs,update_self,Option.some.injEq] at hx
          rw [hxs,← hx,hst]
          exact iff_of_true rfl h.sat
        · rw [update_of_ne hxs] at hx
          exact absurd hx (by simp)
      · obtain rfl : st = x := by simpa using hx
        exact hst.symm
      · dsimp only
        rw [hst]
        exact h.sat
    obtain ⟨hend,hrun⟩ := hgood.visits hm hv h.no_false cand hc hin
    rw [hst] at hrun
    generalize cand.foldl (Memo.visit m asserts inputs)
      ⟨nv,st,Function.update (fun _ => none) st (some true),some st⟩ = s at hend hrun ⊢
    have hlast : (evalAll m asserts false (setInputs inputs s.st s.nv)).1 =
        atInputs m inputs nv s.st := by
      obtain ⟨_,_,h4⟩ := evalAll_spec (setInputs inputs s.st s.nv) hm hv h.no_false false
      rw [h4 (.inl rfl)]
      refine settle_congr hm fun id hid => ?_
      by_cases hi : id ∈ inputs
      · rw [setInputs_of_mem _ hi,setInputs_of_mem _ hi]
      · rw [setInputs_of_not_mem _ hi,setInputs_of_not_mem _ hi,hend.leaves id hid hi]
    split_ifs with hfresh h1 h1
    · rw [hend.fresh _ hfresh,hrun]
    · exact absurd rfl h1
    · rw [hlast,hrun]
    · exact absurd rfl h1

variable {base : ℕ → Bool}

theorem mem_candidates {sseed : BitVec 64} (hc : c ∈ x.candidates m sseed) : Turns m c := by
  obtain ⟨v,_,hv⟩ := List.mem_flatMap.mp hc
  obtain ⟨b,_,hb⟩ := List.mem_filterMap.mp hv
  dsimp only at hb
  split_ifs at hb with h1 h2
  · obtain rfl := (Option.some.inj hb).symm
    exact ⟨by dsimp only; omega,by tauto⟩
  · obtain rfl := (Option.some.inj hb).symm
    exact ⟨by dsimp only; omega,by tauto⟩

theorem candidates_fst (m : Aig) (x : Diversifier) (sseed sseed' : BitVec 64) :
    (x.candidates m sseed).map Prod.fst = (x.candidates m sseed').map Prod.fst := by
  rw [Diversifier.candidates,Diversifier.candidates,List.map_flatMap,List.map_flatMap]
  refine List.flatMap_congr fun v _ => ?_
  rw [List.map_filterMap,List.map_filterMap]
  refine List.filterMap_congr fun b _ => ?_
  dsimp only
  split_ifs <;> simp only [Option.map_none,Option.map_some]

theorem mem_dedup {l acc : List ℕ} {a : ℕ} :
    a ∈ l.foldl (fun is b => if b ∈ is then is else is ++ [b]) acc ↔ a ∈ l ∨ a ∈ acc := by
  induction l generalizing acc with
  | nil => simp
  | cons b l ih =>
    rw [List.foldl_cons,ih,List.mem_cons]
    split_ifs with hb
    · constructor
      · exact fun h => h.imp_left .inr
      · rintro ((rfl | h) | h)
        · exact .inr hb
        · exact .inl h
        · exact .inr h
    · rw [List.mem_append,List.mem_singleton]
      tauto

theorem visits_turn {sweeps : ℕ} (hc : c ∈ x.visits m sweeps) :
    Turns m c ∧ c.1 ∈ x.inputs m := by
  obtain ⟨sw,_,hsw⟩ := List.mem_flatMap.mp hc
  refine ⟨mem_candidates hsw,mem_dedup.mpr (.inl ?_)⟩
  rw [candidates_fst m x x.seed (x.sweepSeed sw)]
  exact List.mem_map_of_mem hsw

/-- The start has the AND nodes recomputed. -/
theorem startVal_holds (hm : m.Wf) (h : Sat asserts (startVal m base)) :
    Holds m asserts (startVal m base) := ⟨settle_settled hm _,h⟩

theorem Model.startVal (hm : m.Wf) (hv : ∀ a ∈ asserts, m.Valid a) (h : Model m asserts base) :
    Sat asserts (startVal m base) := by
  have hsame : ∀ j, 1 ≤ j → Function.update base 0 false j = base j := fun j hj =>
    update_of_ne (by omega) _ _
  have hset : Settled m (Function.update base 0 false) := by
    intro id hid
    rw [gate_congr hm hid fun j hj _ => hsame j hj,hsame id (by have := (leftOf_and hid).1; omega)]
    exact (settled_iff hm).mpr h.consistent id hid
  have hstart : Bbsolver.startVal m base = Function.update base 0 false := hset.settle_eq hm
  intro a ha
  rw [hstart,litVal,hsame _ (Int.natAbs_pos.mpr (hv a ha).1)]
  exact h.holds a ha

theorem Holds.model (hm : m.Wf) (h : Holds m asserts nv) : Model m asserts nv :=
  ⟨(settled_iff hm).mp h.settled,h.sat⟩

theorem Flip.fresh_quiet (nv : ℕ → Bool) : (Flip.fresh nv).Quiet := fun _ => rfl

theorem flips_eq (hm : m.Wf) (hv : ∀ a ∈ asserts, m.Valid a) {cand : List (ℕ × Bool)}
    (hc : ∀ c ∈ cand, Turns m c) (h : Holds m asserts nv) :
    flips m asserts cand nv = cand.foldl (accept m asserts) nv ∧
      Holds m asserts (flips m asserts cand nv) := by
  obtain ⟨_,h2,h3⟩ := flips_spec hv hm cand hc (Flip.fresh_quiet nv) h
  have heq : flips m asserts cand nv = cand.foldl (accept m asserts) nv := h2
  rw [heq]
  exact ⟨rfl,h3⟩

/-- The visit list is read without having been written: the array of inputs cannot be
allocated, the list can, and there is a candidate. -/
def Diversifier.Unwritten (m : Aig) (x : Diversifier) : Prop :=
  ¬ x.Idle m ∧ x.scratch = true ∧ x.listed = true ∧ x.slotted = false ∧ x.candidates m x.seed ≠ []

theorem visits_eq_nil {sweeps : ℕ} :
    x.visits m sweeps = [] ↔ x.candidates m x.seed = [] := by
  have hany : ∀ sw, x.candidates m (x.sweepSeed sw) = [] ↔ x.candidates m x.seed = [] := by
    intro sw
    rw [← List.map_eq_nil_iff (f:=Prod.fst),candidates_fst m x _ x.seed,List.map_eq_nil_iff]
  unfold Diversifier.visits
  rw [List.flatMap_eq_nil_iff]
  constructor
  · exact fun h => (hany 0).mp (h 0 (List.mem_range.mpr (Nat.succ_pos _)))
  · exact fun h sw _ => (hany sw).mpr h

theorem diversifySweeps_holds (hm : m.Wf) (x : Diversifier) (sweeps : ℕ)
    (hv : ∀ a ∈ x.asserts, m.Valid a) (h : Sat x.asserts (startVal m base)) :
    (∃ nv, diversifySweeps m x sweeps base = some nv ∧
      (x.Idle m ∧ nv = base ∨ Model m x.asserts nv)) ↔ ¬ x.Unwritten m := by
  have hstart := startVal_holds hm h
  have hturns : ∀ c ∈ x.visits m sweeps, Turns m c := fun c hc => (visits_turn hc).1
  have hflips := (flips_eq hm hv hturns hstart).2.model hm
  unfold diversifySweeps Diversifier.Unwritten
  by_cases hidle : x.Idle m
  · rw [if_pos hidle]
    exact iff_of_true ⟨base,rfl,.inl ⟨hidle,rfl⟩⟩ fun hu => hu.1 hidle
  rw [if_neg hidle]
  cases hsc : x.scratch with
  | false => exact iff_of_true ⟨_,rfl,.inr (hstart.model hm)⟩ fun hu => absurd hu.2.1 (by simp)
  | true =>
    cases hl : x.listed with
    | false =>
      exact iff_of_true
        ⟨_,rfl,.inr ((flips_eq hm hv (fun c hc => mem_candidates hc) hstart).2.model hm)⟩
        fun hu => absurd hu.2.2.1 (by simp)
    | true =>
      rw [if_neg (by simp),if_neg (by simp)]
      cases hs : x.slotted with
      | false =>
        rw [if_pos (by simp)]
        by_cases hnil : x.candidates m x.seed = []
        · rw [if_pos (visits_eq_nil.mpr hnil)]
          exact iff_of_true ⟨_,rfl,.inr (hstart.model hm)⟩ fun hu => hu.2.2.2.2 hnil
        · rw [if_neg fun hvis => hnil (visits_eq_nil.mp hvis)]
          exact iff_of_false (by simp) fun hu => hu ⟨hidle,rfl,rfl,rfl,hnil⟩
      | true =>
        rw [if_neg (by simp)]
        refine iff_of_true ⟨_,rfl,.inr ?_⟩ fun hu => absurd hu.2.2.2.1 (by simp)
        split_ifs with h4 h5 h5
        · rw [diversifyMemo_spec hm hv hstart x.table hturns fun c hc => (visits_turn hc).2,
            if_pos h5,← (flips_eq hm hv hturns hstart).1]
          exact hflips
        · rw [diversifyMemo_spec hm hv hstart x.table hturns fun c hc => (visits_turn hc).2, if_neg h5]
          exact hflips
        · exact absurd h5 (by simp)
        · exact hflips

theorem flip_rejected (hm : m.Wf) (hv : ∀ a ∈ asserts, m.Valid a) (h : Holds m asserts nv)
    {pre : List (ℕ × Bool)} (hturns : ∀ d ∈ pre ++ [c], Turns m d) {s : Flip}
    (hs : s = pre.foldl (flip m asserts) (.fresh nv)) (hne : s.nv c.1 ≠ c.2)
    (hb : barred m asserts c.1 c.2 = false) :
    ∃ ok t, propCone m asserts (s.start c) c.1 = some (ok,t) ∧
      (ok = false → (flip m asserts s c).nv = s.nv) := by
  obtain ⟨hq,hnv,hholds⟩ := flips_spec hv hm pre (fun d hd => hturns d (List.mem_append_left _ hd))
    (Flip.fresh_quiet nv) h
  rw [← hs] at hq hnv
  have hsettled : Settled m s.nv := by
    rw [hnv]
    exact hholds.settled
  obtain ⟨⟨ok,t⟩,hr,_,hended⟩ := propCone_spec hm hq hsettled (hturns c (by simp)) hne hb
  refine ⟨ok,t,hr,?_⟩
  rintro rfl
  rw [flip,if_neg hne,if_neg (by simp [hb]),hr]
  exact hended.1

/-- From a start that satisfies the assertions, its AND nodes recomputed, the sweeps leave a
model unless they are idle, a rejected flip puts the valuation back and the memoized flips
leave what the plain ones do, just when no unwritten list is read. -/
theorem diversifySweeps_model_iff (hm : m.Wf) (x : Diversifier) (sweeps : ℕ)
    (hv : ∀ a ∈ x.asserts, m.Valid a) (h : Sat x.asserts (startVal m base)) :
    ((∃ nv, diversifySweeps m x sweeps base = some nv ∧
        (x.Idle m ∧ nv = base ∨ Model m x.asserts nv)) ∧
      (∀ pre c, pre ++ [c] <+: x.visits m sweeps →
        let s := pre.foldl (flip m x.asserts) (.fresh (startVal m base))
        s.nv c.1 ≠ c.2 → barred m x.asserts c.1 c.2 = false →
        ∃ ok t, propCone m x.asserts (s.start c) c.1 = some (ok,t) ∧
          (ok = false → (flip m x.asserts s c).nv = s.nv)) ∧
      ∀ alloc, (diversifyMemo m x.asserts alloc (x.visits m sweeps) (x.inputs m)
          (startVal m base)).2 = true →
        (diversifyMemo m x.asserts alloc (x.visits m sweeps) (x.inputs m) (startVal m base)).1 =
          flips m x.asserts (x.visits m sweeps) (startVal m base)) ↔ ¬ x.Unwritten m := by
  have hstart := startVal_holds hm h
  have hturns : ∀ c ∈ x.visits m sweeps, Turns m c := fun c hc => (visits_turn hc).1
  rw [diversifySweeps_holds hm x sweeps hv h]
  refine and_iff_left ⟨fun pre c hpre => ?_,fun alloc hdone => ?_⟩
  · intro s hne hb
    exact flip_rejected hm hv hstart (fun d hd => hturns d (hpre.subset hd)) rfl hne hb
  · rw [diversifyMemo_spec hm hv hstart alloc hturns fun c hc => (visits_turn hc).2,if_pos hdone,
      (flips_eq hm hv hturns hstart).1]

/-- A variable of two bits, the low one asserted. -/
theorem diversifySweeps_model_pair :
    let m := (Aig.Call.mkInput.run (Aig.Call.mkInput.run Aig.new).2).2
    let x : Diversifier := ⟨[2],[some [3,2]],7#64,false,false,true,true,true,true,true⟩
    ∃ nv, diversifySweeps m x 16 (fun _ => true) = some nv ∧ Model m [2] nv := by
  intro m x
  have hm : m.Wf := ((Aig.Reachable.new.call .mkInput (by decide)).call .mkInput (by decide)).wf
  have hslot : ¬ x.Unwritten m := fun hu => absurd hu.2.2.2.1 (by decide)
  have hbase : Sat x.asserts (startVal m fun _ => true) := by decide
  obtain ⟨nv,hnv,⟨hidle,-⟩ | hmodel⟩ :=
    ((diversifySweeps_model_iff hm x 16 (by decide) hbase).mpr hslot).1
  · exact absurd hidle (by decide)
  · exact ⟨nv,hnv,hmodel⟩

/-- The same variable when the array of its inputs cannot be allocated. -/
theorem diversifySweeps_unwritten :
    let m := (Aig.Call.mkInput.run (Aig.Call.mkInput.run Aig.new).2).2
    let x : Diversifier := ⟨[2],[some [3,2]],7#64,false,false,true,true,true,false,true⟩
    Model m [2] (fun _ => true) ∧
      ¬ ∃ nv, diversifySweeps m x 16 (fun _ => true) = some nv ∧ Model m [2] nv := by
  intro m x
  have hm : m.Wf := ((Aig.Reachable.new.call .mkInput (by decide)).call .mkInput (by decide)).wf
  have hbase : Model m [2] fun _ => true := by
    refine ⟨fun id h2 hle hand => ?_,by decide⟩
    have hsize : m.nodes.size = 3 := by decide
    obtain rfl | rfl : id = 2 ∨ id = 3 := by omega
    · exact absurd hand (by decide)
    · exact absurd hand (by decide)
  have hun : x.Unwritten m := ⟨by decide,rfl,rfl,rfl,by decide⟩
  refine ⟨hbase,fun hsome => ?_⟩
  obtain ⟨nv,hnv,hmodel⟩ := hsome
  exact (diversifySweeps_holds hm x 16 (by decide) (hbase.startVal hm (by decide))).mp
    ⟨nv,hnv,.inr hmodel⟩ hun

end Bbsolver
end DvSolve
