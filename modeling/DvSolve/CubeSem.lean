import DvSolve.Cube
import DvSolve.AigCnfSem

/-! The cubes cover the models of the clauses.
Every disjunction split on is asserted, so its children cover their parent, and the
seeds of each frontier cover everything. -/
namespace DvSolve
namespace Cubes

open Cnf

variable {c : Cube} {alloc : ℕ → Bool} {ds : List ℤ} {push : ℕ → Bool} {groups : List (List ℤ)}

/-- `v` lies in the region of the assumptions. -/
def Holds (v : ℕ → Bool) (lits : List ℤ) : Prop := ∀ l ∈ lits, litValue v l = true

/-- Every model of the clauses under the assumptions lies in one of the cubes. -/
def Covers (clauses : List (List ℤ)) (lits : List ℤ) (cs : List Cube) : Prop :=
  ∀ v, Satisfies v clauses → Holds v lits → ∃ c ∈ cs, Holds v c.lits

/-- Every model of the clauses has one of the disjuncts. -/
def Asserted (clauses : List (List ℤ)) (g : List ℤ) : Prop :=
  ∀ v, Satisfies v clauses → ∃ l ∈ g, litValue v l = true

def Refuted (clauses : List (List ℤ)) (lits : List ℤ) : Prop :=
  ∀ v, Satisfies v clauses → ¬ Holds v lits

def Answer.Right (clauses : List (List ℤ)) (lits : List ℤ) : Answer → Prop
  | .sat v => Satisfies v clauses ∧ Holds v lits
  | .unsat => Refuted clauses lits
  | .unknown => True

structure Choice.Right (clauses : List (List ℤ)) (cfg : Config) (c : Cube) (ch : Choice) :
    Prop where
  rc : ch.rc.Right clauses c.lits
  probe : ∀ g, cfg.ors[c.orDepth]? = some g →
    ∀ i d, g[i]? = some d → (ch.probe i).Right clauses (c.lits ++ [d])

def Outcome.Right (clauses : List (List ℤ)) (lits : List ℤ) : Outcome → Prop
  | .sat v => Satisfies v clauses
  | .refuted => Refuted clauses lits
  | .kids ks => ks = [] ∨ Covers clauses lits ks

def LaResult.Right (clauses : List (List ℤ)) (lits : List ℤ) : LaResult → Prop
  | .fallback => True
  | .sat v => Satisfies v clauses
  | .dead => Refuted clauses lits
  | .split ks => Covers clauses lits ks

variable {clauses : List (List ℤ)} {cfg : Config}

@[simp] theorem holds_nil (v : ℕ → Bool) : Holds v [] := by simp [Holds]

theorem holds_concat {v : ℕ → Bool} {lits : List ℤ} {d : ℤ} :
    Holds v (lits ++ [d]) ↔ Holds v lits ∧ litValue v d = true := by
  simp [Holds,or_imp,forall_and]

theorem asserted_pair (clauses : List (List ℤ)) {b : ℤ} (hb : b ≠ 0) :
    Asserted clauses [b,-b] := by
  intro v _
  cases hv : litValue v b with
  | true => exact ⟨b,by simp,hv⟩
  | false => exact ⟨-b,by simp,by simp [litValue_neg v hb,hv]⟩

theorem makeChild_lits {ok : Bool} {k : Cube} {d : ℤ} {growth : ℕ}
    (h : makeChild ok c d growth = some k) : k.lits = c.lits ++ [d] := by
  cases ok with
  | false => simp [makeChild] at h
  | true =>
    simp only [makeChild,if_true,Option.some.injEq] at h
    rw [← h]

theorem makeChildren_lits {growth : ℕ} {orDepth : ℕ} {ks : List Cube} {i : ℕ}
    (h : makeChildren alloc growth c orDepth i ds = some ks) :
    ks.map Cube.lits = ds.map fun d => c.lits ++ [d] := by
  induction ds generalizing i ks with
  | nil =>
    simp only [makeChildren,Option.some.injEq] at h
    simp [← h]
  | cons d ds ih =>
    simp only [makeChildren,Option.bind_eq_bind,Option.bind_eq_some_iff,Option.pure_def,
      Option.some.injEq] at h
    obtain ⟨k,hk,ks',hks,h⟩ := h
    simp [← h,makeChild_lits hk,ih hks]

theorem covers_children {ks : List Cube} (hd : Asserted clauses ds)
    (hk : ks.map Cube.lits = ds.map fun d => c.lits ++ [d]) : Covers clauses c.lits ks := by
  intro v hv hc
  obtain ⟨d,hd,hval⟩ := hd v hv
  have hm : c.lits ++ [d] ∈ ks.map Cube.lits := by
    rw [hk]
    exact List.mem_map.mpr ⟨d,hd,rfl⟩
  obtain ⟨k,hk,hlits⟩ := List.mem_map.mp hm
  exact ⟨k,hk,hlits ▸ holds_concat.mpr ⟨hc,hval⟩⟩

theorem makeChildren_covers {growth : ℕ} {orDepth i : ℕ} (hd : Asserted clauses ds) :
    (makeChildren alloc growth c orDepth i ds).getD [] = [] ∨
      Covers clauses c.lits ((makeChildren alloc growth c orDepth i ds).getD []) := by
  cases h : makeChildren alloc growth c orDepth i ds with
  | none => exact .inl rfl
  | some ks => exact .inr (covers_children hd (makeChildren_lits h))

theorem splitBit_covers (alloc : ℕ → Bool) (total : ℕ) (c : Cube) :
    splitBit cfg alloc total c = [] ∨ Covers clauses c.lits (splitBit cfg alloc total c) := by
  unfold splitBit
  split_ifs with hcap
  · exact .inl rfl
  · dsimp only
    split_ifs with hsb
    · exact .inl rfl
    · exact makeChildren_covers (asserted_pair clauses hsb)

theorem splitChildren_covers (hors : ∀ g ∈ cfg.ors, Asserted clauses g) (alloc : ℕ → Bool)
    (total : ℕ) (c : Cube) :
    splitChildren cfg alloc total c = [] ∨ Covers clauses c.lits (splitChildren cfg alloc total c) := by
  unfold splitChildren
  split_ifs with hdepth
  · exact .inl rfl
  · cases hg : cfg.ors[c.orDepth]? with
    | none => exact splitBit_covers alloc total c
    | some g =>
      dsimp only
      split_ifs with hk
      · exact makeChildren_covers (hors g (List.mem_of_getElem? hg))
      · exact splitBit_covers alloc total c

/-- The disjuncts refuted so far are covered by nothing, the others by `kids` or to come. -/
theorem laLoop_right {probe : ℕ → Answer} {nprobe total : ℕ} {i : ℕ} {kids : List Cube}
    (hprobe : ∀ j d, ds[j]? = some d → (probe (i+j)).Right clauses (c.lits ++ [d]))
    (hcov : ∀ v, Satisfies v clauses → Holds v c.lits →
      (∃ k ∈ kids, Holds v k.lits) ∨ ∃ d ∈ ds, litValue v d = true) :
    (laLoop cfg probe alloc nprobe total c i kids ds).Right clauses c.lits := by
  induction ds generalizing i kids with
  | nil =>
    have hkids : ∀ v, Satisfies v clauses → Holds v c.lits → ∃ k ∈ kids, Holds v k.lits := by
      intro v hv hc
      simpa using hcov v hv hc
    simp only [laLoop]
    split_ifs with hnil
    · intro v hv hc
      simpa [hnil] using hkids v hv hc
    · exact hkids
  | cons d ds ih =>
    have hrest : ∀ j e, ds[j]? = some e → (probe (i+1+j)).Right clauses (c.lits ++ [e]) := by
      intro j e he
      have := hprobe (j+1) e (by simpa using he)
      rwa [show i+(j+1) = i+1+j by omega] at this
    have hhere : (if i < nprobe then probe i else .unknown).Right clauses (c.lits ++ [d]) := by
      split_ifs
      · exact hprobe 0 d (by simp)
      · trivial
    rw [laLoop]
    cases ha : (if i < nprobe then probe i else .unknown) with
    | sat v =>
      rw [ha] at hhere
      exact hhere.1
    | unsat =>
      rw [ha] at hhere
      apply ih hrest
      intro v hv hc
      rcases hcov v hv hc with hk | ⟨e,he,hval⟩
      · exact .inl hk
      · rcases List.mem_cons.mp he with rfl | he
        · exact absurd (holds_concat.mpr ⟨hc,hval⟩) (hhere v hv)
        · exact .inr ⟨e,he,hval⟩
    | unknown =>
      split_ifs
      · trivial
      · cases hk : makeChild (alloc i) c d cfg.growth with
        | none => trivial
        | some k =>
          apply ih hrest
          intro v hv hc
          rcases hcov v hv hc with ⟨k',hk',hh⟩ | ⟨e,he,hval⟩
          · exact .inl ⟨k',List.mem_append_left _ hk',hh⟩
          · rcases List.mem_cons.mp he with rfl | he
            · apply Or.inl
              refine ⟨_,List.mem_append_right _ (List.mem_singleton_self _),?_⟩
              rw [makeChild_lits hk]
              exact holds_concat.mpr ⟨hc,hval⟩
            · exact .inr ⟨e,he,hval⟩

theorem lookaheadChildren_right (hors : ∀ g ∈ cfg.ors, Asserted clauses g) {ch : Choice}
    (hch : ch.Right clauses cfg c) (total : ℕ) :
    (lookaheadChildren cfg ch.probe ch.buf ch.laAlloc total c).Right clauses c.lits := by
  unfold lookaheadChildren
  by_cases hdepth : c.depth ≥ cfg.maxDepth
  · simp [hdepth,LaResult.Right]
  · rw [if_neg hdepth]
    cases hg : cfg.ors[c.orDepth]? with
    | none => trivial
    | some g =>
      dsimp only
      split_ifs
      · trivial
      · trivial
      · apply laLoop_right
        · simpa using hch.probe g hg
        · intro v hv hc
          exact .inr (hors g (List.mem_of_getElem? hg) v hv)

theorem conquer_right (hors : ∀ g ∈ cfg.ors, Asserted clauses g) {ch : Choice}
    (hch : ch.Right clauses cfg c) (tcSnap total : ℕ) :
    (conquer cfg ch tcSnap total c).Right clauses c.lits := by
  have hrc := hch.rc
  unfold conquer
  cases hr : ch.rc with
  | sat v =>
    rw [hr] at hrc
    exact hrc.1
  | unsat =>
    rw [hr] at hrc
    exact hrc
  | unknown =>
    have hla : (if cfg.lookahead then lookaheadChildren cfg ch.probe ch.buf ch.laAlloc tcSnap c
        else .fallback).Right clauses c.lits := by
      split_ifs
      · exact lookaheadChildren_right hors hch tcSnap
      · trivial
    dsimp only [deepen]
    cases hl : (if cfg.lookahead then lookaheadChildren cfg ch.probe ch.buf ch.laAlloc tcSnap c
        else .fallback) with
    | fallback => exact splitChildren_covers hors ch.splitAlloc total c
    | sat v =>
      rw [hl] at hla
      exact hla
    | dead =>
      rw [hl] at hla
      exact hla
    | split ks =>
      rw [hl] at hla
      exact .inr hla

theorem seedCubes_covers {budget : ℕ} {lits : List ℤ} (hd : Asserted clauses lits) :
    seedCubes push budget lits = [] ∨ Covers clauses [] (seedCubes push budget lits) := by
  unfold seedCubes
  split_ifs
  · apply Or.inr
    intro v hv _
    obtain ⟨l,hl,hval⟩ := hd v hv
    exact ⟨⟨[l],budget,0,0⟩,List.mem_map.mpr ⟨l,hl,rfl⟩,by simpa [Holds] using hval⟩
  · exact .inl rfl

theorem buildFrontier_covers (push : ℕ → Bool) (budget : ℕ) {orlits bits : List ℤ}
    (hor : orlits ≠ [] → Asserted clauses orlits) (hbits : ∀ b ∈ bits, b ≠ 0) :
    buildFrontier push orlits bits budget = [] ∨
      Covers clauses [] (buildFrontier push orlits bits budget) := by
  unfold buildFrontier
  split_ifs with hlen
  · exact seedCubes_covers (hor (by rintro rfl; simp at hlen))
  · cases bits with
    | nil => exact .inl rfl
    | cons b bits => exact seedCubes_covers (asserted_pair clauses (hbits b (by simp)))

def seeds (groups : List (List ℤ)) : ℕ := (groups.map List.length).prod

theorem seeds_take_succ_le (hpos : ∀ g ∈ groups, 0 < g.length) (k : ℕ) :
    seeds (groups.take k) ≤ seeds (groups.take (k+1)) := by
  induction groups generalizing k with
  | nil => simp
  | cons g gs ih =>
    cases k with
    | zero =>
      have := hpos g (by simp)
      simp only [seeds,List.take_zero,List.map_nil,List.prod_nil,List.take_succ_cons,
        List.map_cons,List.prod_cons,mul_one]
      omega
    | succ k =>
      have := ih (fun g hg => hpos g (by simp [hg])) k
      exact Nat.mul_le_mul_left _ this

/-- Groups of one disjunct are counted neither among the folded groups nor in their
product, yet take the place of wider ones: the product can only be too large. -/
theorem foldGroups_product (cap : ℕ) (hpos : ∀ g ∈ groups, 0 < g.length) (n p : ℕ) :
    n ≤ (foldGroups cap groups n p).1 ∧ p * seeds (groups.take ((foldGroups cap groups n p).1-n)) ≤
        (foldGroups cap groups n p).2 := by
  induction groups generalizing n p with
  | nil => simp [foldGroups,seeds]
  | cons g gs ih =>
    have hgs : ∀ g ∈ gs, 0 < g.length := fun g hg => hpos g (by simp [hg])
    rw [foldGroups]
    split_ifs with hone hcap
    · obtain ⟨hle,hp⟩ := ih hgs n p
      refine ⟨hle,?_⟩
      have hg : g.length = 1 := by
        have := hpos g (by simp)
        omega
      cases hk : (foldGroups cap gs n p).1-n with
      | zero =>
        rw [hk] at hp
        simpa using hp
      | succ k =>
        rw [hk] at hp
        calc p * seeds ((g :: gs).take (k+1)) = p * seeds (gs.take k) := by simp [seeds,hg]
          _ ≤ p * seeds (gs.take (k+1)) := Nat.mul_le_mul_left _ (seeds_take_succ_le hgs k)
          _ ≤ _ := hp
    · simp [seeds]
    · obtain ⟨hle,hp⟩ := ih hgs (n+1) (p * g.length)
      refine ⟨by omega,?_⟩
      have hk : (foldGroups cap gs (n+1) (p * g.length)).1-n
          = (foldGroups cap gs (n+1) (p * g.length)).1-(n+1)+1 := by omega
      rw [hk]
      simpa [seeds,mul_assoc] using hp

theorem exists_seed {v : ℕ → Bool} (h : ∀ g ∈ groups, ∃ l ∈ g, litValue v l = true) :
    ∃ j < seeds groups, Holds v (seedLits groups j) := by
  induction groups with
  | nil => exact ⟨0,by simp [seeds],by simp [seedLits]⟩
  | cons g gs ih =>
    obtain ⟨l,hl,hval⟩ := h g (by simp)
    obtain ⟨i,hi,rfl⟩ := List.mem_iff_getElem.mp hl
    obtain ⟨j,hj,hh⟩ := ih fun g hg => h g (by simp [hg])
    refine ⟨i + g.length * j,?_,?_⟩
    · calc i + g.length * j < g.length + g.length * j := by omega
        _ = g.length * (j+1) := by ring
        _ ≤ g.length * seeds gs := Nat.mul_le_mul_left _ hj
        _ = seeds (g :: gs) := by simp [seeds]
    · have hmod : (i + g.length * j) % g.length = i := by
        rw [Nat.add_mul_mod_self_left,Nat.mod_eq_of_lt hi]
      have hdiv : (i + g.length * j) / g.length = j := by
        rw [Nat.add_mul_div_left _ _ (by omega),Nat.div_eq_of_lt hi,Nat.zero_add]
      intro l hl
      simp only [seedLits,hmod,hdiv,List.getD_eq_getElem?_getD,List.getElem?_eq_getElem hi,
        Option.getD_some,List.mem_cons] at hl
      rcases hl with rfl | hl
      · exact hval
      · exact hh l hl

theorem length_takeWhile_range {n : ℕ} (h : ¬ ((List.range n).takeWhile push).length < n) :
    (List.range n).takeWhile push = List.range n := by
  apply (List.takeWhile_prefix push).eq_of_length_le
  simpa using h

theorem buildCartesianFrontier_covers {cap budget : ℕ} (hors : ∀ g ∈ groups, Asserted clauses g) :
    ((buildCartesianFrontier push cap budget groups).1 = [] ∨
      Covers clauses [] (buildCartesianFrontier push cap budget groups).1) ∧
    ∀ g ∈ (buildCartesianFrontier push cap budget groups).2, Asserted clauses g := by
  unfold buildCartesianFrontier
  split_ifs with hlen
  · exact ⟨.inl rfl,by simp⟩
  · dsimp only
    split_ifs with hfold hpush
    · exact ⟨.inl rfl,by simp⟩
    · exact ⟨.inl rfl,by simp⟩
    · have hsorted : ∀ g ∈ groups.mergeSort fun a b => a.length ≤ b.length, Asserted clauses g := by
        intro g hg
        exact hors g (List.mem_mergeSort.mp hg)
      refine ⟨.inr ?_,hsorted⟩
      rw [length_takeWhile_range (not_or.mp hpush).2]
      intro v hv _
      -- a group with a true disjunct is not empty
      have hpos : ∀ g ∈ groups.mergeSort fun a b => a.length ≤ b.length, 0 < g.length := by
        intro g hg
        obtain ⟨l,hl,_⟩ := hsorted g hg v hv
        exact List.length_pos_of_mem hl
      obtain ⟨_,hprod⟩ := foldGroups_product cap hpos 0 1
      obtain ⟨j,hj,hh⟩ := exists_seed (v:=v) fun g hg =>
        hsorted g (List.mem_of_mem_take hg) v hv
      rw [one_mul,Nat.sub_zero] at hprod
      exact ⟨_,List.mem_map.mpr ⟨j,List.mem_range.mpr (lt_of_lt_of_le hj hprod),rfl⟩,hh⟩

theorem initialFrontier_covers (useCart : Bool) (pushCart push : ℕ → Bool) (cap budget : ℕ)
    {orlits bits : List ℤ} (hgroups : ∀ g ∈ groups, Asserted clauses g)
    (hor : orlits ≠ [] → Asserted clauses orlits) (hbits : ∀ b ∈ bits, b ≠ 0) :
    ((initialFrontier useCart pushCart push cap budget groups orlits bits).1 = [] ∨ Covers clauses []
        (initialFrontier useCart pushCart push cap budget groups orlits bits).1) ∧
    ∀ g ∈ (initialFrontier useCart pushCart push cap budget groups orlits bits).2,
      Asserted clauses g := by
  have hplain := buildFrontier_covers push budget hor hbits
  cases useCart with
  | false => exact ⟨hplain,by simp [initialFrontier]⟩
  | true =>
    simp only [initialFrontier,if_true]
    split_ifs with hnil
    · exact ⟨hplain,by simp⟩
    · exact buildCartesianFrontier_covers hgroups

end Cubes
end DvSolve
