import DvSolve.AigBuild

/-! The hash-consing of the and-inverter graph.
Every AND node is in the chain its children hash to and nowhere else, so a gate that is looked up
and not found is new; the parent counters count the references of the AND nodes. -/
namespace DvSolve
namespace Aig

open Finset

variable {l r : ℤ}

def IsAnd (m : Aig) (i : ℕ) : Prop := 0 < i ∧ i ≤ m.nodes.size ∧ (m.node i).left ≠ 0

/-- Children in order that level 1 leaves alone. -/
def Gate (l r : ℤ) : Prop := l.natAbs ≤ r.natAbs ∧ level1 l r = none

def refsOf (m : Aig) (i j : ℕ) : ℕ :=
  if (m.node j).left = 0 then 0
  else (if (m.node j).left.natAbs = i then 1 else 0) + if (m.node j).right.natAbs = i then 1 else 0

def refs (m : Aig) (i : ℕ) : ℕ := ∑ j ∈ Icc 1 m.nodes.size, m.refsOf i j

/-- Distinct gates, counted references, and chains that hold the AND nodes of their hash. -/
structure Hashed (m : Aig) : Prop where
  wf : m.Wf
  gates : ∀ i, m.IsAnd i → Gate (m.node i).left (m.node i).right
  distinct : ∀ i j, m.IsAnd i → m.IsAnd j → (m.node i).left = (m.node j).left →
    (m.node i).right = (m.node j).right → i = j
  counted : ∀ i, 0 < i → i ≤ m.nodes.size → (m.node i).parents = m.refs i
  slots : 0 < m.buckets.size
  indexed : ∀ h i, i ∈ m.buckets.getD h [] ↔
    m.IsAnd i ∧ bucketHash (m.node i).left (m.node i).right m.bucketsMask = h

theorem bucketHash_lt (l r : ℤ) {n : ℕ} (hn : 0 < n) : bucketHash l r (n-1) < n := by
  have hle : bucketHash l r (n-1) ≤ n-1 := Nat.and_le_right
  omega

@[simp] theorem pushBucket_size (bs : Array (List ℕ)) (h idx : ℕ) :
    (pushBucket bs h idx).size = bs.size := Array.size_modify

theorem mem_getD_pushBucket {bs : Array (List ℕ)} {h idx : ℕ} (hh : h < bs.size) (k i : ℕ) :
    i ∈ (pushBucket bs h idx).getD k [] ↔ i ∈ bs.getD k [] ∨ i = idx ∧ h = k := by
  rw [pushBucket,Array.getD_eq_getD_getElem?,Array.getD_eq_getD_getElem?,Array.getElem?_modify]
  by_cases hk : h = k
  · subst hk
    simp [hh,or_comm]
  · simp [hk]

theorem mem_pushBuckets {f : ℕ → ℕ} (xs : List ℕ) {bs : Array (List ℕ)} (hf : ∀ i, f i < bs.size)
    (k i : ℕ) : i ∈ (xs.foldl (fun bs idx => pushBucket bs (f idx) idx) bs).getD k [] ↔
      i ∈ bs.getD k [] ∨ i ∈ xs ∧ f i = k := by
  induction xs generalizing bs with
  | nil => simp
  | cons x xs ih =>
    rw [List.foldl_cons,ih (by simpa using hf),mem_getD_pushBucket (hf x),List.mem_cons]
    constructor
    · rintro ((h | ⟨rfl,h⟩) | ⟨h,h'⟩)
      · exact .inl h
      · exact .inr ⟨.inl rfl,h⟩
      · exact .inr ⟨.inr h,h'⟩
    · rintro (h | ⟨rfl | h,h'⟩)
      · exact .inl (.inl h)
      · exact .inl (.inr ⟨rfl,h'⟩)
      · exact .inr ⟨h,h'⟩

theorem pushBuckets_size (f : ℕ → ℕ) (xs : List ℕ) (bs : Array (List ℕ)) :
    (xs.foldl (fun bs idx => pushBucket bs (f idx) idx) bs).size = bs.size := by
  induction xs generalizing bs with
  | nil => rfl
  | cons x xs ih => rw [List.foldl_cons,ih,pushBucket_size]

theorem Hashed.bucketsResize {m : Aig} (hm : m.Hashed) : m.bucketsResize.Hashed := by
  have hsize : m.bucketsResize.buckets.size = m.buckets.size*2 := by
    change (m.rehash _ _).size = _
    rw [rehash,pushBuckets_size,Array.size_replicate]
  refine ⟨hm.wf.bucketsResize,hm.gates,hm.distinct,hm.counted,by have := hm.slots; omega,fun h i => ?_⟩
  have hmask : m.bucketsResize.bucketsMask = m.buckets.size*2-1 := by rw [bucketsMask,hsize]
  rw [hmask]
  change i ∈ (m.rehash _ _).getD h [] ↔ _
  have hlt := fun i => bucketHash_lt (m.node i).left (m.node i).right
    (show 0 < m.buckets.size*2 by have := hm.slots; omega)
  rw [rehash,mem_pushBuckets (f:=fun i => bucketHash (m.node i).left (m.node i).right
    (m.buckets.size*2-1)) _ (by simpa using hlt)]
  have hflat : i ∈ m.buckets.toList.flatten ↔ m.IsAnd i := by
    constructor
    · intro hi
      obtain ⟨c,hc,hic⟩ := List.mem_flatten.mp hi
      obtain ⟨k,hk,rfl⟩ := Array.mem_iff_getElem.mp (Array.mem_def.mpr hc)
      refine ((hm.indexed k i).mp ?_).1
      simpa [Array.getD_eq_getD_getElem?,hk] using hic
    · intro hi
      have hin := (hm.indexed _ i).mpr ⟨hi,rfl⟩
      have hb := bucketHash_lt (m.node i).left (m.node i).right hm.slots
      rw [Array.getD_eq_getD_getElem?,bucketsMask,Array.getElem?_eq_getElem hb] at hin
      exact List.mem_flatten.mpr ⟨_,Array.mem_def.mp (Array.getElem_mem hb),hin⟩
  rw [hflat]
  have hnil : i ∉ (Array.replicate (m.buckets.size*2) ([] : List ℕ)).getD h [] := by
    rw [Array.getD_eq_getD_getElem?,Array.getElem?_replicate]
    split_ifs <;> simp
  exact or_iff_right hnil

theorem bumpParents_parents (m : Aig) (hl : m.Valid l) {i : ℕ} (hi : 0 < i) :
    ((m.bumpParents l).node i).parents = (m.node i).parents + if l.natAbs = i then 1 else 0 := by
  have hpos : 0 < l.natAbs := Int.natAbs_pos.mpr hl.1
  have hle := hl.2
  simp only [node,bumpParents,Array.getD_eq_getD_getElem?,Array.getElem?_modify]
  by_cases h : l.natAbs = i
  · subst h
    simp [show l.natAbs-1 < m.nodes.size by omega]
  · rw [if_neg (show ¬(l.natAbs-1 = i-1) by omega),if_neg h,Nat.add_zero]

theorem refs_top {m : Aig} (hm : m.Wf) {i : ℕ} (hi : m.nodes.size < i) : m.refs i = 0 := by
  refine sum_eq_zero fun j hj => ?_
  have hle := (mem_Icc.mp hj).2
  unfold refsOf
  by_cases h : (m.node j).left = 0
  · rw [if_pos h]
  · obtain ⟨-,h1,h2⟩ := hm.children j hle h
    rw [if_neg h,if_neg (by omega),if_neg (by omega),Nat.add_zero]

/-- `m'` is `m` with one more node, of children `l` and `r`, its references counted and in its
chain if it is an AND. -/
structure Grown (m : Aig) (l r : ℤ) (m' : Aig) : Prop where
  wf : m'.Wf
  size : m'.nodes.size = m.nodes.size+1
  old : ∀ i, 0 < i → i ≤ m.nodes.size →
    (m'.node i).left = (m.node i).left ∧ (m'.node i).right = (m.node i).right
  last : (m'.node (m.nodes.size+1)).left = l ∧ (m'.node (m.nodes.size+1)).right = r
  parents : ∀ i, 0 < i → (m'.node i).parents =
    (if i = m.nodes.size+1 then 0 else (m.node i).parents) + m'.refsOf i (m.nodes.size+1)
  slots : m'.buckets.size = m.buckets.size
  chains : ∀ h i, i ∈ m'.buckets.getD h [] ↔ i ∈ m.buckets.getD h [] ∨
    (i = m.nodes.size+1 ∧ l ≠ 0) ∧ bucketHash l r m.bucketsMask = h

theorem Grown.isAnd {m m' : Aig} (h : Grown m l r m') (i : ℕ) :
    m'.IsAnd i ↔ m.IsAnd i ∨ i = m.nodes.size+1 ∧ l ≠ 0 := by
  unfold IsAnd
  rw [h.size]
  constructor
  · rintro ⟨h1,h2,h3⟩
    obtain heq | hlt := h2.eq_or_lt
    · rw [heq,h.last.1] at h3
      exact .inr ⟨heq,h3⟩
    · rw [(h.old i h1 (by omega)).1] at h3
      exact .inl ⟨h1,by omega,h3⟩
  · rintro (⟨h1,h2,h3⟩ | ⟨rfl,hl⟩)
    · rw [(h.old i h1 h2).1]
      exact ⟨h1,by omega,h3⟩
    · rw [h.last.1]
      exact ⟨Nat.succ_pos _,le_rfl,hl⟩

theorem Grown.hashed {m m' : Aig} (h : Grown m l r m') (hm : m.Hashed)
    (hg : l ≠ 0 → Gate l r ∧ ∀ i, m.IsAnd i → ¬((m.node i).left = l ∧ (m.node i).right = r)) :
    m'.Hashed := by
  have hold := fun i (hi : m.IsAnd i) => h.old i hi.1 hi.2.1
  have hmask : m'.bucketsMask = m.bucketsMask := by rw [bucketsMask,h.slots]; rfl
  refine ⟨h.wf,fun i hi => ?_,fun i j hi hj h1 h2 => ?_,fun i hi hle => ?_,h.slots ▸ hm.slots,
    fun k i => ?_⟩
  · obtain hi | ⟨rfl,hl⟩ := (h.isAnd i).mp hi
    · rw [(hold i hi).1,(hold i hi).2]
      exact hm.gates i hi
    · rw [h.last.1,h.last.2]
      exact (hg hl).1
  · obtain hi | ⟨rfl,hl⟩ := (h.isAnd i).mp hi <;> obtain hj | ⟨rfl,hl'⟩ := (h.isAnd j).mp hj
    · rw [(hold i hi).1,(hold j hj).1] at h1
      rw [(hold i hi).2,(hold j hj).2] at h2
      exact hm.distinct i j hi hj h1 h2
    · rw [(hold i hi).1,h.last.1] at h1
      rw [(hold i hi).2,h.last.2] at h2
      exact absurd ⟨h1,h2⟩ ((hg hl').2 i hi)
    · rw [(hold j hj).1,h.last.1] at h1
      rw [(hold j hj).2,h.last.2] at h2
      exact absurd ⟨h1.symm,h2.symm⟩ ((hg hl).2 j hj)
    · rfl
  · have hsum : ∀ j ∈ Icc 1 m.nodes.size, m'.refsOf i j = m.refsOf i j := fun j hj => by
      obtain ⟨h1,h2⟩ := mem_Icc.mp hj
      rw [refsOf,(h.old j h1 h2).1,(h.old j h1 h2).2,refsOf]
    rw [h.parents i hi,refs,h.size,sum_Icc_succ_top (Nat.le_add_left 1 _),sum_congr rfl hsum]
    refine congrArg (· + _) ?_
    change _ = m.refs i
    split_ifs with heq
    · rw [heq,refs_top hm.wf (Nat.lt_succ_self _)]
    · rw [h.size] at hle
      exact hm.counted i hi (by omega)
  · rw [h.chains,hm.indexed,h.isAnd,hmask,or_and_right]
    refine or_congr (and_congr_right fun hi => ?_) (and_congr_right fun hi => ?_)
    · rw [(hold i hi).1,(hold i hi).2]
    · rw [hi.1,h.last.1,h.last.2]

theorem Grown.push {m : Aig} (hm : 0 < m.buckets.size) (hl : m.Valid l) (hr : m.Valid r)
    {d m' : Aig} (hw : m'.Wf) (hd : d = ⟨m.nodes.push ⟨l,r,0⟩,
      pushBucket m.buckets (bucketHash l r m.bucketsMask) (m.nodes.size+1),m.numInTable+1,
      m.numInputs,m.numAnds+1,m.numShared⟩) (hm' : m' = (d.bumpParents l).bumpParents r) :
    Grown m l r m' := by
  have hnode : ∀ i, 0 < i → d.node i = if i = m.nodes.size+1 then ⟨l,r,0⟩ else m.node i :=
    fun i hi => by rw [hd,node_push _ _ _ _ _ _ _ _ hi]
  have hlast : d.node (m.nodes.size+1) = ⟨l,r,0⟩ := by rw [hnode _ (Nat.succ_pos _),if_pos rfl]
  have hsize : d.nodes.size = m.nodes.size+1 := by rw [hd]; exact Array.size_push _
  have hld : d.Valid l := ⟨hl.1,hsize ▸ hl.2.trans (Nat.le_succ _)⟩
  have hrd : (d.bumpParents l).Valid r :=
    ⟨hr.1,by rw [bumpParents_size,hsize]; exact hr.2.trans (Nat.le_succ _)⟩
  refine ⟨hw,by simp [hm',hsize],fun i hi hle => ?_,by simp [hm',hlast],fun i hi => ?_,
    by simp [hm',hd,bumpParents],fun h i => ?_⟩
  · have hi' : d.node i = m.node i := by rw [hnode i hi,if_neg (by omega)]
    simp [hm',hi']
  · rw [refsOf,hm',bumpParents_parents _ hrd hi,bumpParents_parents _ hld hi,Nat.add_assoc]
    simp only [bumpParents_left,bumpParents_right,hlast]
    rw [if_neg hl.1,hnode i hi]
    split_ifs <;> rfl
  · rw [hm',hd]
    exact (mem_getD_pushBucket (bucketHash_lt l r hm) h i).trans
      (or_congr_right (by simp [hl.1,bucketsMask]))

theorem Hashed.newAnd {m : Aig} (hm : m.Hashed) (hl : m.Valid l) (hr : m.Valid r) (hg : Gate l r)
    (hnew : ∀ i, m.IsAnd i → ¬((m.node i).left = l ∧ (m.node i).right = r)) :
    (m.newAnd l r).2.Hashed := by
  have hw := (newAnd_spec hm.wf hl hr).1
  change (m.newAnd l r).2.Wf at hw
  unfold Aig.newAnd at hw ⊢
  by_cases hfull : m.numInTable ≥ m.bucketsMask + 1
  · rw [if_pos hfull] at hw ⊢
    exact (Grown.push hm.bucketsResize.slots hl hr hw rfl rfl).hashed hm.bucketsResize
      fun _ => ⟨hg,hnew⟩
  · rw [if_neg hfull] at hw ⊢
    exact (Grown.push hm.slots hl hr hw rfl rfl).hashed hm fun _ => ⟨hg,hnew⟩

theorem Hashed.find {m : Aig} (hm : m.Hashed) {i : ℕ} (hi : m.IsAnd i) :
    internAnd (m.node i).left (m.node i).right m = ((i : ℤ),{ m with numShared := m.numShared + 1 }) := by
  unfold Aig.internAnd
  have hin := (hm.indexed _ i).mpr ⟨hi,rfl⟩
  dsimp only
  cases hf : (m.buckets.getD (bucketHash (m.node i).left (m.node i).right m.bucketsMask) []).find?
      fun idx => (m.node idx).left = (m.node i).left ∧ (m.node idx).right = (m.node i).right with
  | none =>
    have hno := List.find?_eq_none.mp hf i hin
    simp at hno
  | some j =>
    obtain ⟨h1,h2⟩ : (m.node j).left = (m.node i).left ∧ (m.node j).right = (m.node i).right := by
      simpa using List.find?_some hf
    have hj := ((hm.indexed _ j).mp (List.mem_of_find?_eq_some hf)).1
    rw [hm.distinct j i hj hi h1 h2]

theorem Hashed.internAnd {m : Aig} (hm : m.Hashed) (hl : m.Valid l) (hr : m.Valid r) (hg : Gate l r) :
    (Aig.internAnd l r m).2.Hashed := by
  by_cases hex : ∃ i, m.IsAnd i ∧ (m.node i).left = l ∧ (m.node i).right = r
  · obtain ⟨i,hi,rfl,rfl⟩ := hex
    rw [hm.find hi]
    exact ⟨⟨hm.wf.size_pos,hm.wf.node_one,hm.wf.children,hm.wf.chains⟩,hm.gates,hm.distinct,
      hm.counted,hm.slots,hm.indexed⟩
  · have hnew : ∀ i, m.IsAnd i → ¬((m.node i).left = l ∧ (m.node i).right = r) :=
      fun i hi h => hex ⟨i,hi,h⟩
    have hmiss : Aig.internAnd l r m = m.newAnd l r := by
      unfold Aig.internAnd
      dsimp only
      rw [List.find?_eq_none.mpr fun i hi => ?_]
      simpa using hnew i ((hm.indexed _ i).mp hi).1
    rw [hmiss]
    exact hm.newAnd hl hr hg hnew

theorem Hashed.mkInput {m : Aig} (hm : m.Hashed) : (Aig.mkInput m).2.Hashed := by
  have hnode : ∀ i, 0 < i → (Aig.mkInput m).2.node i = if i = m.nodes.size+1 then ⟨0,0,0⟩ else m.node i :=
    fun i hi => node_push _ _ _ _ _ _ _ _ hi
  have hlast : (Aig.mkInput m).2.node (m.nodes.size+1) = ⟨0,0,0⟩ := by
    rw [hnode _ (Nat.succ_pos _),if_pos rfl]
  have hgrown : Grown m 0 0 (Aig.mkInput m).2 := by
    refine ⟨(mkInput_spec hm.wf).1,Array.size_push _,fun i hi hle => ?_,by simp [hlast],
      fun i hi => ?_,rfl,fun h i => ?_⟩
    · rw [hnode i hi,if_neg (by omega)]
      exact ⟨rfl,rfl⟩
    · rw [refsOf,hlast,hnode i hi,if_pos rfl]
      split_ifs <;> rfl
    · simp [Aig.mkInput]
  exact hgrown.hashed hm fun h => absurd rfl h

def Rewritten.Gated : Rewritten → Prop
  | .found _ => True
  | .gate l r => Gate l r

theorem level1_swap (h : level1 l r = none) : level1 r l = none := by
  simp only [level1,firstRule,Bool.or_eq_true,beq_iff_eq] at h ⊢
  split_ifs at h ⊢ <;> simp_all

theorem normalize_gated (h : level1 l r = none) : (normalize l r).Gated := by
  unfold normalize
  split_ifs with hlt
  · exact ⟨hlt.le,level1_swap h⟩
  · exact ⟨not_lt.mp hlt,h⟩

theorem rewriteRound_gated (m : Aig) (p : ℤ × ℤ) (x : Rewritten)
    (h : m.rewriteRound p = .exit x) : x.Gated := by
  unfold rewriteRound at h
  split at h
  · cases h
    trivial
  · rename_i h1
    split at h
    · cases h
      trivial
    · split at h
      · cases h
      · split at h
        · cases h
        · cases h
          exact normalize_gated h1

/-- What a call leaves: a manager that still shares its gates, and a literal of it. -/
def Shares (x : ℤ) (m : Aig) : Prop := m.Hashed ∧ m.Valid x

section Calls

variable {m : Aig} (hm : m.Hashed) {a b c : ℤ} (ha : m.Valid a) (hb : m.Valid b) (hc : m.Valid c)
include hm ha hb

theorem mkAnd_shares : Spec (mkAnd a b) m Shares := by
  obtain ⟨hw,he,hd⟩ := mkAnd_spec hm.wf ha.denotes hb.denotes
  refine ⟨hw,he,?_,hd.1⟩
  obtain ⟨res,hres,hden⟩ := rewriteAnd_spec hm.wf ha hb
  have hgate : res.Gated := Loop.loop_exit_of (rewriteRound_gated m) hres
  cases res with
  | found x =>
    rw [mkAnd_found hres]
    exact hm
  | gate l r =>
    rw [mkAnd_gate hres]
    exact hm.internAnd hden.1 hden.2.1 hgate

theorem mkOr_shares : Spec (mkOr a b) m Shares := by
  refine (mkAnd_shares hm ha.neg hb.neg).bind fun x m' hw _ hx => ?_
  exact .pure hw ⟨hx.1,hx.2.neg⟩

theorem mkXor_shares : Spec (mkXor a b) m Shares := by
  refine (mkAnd_shares hm ha hb.neg).bind fun l m₁ _ he₁ hl => ?_
  refine (mkAnd_shares hl.1 (ha.neg.extends he₁) (hb.extends he₁)).bind fun r m₂ _ he₂ hr => ?_
  exact mkOr_shares hr.1 (hl.2.extends he₂) hr.2

theorem mkIff_shares : Spec (mkIff a b) m Shares := by
  refine (mkXor_shares hm ha hb).bind fun x m' hw _ hx => ?_
  exact .pure hw ⟨hx.1,hx.2.neg⟩

include hc

theorem mkIte_shares : Spec (mkIte c a b) m Shares := by
  unfold mkIte
  split_ifs
  · exact .pure hm.wf ⟨hm,ha⟩
  · exact .pure hm.wf ⟨hm,hb⟩
  · exact .pure hm.wf ⟨hm,ha⟩
  · refine (mkAnd_shares hm hc ha).bind fun l m₁ _ he₁ hl => ?_
    refine (mkAnd_shares hl.1 (hc.neg.extends he₁) (hb.extends he₁)).bind fun r m₂ _ he₂ hr => ?_
    exact mkOr_shares hr.1 (hl.2.extends he₂) hr.2

end Calls

theorem Call.run_hashed {m : Aig} (hm : m.Hashed) (c : Call) (hc : ∀ l ∈ c.args, m.Valid l) :
    (c.run m).2.Hashed := by
  cases c with
  | mkInput => exact hm.mkInput
  | mkAnd a b => exact (mkAnd_shares hm (hc a (by simp [args])) (hc b (by simp [args]))).2.2.1
  | mkOr a b => exact (mkOr_shares hm (hc a (by simp [args])) (hc b (by simp [args]))).2.2.1
  | mkXor a b => exact (mkXor_shares hm (hc a (by simp [args])) (hc b (by simp [args]))).2.2.1
  | mkIff a b => exact (mkIff_shares hm (hc a (by simp [args])) (hc b (by simp [args]))).2.2.1
  | mkIte c t e =>
    exact (mkIte_shares hm (hc t (by simp [args])) (hc e (by simp [args]))
      (hc c (by simp [args]))).2.2.1

theorem new_isAnd (i : ℕ) : ¬new.IsAnd i := by
  rintro ⟨h0,h1,h2⟩
  obtain rfl : i = 1 := le_antisymm h1 h0
  exact h2 rfl

theorem new_hashed : new.Hashed := by
  refine ⟨new_wf,fun i hi => absurd hi (new_isAnd i),fun i _ hi => absurd hi (new_isAnd i),
    fun i h0 h1 => ?_,by simp [new],fun h i => iff_of_false ?_ fun hi => new_isAnd i hi.1⟩
  · obtain rfl : i = 1 := le_antisymm h1 h0
    rfl
  · rw [new,Array.getD_eq_getD_getElem?,Array.getElem?_replicate]
    split_ifs <;> simp

theorem Reachable.hashed {m : Aig} {lits : List ℤ} (h : Reachable m lits) : m.Hashed := by
  induction h with
  | new => exact new_hashed
  | call c _ hc ih => exact c.run_hashed ih hc

/-- In every reachable manager the AND nodes are distinct gates that the unique table finds, with
their references counted; making a gate and resizing the table keep that, and rewriting ends. -/
theorem reachable_shared {m : Aig} {lits : List ℤ} (h : Reachable m lits) :
    m.Hashed ∧
    (∀ i, m.IsAnd i → ((m.node i).left.natAbs < i ∧ (m.node i).right.natAbs < i) ∧
      internAnd (m.node i).left (m.node i).right m = ((i : ℤ),{ m with numShared := m.numShared + 1 })) ∧
    m.bucketsResize.Hashed ∧
    (∀ l r, m.Valid l → m.Valid r → Gate l r → (internAnd l r m).2.Hashed) ∧
    ∀ a b, m.Valid a → m.Valid b → ∃ x, m.rewriteAnd a b = some x := by
  have hm := h.hashed
  refine ⟨hm,fun i hi => ⟨(hm.wf.children i hi.2.1 hi.2.2).2,hm.find hi⟩,hm.bucketsResize,
    fun l r => hm.internAnd,fun a b ha hb => ?_⟩
  obtain ⟨x,hx,-⟩ := rewriteAnd_spec hm.wf ha hb
  exact ⟨x,hx⟩

/-- Two inputs and their conjunction. -/
theorem reachable_shared_and :
    ((Call.mkAnd 2 3).run (Call.mkInput.run (Call.mkInput.run new).2).2).2.bucketsResize.Hashed :=
  (reachable_shared (((Reachable.new.call .mkInput (by decide)).call .mkInput (by decide)).call
    (.mkAnd 2 3) (by decide))).2.2.1

end Aig
end DvSolve
