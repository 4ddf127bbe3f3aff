import DvSolve.AigSem

/-! Correctness of the and-inverter graph constructors.
The rewriter keeps the conjunction it is given whichever rules fire, the unique
table only ever hands out a node with the children asked for, and so every call
returns a literal for its connective and leaves the earlier literals alone. -/
namespace DvSolve
namespace Aig

variable {m : Aig} {l r : ℤ} {x y : Operand} {a b : ℤ} {bs : Array (List ℕ)}
  {f g : (ℕ → Bool) → Bool}

def Conj (m : Aig) (E : (ℕ → Bool) → Bool) (p : ℤ × ℤ) : Prop :=
  m.Valid p.1 ∧ m.Valid p.2 ∧ ∀ ρ, (m.evalLit ρ p.1 && m.evalLit ρ p.2) = E ρ

def Rewritten.Denotes (m : Aig) (E : (ℕ → Bool) → Bool) : Rewritten → Prop
  | .found res => m.Valid res ∧ ∀ ρ, m.evalLit ρ res = E ρ
  | .gate l r => m.Conj E (l,r)

theorem normalize_denotes {E : (ℕ → Bool) → Bool} (h : m.Conj E (l,r)) :
    (normalize l r).Denotes m E := by
  unfold normalize
  split_ifs
  · exact ⟨h.2.1,h.1,fun ρ => by rw [Bool.and_comm]; exact h.2.2 ρ⟩
  · exact h

/-- An operand as the rules see it: an AND's value is its children's conjunction. -/
structure Operand.Sound (m : Aig) (x : Operand) : Prop where
  valid : m.Valid x.lit
  fst : x.isAnd → m.Valid x.fst ∧ x.fst.natAbs < x.lit.natAbs
  snd : x.isAnd → m.Valid x.snd ∧ x.snd.natAbs < x.lit.natAbs
  eval : x.isAnd → ∀ ρ, m.evalLit ρ x.lit = ((m.evalLit ρ x.fst && m.evalLit ρ x.snd) ^^ x.isNeg)

theorem operand_sound (hm : m.Wf) (hl : m.Valid l) : (m.operand l).Sound m := by
  by_cases h : m.isAndId l = true
  · obtain ⟨h1,h2,h3,h4⟩ := hm.and_children h
    simp only [operand,h,if_true]
    exact ⟨hl,fun _ => ⟨h1,h3⟩,fun _ => ⟨h2,h4⟩,fun _ ρ => hm.evalLit_and ρ h⟩
  · simp only [operand,h]
    exact ⟨hl,fun h => absurd h (by simp),fun h => absurd h (by simp),fun h => absurd h (by simp)⟩

theorem mem_of_firstRule {α : Type} {rules : List (Bool × α)} {x : α}
    (h : firstRule rules = some x) : (true,x) ∈ rules := by
  induction rules with
  | nil => simp [firstRule] at h
  | cons rule rules ih =>
    obtain ⟨c,y⟩ := rule
    cases c with
    | false => exact List.mem_cons_of_mem _ (ih (by simpa [firstRule] using h))
    | true =>
      have hy : y = x := by simpa [firstRule] using h
      simp [hy]

theorem level1_sound (hm : m.Wf) {res : ℤ} (hl : m.Valid l) (hr : m.Valid r)
    (h : level1 l r = some res) :
    m.Valid res ∧ ∀ ρ, m.evalLit ρ res = (m.evalLit ρ l && m.evalLit ρ r) := by
  have hF := hm.valid_false
  have hmem := mem_of_firstRule h
  simp only [List.mem_cons,List.not_mem_nil,or_false,Prod.mk.injEq,
    eq_comm (a := true),Bool.or_eq_true,beq_iff_eq] at hmem
  rcases hmem with ⟨rfl | rfl,rfl⟩ | ⟨rfl,rfl⟩ | ⟨(rfl | rfl) | rfl,rfl⟩
  · simp [hr]
  · simp [hr]
  · simp [hl]
  · simp [hF]
  · simp [hF]
  · simp [hF,m.evalLit_neg _ hr.1]

theorem level2_sound (hm : m.Wf) (hx : x.Sound m) (hy : y.Sound m) {res : ℤ}
    (h : level2 x y = some res) :
    m.Valid res ∧ ∀ ρ, m.evalLit ρ res = (m.evalLit ρ x.lit && m.evalLit ρ y.lit) := by
  have hF := hm.valid_false
  have hneg := fun ρ l h => m.evalLit_neg ρ (l := l) h
  have hVn := fun l (h : m.Valid l) => h.neg
  have hV0 := fun l (h : m.Valid l) => h.1
  have hff := fun ρ => m.evalLit_false ρ
  obtain ⟨left,la,ln,a,b⟩ := x
  obtain ⟨right,ra,rn,c,d⟩ := y
  obtain ⟨vl,va,vb,el⟩ := hx
  obtain ⟨vr,vc,vd,er⟩ := hy
  have hmem := mem_of_firstRule h
  simp only [List.mem_cons,List.not_mem_nil,or_false,Prod.mk.injEq,
    eq_comm (a := true),Bool.or_eq_true,Bool.and_eq_true,Bool.not_eq_true',beq_iff_eq] at hmem
  rcases hmem with h | h | h | h | h | h | h | h | h | h | h
  · grind
  · grind
  · grind
  · grind
  · grind
  · grind
  · grind
  · grind
  · grind
  · grind
  · grind

/-- A rule that goes on keeps the conjunction and replaces an operand by a child. -/
def Operand.Replaces (m : Aig) (x y : Operand) (q : ℤ × ℤ) : Prop :=
  m.Valid q.1 ∧ m.Valid q.2 ∧ q.1.natAbs + q.2.natAbs < x.lit.natAbs + y.lit.natAbs ∧
    ∀ ρ, (m.evalLit ρ q.1 && m.evalLit ρ q.2) = (m.evalLit ρ x.lit && m.evalLit ρ y.lit)

theorem level3_sound (hx : x.Sound m) (hy : y.Sound m) {q : ℤ × ℤ} (h : level3 x y = some q) :
    x.Replaces m y q := by
  have hneg := fun ρ l h => m.evalLit_neg ρ (l := l) h
  have hVn := fun l (h : m.Valid l) => h.neg
  have hV0 := fun l (h : m.Valid l) => h.1
  obtain ⟨left,la,ln,a,b⟩ := x
  obtain ⟨right,ra,rn,c,d⟩ := y
  obtain ⟨vl,va,vb,el⟩ := hx
  obtain ⟨vr,vc,vd,er⟩ := hy
  obtain ⟨q1,q2⟩ := q
  have hmem := mem_of_firstRule h
  simp only [List.mem_cons,List.not_mem_nil,or_false,Prod.mk.injEq,
    eq_comm (a := true),Bool.or_eq_true,Bool.and_eq_true,Bool.not_eq_true',beq_iff_eq] at hmem
  unfold Operand.Replaces
  rcases hmem with h | h | h | h | h | h | h | h
  · grind
  · grind
  · grind
  · grind
  · grind
  · grind
  · grind
  · grind

theorem level4_sound (hx : x.Sound m) (hy : y.Sound m) {q : ℤ × ℤ} (h : level4 x y = some q) :
    x.Replaces m y q := by
  obtain ⟨left,la,ln,a,b⟩ := x
  obtain ⟨right,ra,rn,c,d⟩ := y
  obtain ⟨vl,va,vb,el⟩ := hx
  obtain ⟨vr,vc,vd,er⟩ := hy
  obtain ⟨q1,q2⟩ := q
  have hmem := mem_of_firstRule h
  simp only [List.mem_cons,List.not_mem_nil,or_false,Prod.mk.injEq,
    eq_comm (a := true),Bool.or_eq_true,Bool.and_eq_true,Bool.not_eq_true',beq_iff_eq] at hmem
  unfold Operand.Replaces
  rcases hmem with h | h
  · grind
  · grind

theorem rewriteRound_good (hm : m.Wf) (E : (ℕ → Bool) → Bool) (p : ℤ × ℤ) (hp : m.Conj E p) :
    (m.rewriteRound p).Good (m.Conj E) (Rewritten.Denotes m E)
      (fun q => q.1.natAbs + q.2.natAbs) p := by
  have hx := operand_sound hm hp.1
  have hy := operand_sound hm hp.2.1
  unfold rewriteRound
  cases h1 : level1 p.1 p.2 with
  | some res =>
    obtain ⟨hv,he⟩ := level1_sound hm hp.1 hp.2.1 h1
    exact ⟨hv,fun ρ => (he ρ).trans (hp.2.2 ρ)⟩
  | none =>
  cases h2 : level2 (m.operand p.1) (m.operand p.2) with
  | some res =>
    obtain ⟨hv,he⟩ := level2_sound hm hx hy h2
    exact ⟨hv,fun ρ => (he ρ).trans (hp.2.2 ρ)⟩
  | none =>
  cases h3 : level3 (m.operand p.1) (m.operand p.2) with
  | some q =>
    obtain ⟨hv,hv',hlt,he⟩ := level3_sound hx hy h3
    exact ⟨⟨hv,hv',fun ρ => (he ρ).trans (hp.2.2 ρ)⟩,hlt⟩
  | none =>
  cases h4 : level4 (m.operand p.1) (m.operand p.2) with
  | some q =>
    obtain ⟨hv,hv',hlt,he⟩ := level4_sound hx hy h4
    exact ⟨⟨hv,hv',fun ρ => (he ρ).trans (hp.2.2 ρ)⟩,hlt⟩
  | none => exact normalize_denotes hp

theorem rewriteAnd_spec (hm : m.Wf) (ha : m.Valid a) (hb : m.Valid b) :
    ∃ res, m.rewriteAnd a b = some res ∧ res.Denotes m (fun ρ => m.evalLit ρ a && m.evalLit ρ b) :=
  Loop.loop_spec _ (rewriteRound_good hm _) _ (a,b) ⟨ha,hb,fun _ => rfl⟩ (Nat.lt_succ_self _)

@[simp] theorem bumpParents_size (m : Aig) (l : ℤ) :
    (m.bumpParents l).nodes.size = m.nodes.size := by
  simp [bumpParents]

@[simp] theorem bumpParents_left (m : Aig) (l : ℤ) (i : ℕ) :
    ((m.bumpParents l).node i).left = (m.node i).left := by
  simp only [node,bumpParents,Array.getD_eq_getD_getElem?,Array.getElem?_modify]
  split_ifs with h
  · cases m.nodes[i-1]? <;> rfl
  · rfl

@[simp] theorem bumpParents_right (m : Aig) (l : ℤ) (i : ℕ) :
    ((m.bumpParents l).node i).right = (m.node i).right := by
  simp only [node,bumpParents,Array.getD_eq_getD_getElem?,Array.getElem?_modify]
  split_ifs with h
  · cases m.nodes[i-1]? <;> rfl
  · rfl

theorem node_push (m : Aig) (d : Node) (bs : Array (List ℕ)) (n₁ n₂ n₃ n₄ : ℕ) (i : ℕ) (hi : 0 < i) :
    node ⟨m.nodes.push d,bs,n₁,n₂,n₃,n₄⟩ i = if i = m.nodes.size + 1 then d else m.node i := by
  simp only [node,Array.getD_eq_getD_getElem?,Array.getElem?_push]
  by_cases h : i - 1 = m.nodes.size
  · have h' : i = m.nodes.size + 1 := by omega
    simp [h']
  · have h' : i ≠ m.nodes.size + 1 := by omega
    rw [if_neg h,if_neg h']

/-- Every entry of a rehashed table was in the old one. -/
theorem mem_pushBucket {h idx : ℕ} {c : List ℕ} (hc : c ∈ pushBucket bs h idx) {j : ℕ} (hj : j ∈ c) :
    j = idx ∨ ∃ c' ∈ bs, j ∈ c' := by
  obtain ⟨k,hk,rfl⟩ := Array.mem_iff_getElem.mp hc
  simp only [pushBucket,Array.size_modify] at hk
  simp only [pushBucket,Array.getElem_modify] at hj
  split_ifs at hj with hh
  · rcases List.mem_cons.mp hj with rfl | hj
    · exact Or.inl rfl
    · exact Or.inr ⟨_,Array.getElem_mem hk,hj⟩
  · exact Or.inr ⟨_,Array.getElem_mem hk,hj⟩

theorem mem_rehash {newCap : ℕ} {old : Array (List ℕ)} {c : List ℕ} (hc : c ∈ m.rehash newCap old)
    {j : ℕ} (hj : j ∈ c) : ∃ c' ∈ old, j ∈ c' := by
  suffices hgen : ∀ (xs : List ℕ) (bs : Array (List ℕ)), c ∈ xs.foldl (fun bs idx =>
        pushBucket bs (bucketHash (m.node idx).left (m.node idx).right (newCap-1)) idx) bs →
      j ∈ xs ∨ ∃ c' ∈ bs, j ∈ c' by
    rcases hgen _ _ hc with h | ⟨c',hc',hj'⟩
    · obtain ⟨c',hc',hj'⟩ := List.mem_flatten.mp h
      exact ⟨c',by simpa using hc',hj'⟩
    · simp only [Array.mem_replicate] at hc'
      simp [hc'.2] at hj'
  intro xs
  induction xs with
  | nil => exact fun bs h => Or.inr ⟨c,h,hj⟩
  | cons x xs ih =>
    intro bs h
    rcases ih _ h with h | ⟨c',hc',hj'⟩
    · exact Or.inl (List.mem_cons_of_mem _ h)
    · rcases mem_pushBucket hc' hj' with rfl | h
      · exact Or.inl List.mem_cons_self
      · exact Or.inr h

theorem Wf.bucketsResize (hm : m.Wf) : m.bucketsResize.Wf where
  size_pos := hm.size_pos
  node_one := hm.node_one
  children := hm.children
  chains c hc idx hidx := by
    obtain ⟨c',hc',h'⟩ := mem_rehash hc hidx
    exact hm.chains c' hc' idx h'

theorem Wf.bumpParents (hm : m.Wf) (l : ℤ) : (m.bumpParents l).Wf where
  size_pos := by simpa using hm.size_pos
  node_one := by simpa using hm.node_one
  children i hi h := by
    simp only [bumpParents_left,bumpParents_right,bumpParents_size] at hi h ⊢
    exact hm.children i hi h
  chains c hc idx hidx := by simpa using hm.chains c hc idx hidx

theorem Extends.bumpParents (m : Aig) (l : ℤ) : m.Extends (m.bumpParents l) :=
  ⟨by simp,by simp,by simp⟩

/-- A node after the last one, of an input or of children already there. -/
theorem Wf.push (hm : m.Wf) (hlr : l ≠ 0 → m.Valid l ∧ m.Valid r)
    (hbs : ∀ c ∈ bs, ∀ idx ∈ c, 0 < idx ∧ idx ≤ m.nodes.size + 1) (n₁ n₂ n₃ n₄ : ℕ) :
    Wf ⟨m.nodes.push ⟨l,r,0⟩,bs,n₁,n₂,n₃,n₄⟩ := by
  have hn1 : 1 ≠ m.nodes.size + 1 := by have := hm.size_pos; omega
  refine ⟨by simp,?_,?_,by simpa using hbs⟩
  · rw [node_push _ _ _ _ _ _ _ _ one_pos,if_neg hn1,hm.node_one]
  · intro i hi h
    have hi' : i ≤ m.nodes.size + 1 := by simpa using hi
    rcases Nat.eq_zero_or_pos i with rfl | hpos
    · -- index `0` reads the entry of node 1
      have h0 : (node ⟨m.nodes.push ⟨l,r,0⟩,bs,n₁,n₂,n₃,n₄⟩ 1).left ≠ 0 := h
      rw [node_push _ _ _ _ _ _ _ _ one_pos,if_neg hn1] at h0
      exact absurd hm.node_one h0
    · rw [node_push _ _ _ _ _ _ _ _ hpos] at h ⊢
      split_ifs at h ⊢ with he
      · obtain ⟨vl,vr⟩ := hlr h
        have h1 := vl.2
        have h2 := vr.2
        exact ⟨vr.1,by simp only; omega,by simp only; omega⟩
      · exact hm.children i (by omega) h

theorem Extends.push (m : Aig) (d : Node) (bs : Array (List ℕ)) (n₁ n₂ n₃ n₄ : ℕ)
    (hm : m.Wf) : m.Extends ⟨m.nodes.push d,bs,n₁,n₂,n₃,n₄⟩ := by
  have hnode : ∀ i, i ≤ m.nodes.size → node ⟨m.nodes.push d,bs,n₁,n₂,n₃,n₄⟩ i = m.node i := by
    intro i hi
    rcases Nat.eq_zero_or_pos i with rfl | hpos
    · change node ⟨m.nodes.push d,bs,n₁,n₂,n₃,n₄⟩ 1 = m.node 1
      rw [node_push _ _ _ _ _ _ _ _ one_pos,if_neg (by have := hm.size_pos; omega)]
    · rw [node_push _ _ _ _ _ _ _ _ hpos,if_neg (by omega)]
  exact ⟨by simp,fun i hi => by rw [hnode i hi],fun i hi => by rw [hnode i hi]⟩

theorem denotes_node (hm : m.Wf) {i : ℕ} (hi : i ≤ m.nodes.size) (hl : (m.node i).left = l)
    (hr : (m.node i).right = r) (hl0 : l ≠ 0) :
    m.Denotes i (fun ρ => m.evalLit ρ l && m.evalLit ρ r) := by
  have hc := hm.children i hi (by rw [hl]; exact hl0)
  have hand : m.isAndId (i : ℤ) = true := by
    refine isAndId_iff.mpr ⟨?_,by simpa using hi,by simpa [childrenOf,hl] using hl0⟩
    simp only [Int.natAbs_natCast]
    omega
  refine ⟨⟨by omega,by simpa using hi⟩,fun ρ => ?_⟩
  have hpos : ¬ ((i : ℤ) < 0) := by omega
  rw [hm.evalLit_and ρ hand]
  simp [childrenOf,hl,hr,hpos]

theorem mem_pushBucket_le {n : ℕ} (hbs : ∀ c ∈ bs, ∀ idx ∈ c, 0 < idx ∧ idx ≤ n) (h : ℕ) :
    ∀ c ∈ pushBucket bs h (n+1), ∀ idx ∈ c, 0 < idx ∧ idx ≤ n+1 := by
  intro c hc idx hidx
  rcases mem_pushBucket hc hidx with rfl | ⟨c',hc',h'⟩
  · omega
  · have := hbs c' hc' idx h'
    omega

theorem newAnd_spec (hm : m.Wf) (hl : m.Valid l) (hr : m.Valid r) :
    Spec (fun m => m.newAnd l r) m
      (fun x m' => m'.Denotes x (fun ρ => m.evalLit ρ l && m.evalLit ρ r)) := by
  -- resizing the table first changes no node
  obtain ⟨m₁,hm₁,hw₁,he₁,hs₁⟩ : ∃ m₁, m₁ = (if m.numInTable ≥ m.bucketsMask + 1 then
      m.bucketsResize else m) ∧ m₁.Wf ∧ m.Extends m₁ ∧ m₁.nodes.size = m.nodes.size := by
    refine ⟨_,rfl,?_⟩
    split_ifs
    · exact ⟨hm.bucketsResize,⟨le_refl _,fun _ _ => rfl,fun _ _ => rfl⟩,rfl⟩
    · exact ⟨hm,.refl m,rfl⟩
  have hl₁ := hl.extends he₁
  have hr₁ := hr.extends he₁
  let bs := pushBucket m₁.buckets (bucketHash l r m₁.bucketsMask) (m₁.nodes.size + 1)
  let m₂ : Aig := ⟨m₁.nodes.push ⟨l,r,0⟩,bs,m₁.numInTable + 1,m₁.numInputs,m₁.numAnds + 1,m₁.numShared⟩
  have hw₂ : m₂.Wf := hw₁.push (fun _ => ⟨hl₁,hr₁⟩) (mem_pushBucket_le hw₁.chains _) _ _ _ _
  have he₂ : m₁.Extends m₂ := .push _ _ _ _ _ _ _ hw₁
  let m₃ := (m₂.bumpParents l).bumpParents r
  have hw₃ : m₃.Wf := (hw₂.bumpParents l).bumpParents r
  have he₃ : m₂.Extends m₃ := (Extends.bumpParents _ _).trans (.bumpParents _ _)
  have hrun : m.newAnd l r = (((m₁.nodes.size + 1 : ℕ) : ℤ),m₃) := by
    simp only [newAnd,← hm₁]
    rfl
  have he : m.Extends m₃ := he₁.trans (he₂.trans he₃)
  have hn : m₂.node (m₁.nodes.size + 1) = ⟨l,r,0⟩ := by
    rw [node_push _ _ _ _ _ _ _ _ (Nat.succ_pos _),if_pos rfl]
  have hden : m₃.Denotes ((m₁.nodes.size + 1 : ℕ) : ℤ)
      (fun ρ => m₃.evalLit ρ l && m₃.evalLit ρ r) := by
    apply denotes_node hw₃ (by simp [m₃,m₂]) (by simp [m₃,hn]) (by simp [m₃,hn]) hl.1
  refine .of_run hrun hw₃ he (hden.congr fun ρ => ?_)
  rw [evalLit_extends he ρ hl,evalLit_extends he ρ hr]

theorem internAnd_spec (hm : m.Wf) (hl : m.Valid l) (hr : m.Valid r) :
    Spec (internAnd l r) m
      (fun x m' => m'.Denotes x (fun ρ => m.evalLit ρ l && m.evalLit ρ r)) := by
  cases hf : (m.buckets.getD (bucketHash l r m.bucketsMask) []).find? fun idx =>
      (m.node idx).left = l ∧ (m.node idx).right = r with
  | none =>
    have hrun : internAnd l r m = m.newAnd l r := by
      simp only [internAnd,hf]
    unfold Spec
    rw [hrun]
    exact newAnd_spec hm hl hr
  | some idx =>
    have hrun : internAnd l r m = ((idx : ℤ),{ m with numShared := m.numShared + 1 }) := by
      simp only [internAnd,hf]
    have hidx := List.mem_of_find?_eq_some hf
    obtain ⟨hil,hir⟩ : (m.node idx).left = l ∧ (m.node idx).right = r := by
      simpa using List.find?_some hf
    have hle : idx ≤ m.nodes.size := by
      rw [Array.getD_eq_getD_getElem?] at hidx
      cases hc : m.buckets[bucketHash l r m.bucketsMask]? with
      | none => simp [hc] at hidx
      | some c =>
        simp only [hc,Option.getD_some] at hidx
        exact (hm.chains c (Array.mem_of_getElem? hc) idx hidx).2
    have hw : Wf { m with numShared := m.numShared + 1 } :=
      ⟨hm.size_pos,hm.node_one,hm.children,hm.chains⟩
    have he : m.Extends { m with numShared := m.numShared + 1 } :=
      ⟨le_refl _,fun _ _ => rfl,fun _ _ => rfl⟩
    exact .of_run hrun hw he ((denotes_node hm hle hil hir hl.1).extends he)

theorem mkAnd_found {x : ℤ} (h : m.rewriteAnd a b = some (.found x)) :
    mkAnd a b m = (x,m) := by
  unfold mkAnd
  simp only [bind,StateT.bind,get,getThe,MonadStateOf.get,StateT.get,pure,h]
  rfl

theorem mkAnd_gate (h : m.rewriteAnd a b = some (.gate l r)) :
    mkAnd a b m = internAnd l r m := by
  unfold mkAnd
  simp only [bind,StateT.bind,get,getThe,MonadStateOf.get,StateT.get,pure,h]

theorem mkAnd_spec (hm : m.Wf) (ha : m.Denotes a f) (hb : m.Denotes b g) :
    Spec (mkAnd a b) m (fun x m' => m'.Denotes x (fun ρ => f ρ && g ρ)) := by
  obtain ⟨res,hres,hden⟩ := rewriteAnd_spec hm ha.1 hb.1
  have hfg : ∀ ρ, (m.evalLit ρ a && m.evalLit ρ b) = (f ρ && g ρ) := fun ρ => by
    rw [ha.2 ρ,hb.2 ρ]
  unfold Spec
  cases res with
  | found x =>
    rw [mkAnd_found hres]
    exact ⟨hm,.refl m,hden.1,fun ρ => (hden.2 ρ).trans (hfg ρ)⟩
  | gate l r =>
    obtain ⟨hl,hr,he⟩ := hden
    rw [mkAnd_gate hres]
    exact (internAnd_spec hm hl hr).mono fun x m' _ _ hx => hx.congr fun ρ => (he ρ).trans (hfg ρ)

theorem mkOr_spec (hm : m.Wf) (ha : m.Denotes a f) (hb : m.Denotes b g) :
    Spec (mkOr a b) m (fun x m' => m'.Denotes x (fun ρ => f ρ || g ρ)) := by
  refine (mkAnd_spec hm ha.neg hb.neg).bind fun x m₁ hm₁ _ hx => ?_
  exact .pure hm₁ (hx.neg.congr fun ρ => by simp)

theorem mkXor_spec (hm : m.Wf) (ha : m.Denotes a f) (hb : m.Denotes b g) :
    Spec (mkXor a b) m (fun x m' => m'.Denotes x (fun ρ => f ρ ^^ g ρ)) := by
  refine (mkAnd_spec hm ha hb.neg).bind fun l m₁ hm₁ he₁ hl => ?_
  refine (mkAnd_spec hm₁ (ha.neg.extends he₁) (hb.extends he₁)).bind fun r m₂ hm₂ he₂ hr => ?_
  refine (mkOr_spec hm₂ (hl.extends he₂) hr).mono fun x _ _ _ hx => hx.congr fun ρ => ?_
  cases f ρ <;> cases g ρ <;> rfl

theorem mkIff_spec (hm : m.Wf) (ha : m.Denotes a f) (hb : m.Denotes b g) :
    Spec (mkIff a b) m (fun x m' => m'.Denotes x (fun ρ => f ρ == g ρ)) := by
  refine (mkXor_spec hm ha hb).bind fun x m₁ hm₁ _ hx => ?_
  refine .pure hm₁ (hx.neg.congr fun ρ => ?_)
  cases f ρ <;> cases g ρ <;> rfl

theorem mkIte_spec (hm : m.Wf) {c t e : ℤ} {h : (ℕ → Bool) → Bool} (hc : m.Denotes c f)
    (ht : m.Denotes t g) (he : m.Denotes e h) :
    Spec (mkIte c t e) m (fun x m' => m'.Denotes x (fun ρ => if f ρ then g ρ else h ρ)) := by
  unfold mkIte
  split_ifs with h1 h2 h3
  · subst h1
    have hf : ∀ ρ, f ρ = true := fun ρ => by rw [← hc.2 ρ,evalLit_true]
    exact .pure hm (ht.congr fun ρ => by simp [hf ρ])
  · subst h2
    have hf : ∀ ρ, f ρ = false := fun ρ => by rw [← hc.2 ρ,evalLit_false]
    exact .pure hm (he.congr fun ρ => by simp [hf ρ])
  · subst h3
    have hgh : ∀ ρ, g ρ = h ρ := fun ρ => by rw [← ht.2 ρ,he.2 ρ]
    exact .pure hm (ht.congr fun ρ => by simp [hgh ρ])
  · refine (mkAnd_spec hm hc ht).bind fun l m₁ hm₁ he₁ hl => ?_
    refine (mkAnd_spec hm₁ (hc.neg.extends he₁) (he.extends he₁)).bind fun r m₂ hm₂ he₂ hr => ?_
    refine (mkOr_spec hm₂ (hl.extends he₂) hr).mono fun x _ _ _ hx => hx.congr fun ρ => ?_
    cases f ρ <;> simp

theorem mkInput_spec (hm : m.Wf) :
    Spec mkInput m (fun x m' => x = ((m.nodes.size + 1 : ℕ) : ℤ) ∧
      m'.Denotes x (fun ρ => ρ (m.nodes.size + 1))) := by
  have hbs : ∀ c ∈ m.buckets, ∀ idx ∈ c, 0 < idx ∧ idx ≤ m.nodes.size + 1 := fun c hc idx hi => by
    have := hm.chains c hc idx hi
    omega
  have hpos := hm.size_pos
  refine ⟨hm.push (fun h => absurd rfl h) hbs _ _ _ _,.push _ _ _ _ _ _ _ hm,rfl,?_,fun ρ => ?_⟩
  · exact ⟨by simp only [mkInput]; omega,by simp [mkInput]; omega⟩
  · have hneg : ¬ ((m.nodes.size : ℤ) + 1 < 0) := by omega
    simp only [mkInput,evalLit,Int.natAbs_natCast]
    rw [evalNode,if_neg (by omega),node_push _ _ _ _ _ _ _ _ (Nat.succ_pos _),if_pos rfl]
    simp [hneg]

theorem new_wf : new.Wf where
  size_pos := by decide
  node_one := rfl
  children i hi h := by
    have hi' : i - 1 = 0 := by
      have : i ≤ 1 := hi
      omega
    simp [node,hi',new] at h
  chains c hc idx hidx := by
    simp only [new,Array.mem_replicate] at hc
    simp [hc.2] at hidx

inductive Call
  | mkInput
  | mkAnd (a b : ℤ)
  | mkOr (a b : ℤ)
  | mkXor (a b : ℤ)
  | mkIff (a b : ℤ)
  | mkIte (c t e : ℤ)
  deriving DecidableEq, Repr

def Call.args : Call → List ℤ
  | mkInput => []
  | mkAnd a b | mkOr a b | mkXor a b | mkIff a b => [a,b]
  | mkIte c t e => [c,t,e]

def Call.run : Call → Build ℤ
  | mkInput => Aig.mkInput
  | mkAnd a b => Aig.mkAnd a b
  | mkOr a b => Aig.mkOr a b
  | mkXor a b => Aig.mkXor a b
  | mkIff a b => Aig.mkIff a b
  | mkIte c t e => Aig.mkIte c t e

/-- What the call is for: its connective of the operands' values, or the value
`ρ` gives the input it creates. -/
def Call.value (m : Aig) (ρ : ℕ → Bool) : Call → Bool
  | mkInput => ρ (m.nodes.size + 1)
  | mkAnd a b => m.evalLit ρ a && m.evalLit ρ b
  | mkOr a b => m.evalLit ρ a || m.evalLit ρ b
  | mkXor a b => m.evalLit ρ a ^^ m.evalLit ρ b
  | mkIff a b => m.evalLit ρ a == m.evalLit ρ b
  | mkIte c t e => if m.evalLit ρ c then m.evalLit ρ t else m.evalLit ρ e

/-- Managers reached from `dvs_aig_new` by calls on literals of the arena, with
the literals the calls returned, newest first. -/
inductive Reachable : Aig → List ℤ → Prop
  | new : Reachable Aig.new []
  | call {m : Aig} {lits : List ℤ} (c : Call) : Reachable m lits →
      (∀ l ∈ c.args, m.Valid l) → Reachable (c.run m).2 ((c.run m).1 :: lits)

theorem Valid.denotes (h : m.Valid l) : m.Denotes l (fun ρ => m.evalLit ρ l) :=
  ⟨h,fun _ => rfl⟩

theorem Call.run_spec (hm : m.Wf) (c : Call) (hc : ∀ l ∈ c.args, m.Valid l) :
    Spec c.run m (fun x m' => m'.Denotes x (fun ρ => c.value m ρ)) := by
  cases c with
  | mkInput => exact (mkInput_spec hm).mono fun x m' _ _ hx => hx.2
  | mkAnd a b => exact mkAnd_spec hm (hc a (by simp [args])).denotes (hc b (by simp [args])).denotes
  | mkOr a b => exact mkOr_spec hm (hc a (by simp [args])).denotes (hc b (by simp [args])).denotes
  | mkXor a b => exact mkXor_spec hm (hc a (by simp [args])).denotes (hc b (by simp [args])).denotes
  | mkIff a b => exact mkIff_spec hm (hc a (by simp [args])).denotes (hc b (by simp [args])).denotes
  | mkIte c t e =>
    exact mkIte_spec hm (hc c (by simp [args])).denotes (hc t (by simp [args])).denotes
      (hc e (by simp [args])).denotes

theorem Reachable.wf {lits : List ℤ} (h : Reachable m lits) : m.Wf := by
  induction h with
  | new => exact new_wf
  | call c _ hc ih => exact (c.run_spec ih hc).1

theorem Reachable.valid {lits : List ℤ} (h : Reachable m lits) :
    ∀ l ∈ lits, m.Valid l := by
  induction h with
  | new => simp
  | call c hr hc ih =>
    obtain ⟨_,he,hd⟩ := c.run_spec hr.wf hc
    intro l hl
    rcases List.mem_cons.mp hl with rfl | hl
    · exact hd.1
    · exact (ih l hl).extends he

/-- In every reachable manager a call returns a literal for its connective of the
operands, and no literal returned before changes its value. -/
theorem call_evaluates {m : Aig} {lits : List ℤ} (h : Reachable m lits) (c : Call)
    (hc : ∀ l ∈ c.args, m.Valid l) (ρ : ℕ → Bool) :
    (c.run m).2.evalLit ρ (c.run m).1 = c.value m ρ ∧
      ∀ l ∈ lits, (c.run m).2.evalLit ρ l = m.evalLit ρ l := by
  obtain ⟨_,he,hd⟩ := c.run_spec h.wf hc
  exact ⟨hd.2 ρ,fun l hl => evalLit_extends he ρ (h.valid l hl)⟩

/-- Two inputs, and a call of XOR on the first and the negated second. -/
theorem call_evaluates_xor :
    let m := (Call.mkInput.run (Call.mkInput.run new).2).2
    ((Call.mkXor 2 (-3)).run m).2.evalLit (fun i => i == 2) ((Call.mkXor 2 (-3)).run m).1 =
      (Call.mkXor 2 (-3)).value m (fun i => i == 2) ∧
      ∀ l ∈ [3,2], ((Call.mkXor 2 (-3)).run m).2.evalLit (fun i => i == 2) l =
        m.evalLit (fun i => i == 2) l :=
  call_evaluates ((Reachable.new.call .mkInput (by decide)).call .mkInput (by decide))
    (.mkXor 2 (-3)) (by decide) _

end Aig
end DvSolve
