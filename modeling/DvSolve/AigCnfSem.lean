import DvSolve.AigCnf

/-! The clauses the encoder emits say exactly what the graph says.
A node is marked together with clauses that fix its variable to its value, so
the marked nodes are decided by the inputs below them at every point of a run;
the leaves of a flattened root conjoin to the root. -/
namespace DvSolve
namespace Cnf

open Bool (false_eq_true)
open List (mem_cons not_mem_nil)

variable {v : ℕ → Bool} {cs : List (List ℤ)} {x : ℤ} {m : Aig} {cur : ℤ} {A : (ℕ → Bool) → Prop}
  {e : Cnf} {root : ℤ} {roots : List ℤ}

def litValue (v : ℕ → Bool) (l : ℤ) : Bool := v l.natAbs ^^ decide (l < 0)

def Satisfies (v : ℕ → Bool) (cs : List (List ℤ)) : Prop :=
  ∀ c ∈ cs, ∃ l ∈ c, litValue v l = true

theorem satisfies_append {ds : List (List ℤ)} :
    Satisfies v (cs ++ ds) ↔ Satisfies v cs ∧ Satisfies v ds := by
  simp only [Satisfies,List.mem_append,or_imp,forall_and]

theorem litValue_neg (v : ℕ → Bool) {l : ℤ} (hl : l ≠ 0) : litValue v (-l) = !litValue v l := by
  have hs : decide (-l < 0) = !decide (l < 0) := by
    rcases lt_or_gt_of_ne hl with h | h
    · simp [h,h.le]
    · simp [h,h.le]
  rw [litValue,litValue,hs,Int.natAbs_neg,Bool.xor_not]

/-- The Tseitin clauses hold exactly when `x` has the value of `a ∧ b`. -/
theorem satisfies_and {a b : ℤ} (hx : x ≠ 0) (ha : a ≠ 0) (hb : b ≠ 0) :
    Satisfies v [[-x,a],[-x,b],[x,-a,-b]] ↔ litValue v x = (litValue v a && litValue v b) := by
  simp only [Satisfies,mem_cons,not_mem_nil,or_false,forall_eq_or_imp,forall_eq,
    exists_eq_or_imp,exists_eq_left,litValue_neg v hx,litValue_neg v ha,litValue_neg v hb]
  cases litValue v x <;> cases litValue v a <;> cases litValue v b <;> simp

theorem satisfies_ite {c a b : ℤ} (hx : x ≠ 0) (hc : c ≠ 0) (ha : a ≠ 0) (hb : b ≠ 0) :
    Satisfies v [[-x,-c,a],[-x,c,b],[x,-c,-a],[x,c,-b]] ↔
      litValue v x = (if litValue v c then litValue v a else litValue v b) := by
  simp only [Satisfies,mem_cons,not_mem_nil,or_false,forall_eq_or_imp,forall_eq,
    exists_eq_or_imp,exists_eq_left,litValue_neg v hx,litValue_neg v hc,litValue_neg v ha,
    litValue_neg v hb]
  cases litValue v x <;> cases litValue v c <;> cases litValue v a <;> cases litValue v b <;> simp

theorem detectIte_sound (hm : m.Wf) {c na nb : ℤ} (h : detectIte m cur = some (c,na,nb)) :
    0 < cur ∧ (∀ x ∈ [c,na,nb], m.Valid x ∧ x.natAbs < cur.natAbs) ∧ ∀ ρ, m.evalLit ρ cur =
        (if m.evalLit ρ c then !m.evalLit ρ na else !m.evalLit ρ nb) := by
  simp only [detectIte] at h
  split_ifs at h with h1 h2 h3 h4
  simp only [Bool.or_eq_true,decide_eq_true_eq,Bool.not_eq_true',not_or,Bool.not_eq_false,
    not_lt,ge_iff_le,not_le] at h1 h2 h3
  have hmem := Aig.mem_of_firstRule h
  have hcur := hm.and_children h1.2
  have hl := hm.and_children h3.1
  have hr := hm.and_children h3.2
  have ecur := fun ρ => hm.evalLit_and ρ h1.2
  have el := fun ρ => hm.evalLit_and ρ h3.1
  have er := fun ρ => hm.evalLit_and ρ h3.2
  have hpos : 0 < cur := lt_of_le_of_ne h1.1 (by have := (Aig.isAndId_iff.mp h1.2).1; omega)
  have hnc : ¬ cur < 0 := by omega
  simp only [mem_cons,not_mem_nil,or_false,Prod.mk.injEq,eq_comm (a := true),beq_iff_eq] at hmem
  refine ⟨hpos,?_,fun ρ => ?_⟩
  · rcases hmem with ⟨_,rfl,rfl,rfl⟩ | ⟨_,rfl,rfl,rfl⟩ | ⟨_,rfl,rfl,rfl⟩ | ⟨_,rfl,rfl,rfl⟩
    all_goals
      simp only [mem_cons,not_mem_nil,or_false,forall_eq_or_imp,forall_eq]
      grind
  · have hneg := fun l (h : m.Valid l) => m.evalLit_neg ρ h.1
    rcases hmem with ⟨hc,rfl,rfl,rfl⟩ | ⟨hc,rfl,rfl,rfl⟩ | ⟨hc,rfl,rfl,rfl⟩ | ⟨hc,rfl,rfl,rfl⟩
    all_goals grind

theorem litValue_eq_evalLit {ρ : ℕ → Bool} {l : ℤ} (h : v l.natAbs = m.evalNode ρ l.natAbs) :
    litValue v l = m.evalLit ρ l := by
  rw [litValue,Aig.evalLit,h]

/-- The encoder's invariant: under the assumption `A` on the inputs the graph's
values satisfy the clauses, and a model of the clauses has the graph's values at
the encoded nodes. -/
structure Good (m : Aig) (A : (ℕ → Bool) → Prop) (e : Cnf) : Prop where
  range : ∀ i ∈ e.encoded, 0 < i ∧ i ≤ m.nodes.size
  sound : ∀ ρ, A ρ → ∀ v, (∀ i ∈ e.encoded, v i = m.evalNode ρ i) → Satisfies v e.clauses
  complete : ∀ v, Satisfies v e.clauses → ∀ i ∈ e.encoded, v i = m.evalNode v i

theorem Good.emitNode (h : Good m A e) (hx : m.Valid x)
    (hs : ∀ ρ v, (∀ i ∈ insert x.natAbs e.encoded, v i = m.evalNode ρ i) → Satisfies v cs)
    (hc : ∀ v, Satisfies v cs → (∀ i ∈ e.encoded, v i = m.evalNode v i) →
      v x.natAbs = m.evalNode v x.natAbs) :
    Good m A ((e.markEncoded x).emit cs) where
  range i hi := by
    rcases Finset.mem_insert.mp hi with rfl | hi
    · exact ⟨Int.natAbs_pos.mpr hx.1,hx.2⟩
    · exact h.range i hi
  sound ρ hA v hv := by
    refine satisfies_append.mpr ⟨h.sound ρ hA v fun i hi => ?_,hs ρ v hv⟩
    exact hv i (Finset.mem_insert_of_mem hi)
  complete v hv i hi := by
    obtain ⟨h1,h2⟩ := satisfies_append.mp hv
    have hold := h.complete v h1
    rcases Finset.mem_insert.mp hi with rfl | hi
    · exact hc v h2 hold
    · exact hold i hi

theorem isNodeEncoded_iff {l : ℤ} (hl : l ≠ 0) :
    e.isNodeEncoded l = true ↔ l.natAbs ∈ e.encoded := by
  simp [isNodeEncoded,hl]

theorem gateOperands_lt (hm : m.Wf) (hc : m.isAndId cur = true) :
    ∀ x ∈ gateOperands m cur, m.Valid x ∧ x.natAbs < cur.natAbs := by
  unfold gateOperands
  cases hd : detectIte m cur with
  | some t =>
    obtain ⟨c,na,nb⟩ := t
    exact (detectIte_sound hm hd).2.1
  | none =>
    obtain ⟨h1,h2,h3,h4⟩ := hm.and_children hc
    intro x hx
    simp only [mem_cons,not_mem_nil,or_false] at hx
    rcases hx with rfl | rfl
    · exact ⟨h1,h3⟩
    · exact ⟨h2,h4⟩

theorem evalNode_and (hm : m.Wf) (hc : m.isAndId cur = true) (ρ : ℕ → Bool) :
    m.evalNode ρ cur.natAbs = (m.evalLit ρ (m.childrenOf cur).1 && m.evalLit ρ (m.childrenOf cur).2) := by
  have h := hm.evalLit_and ρ hc
  rw [Aig.evalLit] at h
  exact Bool.xor_left_inj.mp h

theorem Good.emitGate (h : Good m A e) (hm : m.Wf) (hv : m.Valid cur) (hc : m.isAndId cur = true)
    (hops : ∀ x ∈ gateOperands m cur, x.natAbs ∈ e.encoded) : Good m A (emitGate m e cur) := by
  have hx0 : (cur.natAbs : ℤ) ≠ 0 := by simpa using hv.1
  have hxv : m.Valid (cur.natAbs : ℤ) := ⟨hx0,by rw [Int.natAbs_natCast]; exact hv.2⟩
  have hxl : ∀ v, litValue v (cur.natAbs : ℤ) = v cur.natAbs := fun v => by
    have hn : ¬ ((cur.natAbs : ℤ) < 0) := by omega
    simp only [litValue,Int.natAbs_natCast,hn,decide_false,Bool.xor_false]
  have hlt := gateOperands_lt hm hc
  unfold Cnf.emitGate
  unfold gateOperands at hops hlt
  cases hd : detectIte m cur with
  | some t =>
    obtain ⟨c,na,nb⟩ := t
    simp only [hd] at hops hlt ⊢
    obtain ⟨hpos,_,heval⟩ := detectIte_sound hm hd
    have hcur : ∀ ρ, m.evalNode ρ cur.natAbs = m.evalLit ρ cur := fun ρ => by
      have hn : ¬ cur < 0 := by omega
      simp only [Aig.evalLit,hn,decide_false,Bool.xor_false]
    obtain ⟨⟨vc,_⟩,⟨va,_⟩,⟨vb,_⟩⟩ : (_ ∧ _) ∧ (_ ∧ _) ∧ (_ ∧ _) := by simpa using hlt
    obtain ⟨ec,ea,eb⟩ : c.natAbs ∈ e.encoded ∧ na.natAbs ∈ e.encoded ∧ nb.natAbs ∈ e.encoded := by
      simpa using hops
    have hiff := fun v => satisfies_ite (v := v) hx0 vc.1 va.neg.1 vb.neg.1
    -- on encoded operands the clauses say what `detect_ite` found
    have hval : ∀ v ρ, (∀ i ∈ e.encoded, v i = m.evalNode ρ i) →
        (if litValue v c then litValue v (-na) else litValue v (-nb)) =
          m.evalNode ρ cur.natAbs := fun v ρ hvρ => by
      rw [litValue_neg v va.1,litValue_neg v vb.1,litValue_eq_evalLit (hvρ _ ec),
        litValue_eq_evalLit (hvρ _ ea),litValue_eq_evalLit (hvρ _ eb),hcur,heval]
    refine h.emitNode hxv (fun ρ v hvρ => ?_) (fun v hs hold => ?_)
    · rw [hiff,hxl,hval v ρ fun i hi => hvρ i (Finset.mem_insert_of_mem hi)]
      exact hvρ _ (Finset.mem_insert_self _ _)
    · rw [hiff,hxl,hval v v hold] at hs
      rw [Int.natAbs_natCast]
      exact hs
  | none =>
    simp only [hd] at hops hlt ⊢
    obtain ⟨⟨va,_⟩,⟨vb,_⟩⟩ : (_ ∧ _) ∧ (_ ∧ _) := by simpa using hlt
    obtain ⟨ea,eb⟩ : (m.childrenOf cur).1.natAbs ∈ e.encoded ∧
        (m.childrenOf cur).2.natAbs ∈ e.encoded := by simpa using hops
    have hiff := fun v => satisfies_and (v := v) hx0 va.1 vb.1
    have hval : ∀ v ρ, (∀ i ∈ e.encoded, v i = m.evalNode ρ i) →
        (litValue v (m.childrenOf cur).1 && litValue v (m.childrenOf cur).2) =
          m.evalNode ρ cur.natAbs := fun v ρ hvρ => by
      rw [litValue_eq_evalLit (hvρ _ ea),litValue_eq_evalLit (hvρ _ eb),evalNode_and hm hc]
    refine h.emitNode hxv (fun ρ v hvρ => ?_) (fun v hs hold => ?_)
    · rw [hiff,hxl,hval v ρ fun i hi => hvρ i (Finset.mem_insert_of_mem hi)]
      exact hvρ _ (Finset.mem_insert_self _ _)
    · rw [hiff,hxl,hval v v hold] at hs
      rw [Int.natAbs_natCast]
      exact hs

structure Encodes (m : Aig) (A : (ℕ → Bool) → Prop) (top : ℕ) (e e' : Cnf) : Prop where
  good : Good m A e'
  subset : e.encoded ⊆ e'.encoded
  clauses : e.clauses <+: e'.clauses
  le_top : ∀ i ∈ e'.encoded, i ∈ e.encoded ∨ i ≤ top
  visited : e'.visited = e.visited
  touched : e'.touched = e.touched

theorem Encodes.refl {top : ℕ} (h : Good m A e) :
    Encodes m A top e e :=
  ⟨h,Finset.Subset.refl _,List.prefix_refl _,fun _ hi => Or.inl hi,rfl,rfl⟩

theorem Encodes.trans {top : ℕ} {e' e'' : Cnf} (h : Encodes m A top e e')
    (h' : Encodes m A top e' e'') : Encodes m A top e e'' where
  good := h'.good
  subset := h.subset.trans h'.subset
  clauses := h.clauses.trans h'.clauses
  le_top i hi := (h'.le_top i hi).elim (h.le_top i) Or.inr
  visited := h'.visited.trans h.visited
  touched := h'.touched.trans h.touched

theorem Encodes.mono {top top' : ℕ} {e' : Cnf} (h : Encodes m A top e e') (ht : top ≤ top') :
    Encodes m A top' e e' :=
  { h with le_top := fun i hi => (h.le_top i hi).imp id fun hi => hi.trans ht }

theorem Encodes.emitNode (h : Good m A ((e.markEncoded x).emit cs)) :
    Encodes m A x.natAbs e ((e.markEncoded x).emit cs) where
  good := h
  subset := Finset.subset_insert _ _
  clauses := List.prefix_append _ _
  le_top _ hi := (Finset.mem_insert.mp hi).elim (fun hi => Or.inr hi.le) Or.inl
  visited := rfl
  touched := rfl

/-- Rounds that take `x` off the stack. Counting from `c` marked nodes, the ones
they mark pay four rounds each. -/
def Taken (m : Aig) (A : (ℕ → Bool) → Prop) (x : ℤ) (e : Cnf) (rest : List ℤ) (c : ℕ) : Prop :=
  ∃ k e', Loop.Reach (encodeRound m) k (e,x :: rest) (e',rest) ∧
    Encodes m A x.natAbs e e' ∧ x.natAbs ∈ e'.encoded ∧ k + 4 * c ≤ 1 + 4 * e'.encoded.card

theorem Taken.weaken {rest : List ℤ} {c : ℕ} (h : Taken m A x e rest (c+1)) :
    Taken m A x e rest c := by
  obtain ⟨k,e',hr,hE,hmem,hk⟩ := h
  exact ⟨k,e',hr,hE,hmem,by omega⟩

theorem taken_list (top : ℕ) (xs : List ℤ)
    (hxs : ∀ x ∈ xs, (∀ e rest, Good m A e → Taken m A x e rest e.encoded.card) ∧
      x.natAbs ≤ top) (e : Cnf) (rest : List ℤ) (he : Good m A e) :
    ∃ k e', Loop.Reach (encodeRound m) k (e,xs ++ rest) (e',rest) ∧ Encodes m A top e e' ∧
      (∀ x ∈ xs, x.natAbs ∈ e'.encoded) ∧
      k + 4 * e.encoded.card ≤ xs.length + 4 * e'.encoded.card := by
  induction xs generalizing e with
  | nil => exact ⟨0,e,.refl _,.refl he,by simp,by simp⟩
  | cons x xs ih =>
    obtain ⟨hx,hle⟩ := hxs x (by simp)
    obtain ⟨k₁,e₁,hr₁,hE₁,hm₁,hk₁⟩ := hx e (xs ++ rest) he
    obtain ⟨k₂,e₂,hr₂,hE₂,hm₂,hk₂⟩ := ih (fun y hy => hxs y (by simp [hy])) e₁ hE₁.good
    refine ⟨k₁+k₂,e₂,hr₁.trans hr₂,(hE₁.mono hle).trans hE₂,?_,?_⟩
    · intro y hy
      rcases mem_cons.mp hy with rfl | hy
      · exact hE₂.subset hm₁
      · exact hm₂ y hy
    · simp only [List.length_cons]
      omega

theorem taken_emit {rest : List ℤ} (cs : List (List ℤ)) (hnot : x.natAbs ∉ e.encoded)
    (hgood : Good m A ((e.markEncoded x).emit cs))
    (hround : encodeRound m (e,x :: rest) = .again ((e.markEncoded x).emit cs,rest)) :
    Taken m A x e rest (e.encoded.card + 1) := by
  refine ⟨1,_,.single hround,.emitNode hgood,Finset.mem_insert_self _ _,?_⟩
  have hcard : ((e.markEncoded x).emit cs).encoded.card = e.encoded.card + 1 :=
    Finset.card_insert_of_notMem hnot
  omega

@[simp] theorem emit_nil (e : Cnf) : e.emit [] = e := by simp [emit]

theorem emitGate_eq (m : Aig) (e : Cnf) (cur : ℤ) :
    ∃ cs, emitGate m e cur = (e.markEncoded cur).emit cs := by
  have hmark : e.markEncoded (cur.natAbs : ℤ) = e.markEncoded cur := by
    simp only [markEncoded,Int.natAbs_natCast]
  unfold emitGate
  cases detectIte m cur with
  | some t =>
    obtain ⟨c,na,nb⟩ := t
    simp only [hmark]
    exact ⟨_,rfl⟩
  | none =>
    simp only [hmark]
    exact ⟨_,rfl⟩

theorem isInput_of_not_and (hx : m.Valid x) (hc : ¬ (x = aigTrue ∨ x = aigFalse))
    (hand : ¬ m.isAndId x = true) : m.isInput x = true := by
  have h0 : ¬ (x = 0 ∨ x = aigTrue ∨ x = aigFalse) := by
    rintro (h | h)
    · exact hx.1 h
    · exact hc h
  have hs : ¬ x.natAbs > m.nodes.size := not_lt.mpr hx.2
  simpa [Aig.isInput,Aig.isAndId,h0,hs] using hand

theorem evalNode_input (hin : m.isInput x = true) (ρ : ℕ → Bool) :
    m.evalNode ρ x.natAbs = ρ x.natAbs := by
  unfold Aig.isInput aigTrue aigFalse at hin
  split_ifs at hin with h1 h2
  have hleft : (m.node x.natAbs).left = 0 := by simpa using hin
  rw [Aig.evalNode,if_neg (by omega),if_pos hleft]

theorem not_isInput_of_and (hand : m.isAndId x = true) :
    ¬ m.isInput x = true := by
  obtain ⟨h1,h2,h3⟩ := Aig.isAndId_iff.mp hand
  have hne : (m.node x.natAbs).left ≠ 0 := h3
  unfold Aig.isInput aigTrue aigFalse
  split_ifs <;> simp [hne]

theorem taken_node (hm : m.Wf) (A : (ℕ → Bool) → Prop) (x : ℤ) (hx : m.Valid x) (e : Cnf)
    (rest : List ℤ) (he : Good m A e) : Taken m A x e rest e.encoded.card := by
  -- a gate's operands have smaller ids
  induction hn : x.natAbs using Nat.strong_induction_on generalizing x e rest with
  | _ n ih =>
  subst hn
  by_cases henc : e.isNodeEncoded x = true
  · refine ⟨1,e,.single ?_,.refl he,(isNodeEncoded_iff hx.1).mp henc,le_refl _⟩
    simp only [encodeRound,henc,if_true]
  have hnot : x.natAbs ∉ e.encoded := fun h => henc ((isNodeEncoded_iff hx.1).mpr h)
  by_cases hconst : x = aigTrue ∨ x = aigFalse
  · have hone : x.natAbs = 1 := by
      rcases hconst with rfl | rfl <;> rfl
    have htrue : ∀ v, Satisfies v [[aigTrue]] ↔ v 1 = true := fun v => by
      simp [Satisfies,litValue,aigTrue]
    have heval : ∀ ρ, m.evalNode ρ x.natAbs = true := fun ρ => by
      rw [hone,Aig.evalNode,if_pos le_rfl]
    refine (taken_emit [[aigTrue]] hnot (he.emitNode hx (fun ρ v hv => ?_)
      (fun v hs _ => ?_)) ?_).weaken
    · rw [htrue,← hone,hv _ (Finset.mem_insert_self _ _),heval]
    · rw [heval,hone,← htrue]
      exact hs
    · simp only [encodeRound,henc,hconst,if_true,false_eq_true,if_false]
  by_cases hand : m.isAndId x = true
  · have hin := not_isInput_of_and hand
    have hlt := gateOperands_lt hm hand
    have hops0 : ∀ y ∈ gateOperands m x, y ≠ 0 := fun y hy => (hlt y hy).1.1
    -- once the operands are encoded the gate is emitted in one round
    have hlast : ∀ e, Good m A e → x.natAbs ∉ e.encoded → (∀ y ∈ gateOperands m x, y.natAbs ∈ e.encoded) →
        Taken m A x e rest (e.encoded.card + 1) := by
      intro e he hnot hops
      obtain ⟨cs,hcs⟩ := emitGate_eq m e x
      have hne : ¬ e.isNodeEncoded x = true := fun h => hnot ((isNodeEncoded_iff hx.1).mp h)
      have hall : (gateOperands m x).all e.isNodeEncoded = true :=
        List.all_eq_true.mpr fun y hy => (isNodeEncoded_iff (hops0 y hy)).mpr (hops y hy)
      have hg := he.emitGate hm hx hand hops
      rw [hcs] at hg
      refine taken_emit cs hnot hg ?_
      simp only [encodeRound,hne,hconst,hin,hall,hcs,if_true,if_false,false_eq_true]
    by_cases hall : (gateOperands m x).all e.isNodeEncoded = true
    · refine (hlast e he hnot fun y hy => ?_).weaken
      exact (isNodeEncoded_iff (hops0 y hy)).mp (List.all_eq_true.mp hall y hy)
    · have hpush : encodeRound m (e,x :: rest) = .again (e,(gateOperands m x).reverse ++ x :: rest) := by
        simp only [encodeRound,henc,hconst,hin,hall,if_false,false_eq_true]
      have hlen : (gateOperands m x).reverse.length ≤ 3 := by
        unfold gateOperands
        cases detectIte m x <;> simp
      obtain ⟨k₁,e₁,hr₁,hE₁,hm₁,hk₁⟩ := taken_list (x.natAbs - 1)
        (gateOperands m x).reverse (fun y hy => by
          have hy' := hlt y (List.mem_reverse.mp hy)
          exact ⟨fun e rest he => ih _ hy'.2 y hy'.1 e rest he rfl,by omega⟩) e (x :: rest) he
      have hpos := Int.natAbs_pos.mpr hx.1
      have hnot₁ : x.natAbs ∉ e₁.encoded := fun h =>
        (hE₁.le_top _ h).elim hnot (by omega)
      obtain ⟨k₂,e₂,hr₂,hE₂,hm₂,hk₂⟩ := hlast e₁ hE₁.good hnot₁
        fun y hy => hm₁ y (List.mem_reverse.mpr hy)
      refine ⟨1+k₁+k₂,e₂,((Loop.Reach.single hpush).trans hr₁).trans hr₂,
        (hE₁.mono (Nat.sub_le _ _)).trans hE₂,hm₂,?_⟩
      omega
  · have hin := isInput_of_not_and hx hconst hand
    refine (taken_emit [] hnot (he.emitNode hx (fun ρ v _ => ?_)
      (fun v _ _ => ?_)) ?_).weaken
    · simp [Satisfies]
    · rw [evalNode_input hin]
    · simp only [encodeRound,henc,hconst,hin,if_true,if_false,false_eq_true,emit_nil]

theorem Good.card_le (h : Good m A e) :
    e.encoded.card ≤ m.nodes.size := by
  have hsub : e.encoded ⊆ Finset.Icc 1 m.nodes.size := fun i hi => by
    have := h.range i hi
    exact Finset.mem_Icc.mpr ⟨this.1,this.2⟩
  simpa using Finset.card_le_card hsub

theorem encodeSubtree_spec (hm : m.Wf) (he : Good m A e) (hr : m.Valid root) :
    ∃ e', encodeSubtree m e root = some e' ∧ Encodes m A root.natAbs e e' ∧ root.natAbs ∈ e'.encoded := by
  obtain ⟨k,e',hreach,hE,hmem,hk⟩ := taken_node hm A root hr e [] he
  have hcard := hE.good.card_le
  exact ⟨e',hreach.loop_eq rfl (by omega),hE,hmem⟩

theorem visitBit_injective {y : ℤ} (hx : x ≠ 0) (hy : y ≠ 0) (h : visitBit x = visitBit y) :
    x = y := by
  unfold visitBit at h
  split_ifs at h <;> omega

theorem visitBit_lt (hx : m.Valid x) : visitBit x < 2 * m.nodes.size := by
  have h1 := hx.1
  have h2 := hx.2
  unfold visitBit
  split_ifs <;> omega

/-- Invariant of the flattening of `root`: `root` forces the pending literals and
the leaves, and a visited literal is a leaf or an AND whose children are visited
or pending. -/
structure Flattening (m : Aig) (root : ℤ) (e₀ : Cnf) (s : Cnf × List ℤ × List ℤ) : Prop where
  encoded : s.1.encoded = e₀.encoded
  clauses : s.1.clauses = e₀.clauses
  touched : s.1.touched.toFinset = s.1.visited
  bits : s.1.visited ⊆ Finset.range (2 * m.nodes.size)
  pending : ∀ x ∈ s.2.1, m.Valid x ∧ ∀ ρ, m.evalLit ρ root = true → m.evalLit ρ x = true
  leaves : ∀ x ∈ s.2.2, m.Valid x ∧ ∀ ρ, m.evalLit ρ root = true → m.evalLit ρ x = true
  seen : ∀ x, x ≠ 0 → visitBit x ∈ s.1.visited → x ∈ s.2.2 ∨ (0 < x ∧ m.isAndId x = true ∧
    ∀ y ∈ [(m.childrenOf x).1,(m.childrenOf x).2], y ∈ s.2.1 ∨ visitBit y ∈ s.1.visited)
  root_seen : root ∈ s.2.1 ∨ visitBit root ∈ s.1.visited

/-- Where nothing is pending, true leaves make every visited literal true. -/
theorem Flattening.eval_seen (hm : m.Wf) {e₀ : Cnf} {leaves : List ℤ}
    (h : Flattening m root e₀ (e,[],leaves)) (ρ : ℕ → Bool)
    (hleaves : ∀ x ∈ leaves, m.evalLit ρ x = true) (x : ℤ) (hx : x ≠ 0)
    (hseen : visitBit x ∈ e.visited) : m.evalLit ρ x = true := by
  induction hn : x.natAbs using Nat.strong_induction_on generalizing x with
  | _ n ih =>
    rcases h.seen x hx hseen with hl | ⟨hpos,hand,hch⟩
    · exact hleaves x hl
    · obtain ⟨v1,v2,h1,h2⟩ := hm.and_children hand
      have hc : ∀ y ∈ [(m.childrenOf x).1,(m.childrenOf x).2], visitBit y ∈ e.visited :=
        fun y hy => (hch y hy).elim (fun h => absurd h (by simp)) id
      have e1 := ih _ (hn ▸ h1) (m.childrenOf x).1 v1.1 (hc _ (by simp)) rfl
      have e2 := ih _ (hn ▸ h2) (m.childrenOf x).2 v2.1 (hc _ (by simp)) rfl
      have hneg : ¬ x < 0 := by omega
      rw [hm.evalLit_and ρ hand,e1,e2]
      simp [hneg]

/-- The literals of a visited AND stay visited or pending when the top of the
stack has become visited itself. -/
theorem mem_or_seen {stack stack' : List ℤ} {visited visited' : Finset ℕ} {y : ℤ}
    (hsub : ∀ z ∈ stack, z ∈ stack') (hv : visited ⊆ visited') (hcur : visitBit cur ∈ visited')
    (h : y ∈ cur :: stack ∨ visitBit y ∈ visited) : y ∈ stack' ∨ visitBit y ∈ visited' := by
  rcases h with h | h
  · rcases mem_cons.mp h with rfl | h
    · exact Or.inr hcur
    · exact Or.inl (hsub y h)
  · exact Or.inr (hv h)

def flattenVariant (m : Aig) (s : Cnf × List ℤ × List ℤ) : ℕ :=
  3 * (2 * m.nodes.size - s.1.visited.card) + s.2.1.length

theorem flattenRound_good (hm : m.Wf) {e₀ : Cnf} (s : Cnf × List ℤ × List ℤ)
    (hs : Flattening m root e₀ s) :
    (flattenRound m s).Good (Flattening m root e₀)
      (fun r => Flattening m root e₀ (r.1,[],r.2)) (flattenVariant m) s := by
  obtain ⟨e,stack,leaves⟩ := s
  cases stack with
  | nil => exact hs
  | cons cur rest =>
    obtain ⟨hv,hcur⟩ := hs.pending cur (by simp)
    have hrest : ∀ x ∈ rest, m.Valid x ∧ ∀ ρ, m.evalLit ρ root = true → m.evalLit ρ x = true :=
      fun x hx => hs.pending x (by simp [hx])
    by_cases hbit : visitBit cur ∈ e.visited
    · have hround : flattenRound m (e,cur :: rest,leaves) = .again (e,rest,leaves) := by
        simp only [flattenRound,hbit,if_true]
      rw [hround]
      refine ⟨{ hs with pending := hrest, seen := ?_, root_seen := ?_ },?_⟩
      · intro x hx hb
        refine (hs.seen x hx hb).imp id fun ⟨h1,h2,h3⟩ => ⟨h1,h2,fun y hy => ?_⟩
        exact mem_or_seen (fun z hz => hz) (Finset.Subset.refl _) hbit (h3 y hy)
      · exact mem_or_seen (fun z hz => hz) (Finset.Subset.refl _) hbit hs.root_seen
      · simp [flattenVariant]
    · have hlt := visitBit_lt hv
      have hins : insert (visitBit cur) e.visited ⊆ Finset.range (2 * m.nodes.size) :=
        Finset.insert_subset (Finset.mem_range.mpr hlt) hs.bits
      have hcard : (insert (visitBit cur) e.visited).card = e.visited.card + 1 :=
        Finset.card_insert_of_notMem hbit
      have hle : e.visited.card + 1 ≤ 2 * m.nodes.size := by
        rw [← hcard]
        simpa using Finset.card_le_card hins
      have htouch : (e.touched ++ [visitBit cur]).toFinset = insert (visitBit cur) e.visited := by
        have ht : e.touched.toFinset = e.visited := hs.touched
        simp [List.toFinset_append,ht]
      have hself := Finset.mem_insert_self (visitBit cur) e.visited
      have hsubv := Finset.subset_insert (visitBit cur) e.visited
      by_cases hand : cur > 0 ∧ m.isAndId cur = true
      · obtain ⟨v1,v2,_,_⟩ := hm.and_children hand.2
        have hneg : ¬ cur < 0 := by omega
        have hch : ∀ ρ, m.evalLit ρ root = true →
            m.evalLit ρ (m.childrenOf cur).1 = true ∧ m.evalLit ρ (m.childrenOf cur).2 = true := by
          intro ρ hρ
          have := hcur ρ hρ
          rw [hm.evalLit_and ρ hand.2] at this
          simpa [hneg] using this
        simp only [flattenRound,hbit,hand,if_true,if_false,and_self]
        refine ⟨⟨hs.encoded,hs.clauses,htouch,hins,?_,hs.leaves,?_,?_⟩,?_⟩
        · intro x hx
          rcases mem_cons.mp hx with rfl | hx
          · exact ⟨v2,fun ρ hρ => (hch ρ hρ).2⟩
          rcases mem_cons.mp hx with rfl | hx
          · exact ⟨v1,fun ρ hρ => (hch ρ hρ).1⟩
          · exact hrest x hx
        · intro x hx hb
          rcases Finset.mem_insert.mp hb with hb | hb
          · obtain rfl := visitBit_injective hx hv.1 hb
            refine Or.inr ⟨hand.1,hand.2,fun y hy => Or.inl ?_⟩
            simp only [mem_cons,not_mem_nil,or_false] at hy ⊢
            tauto
          · refine (hs.seen x hx hb).imp id fun ⟨h1,h2,h3⟩ => ⟨h1,h2,fun y hy => ?_⟩
            exact mem_or_seen (fun z hz => by simp [hz]) hsubv hself (h3 y hy)
        · exact mem_or_seen (fun z hz => by simp [hz]) hsubv hself hs.root_seen
        · simp only [flattenVariant,hcard,List.length_cons]
          omega
      · simp only [flattenRound,hbit,hand,if_false]
        refine ⟨⟨hs.encoded,hs.clauses,htouch,hins,hrest,?_,?_,?_⟩,?_⟩
        · intro x hx
          rcases List.mem_append.mp hx with hx | hx
          · exact hs.leaves x hx
          · rw [List.mem_singleton.mp hx]
            exact ⟨hv,hcur⟩
        · intro x hx hb
          rcases Finset.mem_insert.mp hb with hb | hb
          · obtain rfl := visitBit_injective hx hv.1 hb
            exact Or.inl (by simp)
          · refine (hs.seen x hx hb).imp (fun h => List.mem_append_left _ h)
              fun ⟨h1,h2,h3⟩ => ⟨h1,h2,fun y hy => ?_⟩
            exact mem_or_seen (fun z hz => hz) hsubv hself (h3 y hy)
        · exact mem_or_seen (fun z hz => hz) hsubv hself hs.root_seen
        · simp only [flattenVariant,hcard,List.length_cons]
          omega

theorem foldl_erase (xs : List ℕ) (s : Finset ℕ) :
    xs.foldl Finset.erase s = s \ xs.toFinset := by
  induction xs generalizing s with
  | nil => simp
  | cons x xs ih =>
    rw [List.foldl_cons,ih]
    ext i
    simp only [Finset.mem_sdiff,Finset.mem_erase,List.toFinset_cons,Finset.mem_insert]
    tauto

theorem flatten_spec (hm : m.Wf) (hr : m.Valid root) (hv : e.visited = ∅) (ht : e.touched = []) :
    ∃ e' leaves, flatten m e root = some (e',leaves) ∧ e'.encoded = e.encoded ∧
      e'.clauses = e.clauses ∧ e'.clearTouched.visited = ∅ ∧ (∀ x ∈ leaves, m.Valid x) ∧
      ∀ ρ, m.evalLit ρ root = true ↔ ∀ x ∈ leaves, m.evalLit ρ x = true := by
  have h0 : Flattening m root e (e,[root],[]) :=
    ⟨rfl,rfl,by simp [hv,ht],by simp [hv],by simpa using hr,by simp,by simp [hv],by simp⟩
  have hn : flattenVariant m (e,[root],[]) < 6 * m.nodes.size + 2 := by
    simp only [flattenVariant,List.length_singleton]
    omega
  obtain ⟨⟨e',leaves⟩,hrun,hF⟩ :=
    Loop.loop_spec (flattenVariant m) (flattenRound_good hm) _ _ h0 hn
  have htv : e'.touched.toFinset = e'.visited := hF.touched
  have hroot : visitBit root ∈ e'.visited := hF.root_seen.elim (fun h => absurd h (by simp)) id
  refine ⟨e',leaves,hrun,hF.encoded,hF.clauses,?_,fun x hx => (hF.leaves x hx).1,fun ρ => ?_⟩
  · simp only [clearTouched,foldl_erase,htv,Finset.sdiff_self]
  · exact ⟨fun h x hx => (hF.leaves x hx).2 ρ h, fun h => hF.eval_seen hm ρ h root hr.1 hroot⟩

theorem Good.emitUnit (h : Good m A e) {l : ℤ} (hl : l.natAbs ∈ e.encoded)
    (hA : ∀ ρ, A ρ → m.evalLit ρ l = true) :
    Good m A (e.emit [[l]]) where
  range := h.range
  sound ρ hρ v hv := by
    refine satisfies_append.mpr ⟨h.sound ρ hρ v hv,?_⟩
    have hval := litValue_eq_evalLit (hv _ hl)
    simp [Satisfies,hval,hA ρ hρ]
  complete v hv := h.complete v (satisfies_append.mp hv).1

theorem assertLeaves_spec (hm : m.Wf) (leaves : List ℤ) (hv : ∀ x ∈ leaves, m.Valid x)
    (hA : ∀ ρ, A ρ → ∀ x ∈ leaves, m.evalLit ρ x = true) (e : Cnf) (he : Good m A e) :
    ∃ e', assertLeaves m e leaves = some e' ∧ Encodes m A m.nodes.size e e' ∧
      ∀ v, Satisfies v e'.clauses → ∀ x ∈ leaves, m.evalLit v x = true := by
  induction leaves generalizing e with
  | nil => exact ⟨e,rfl,.refl he,by simp⟩
  | cons leaf leaves ih =>
    have hleaf := hv leaf (by simp)
    obtain ⟨e₁,hrun₁,hE₁,hmem₁⟩ := encodeSubtree_spec hm he hleaf
    have hg := hE₁.good.emitUnit hmem₁ fun ρ hρ => hA ρ hρ leaf (by simp)
    obtain ⟨e₂,hrun₂,hE₂,hall⟩ := ih (fun x hx => hv x (by simp [hx]))
      (fun ρ hρ x hx => hA ρ hρ x (by simp [hx])) _ hg
    have hE : Encodes m A m.nodes.size e₁ e₂ :=
      { hE₂ with clauses := (List.prefix_append _ _).trans hE₂.clauses }
    refine ⟨e₂,?_,(hE₁.mono hleaf.2).trans hE,fun v hs x hx => ?_⟩
    · simp [assertLeaves,hrun₁,hrun₂]
    · rcases mem_cons.mp hx with rfl | hx
      · -- the unit clause is among those kept, and the leaf's variable has its node's value
        have hkeep : Satisfies v (e₁.clauses ++ [[x]]) := fun c hc => hs c (hE₂.clauses.subset hc)
        have hunit : litValue v x = true := by
          simpa [Satisfies] using (satisfies_append.mp hkeep).2
        rw [← litValue_eq_evalLit (hE₂.good.complete v hs _ (hE₂.subset hmem₁))]
        exact hunit
      · exact hall v hs x hx

/-- A run of the encoder: the graph may grow between calls, and `roots` collects
the roots asserted at top level. -/
inductive Run : Aig → Cnf → List ℤ → Prop
  | new {m : Aig} : m.Wf → Run m Cnf.new []
  | grow {m m' : Aig} {e : Cnf} {roots : List ℤ} :
      Run m e roots → m'.Wf → m.Extends m' → Run m' e roots
  | encode {m : Aig} {e e' : Cnf} {roots : List ℤ} {root : ℤ} {topLevel : Bool} :
      Run m e roots → (root = 0 ∨ m.Valid root) → encode m e root topLevel = some e' →
      Run m e' (if topLevel ∧ root ≠ 0 then root :: roots else roots)

def Asserted (m : Aig) (roots : List ℤ) (ρ : ℕ → Bool) : Prop :=
  ∀ r ∈ roots, m.evalLit ρ r = true

structure Between (m : Aig) (e : Cnf) (roots : List ℤ) : Prop where
  wf : m.Wf
  good : Good m (Asserted m roots) e
  visited : e.visited = ∅
  touched : e.touched = []
  valid : ∀ r ∈ roots, m.Valid r
  asserts : ∀ v, Satisfies v e.clauses → Asserted m roots v

theorem Good.mono {B : (ℕ → Bool) → Prop} (h : Good m A e) (hAB : ∀ ρ, B ρ → A ρ) : Good m B e :=
  { h with sound := fun ρ hB => h.sound ρ (hAB ρ hB) }

theorem Good.extends {m' : Aig} (h : Good m A e) (hE : m.Extends m') : Good m' A e where
  range i hi := ⟨(h.range i hi).1,(h.range i hi).2.trans hE.size_le⟩
  sound ρ hρ v hv := h.sound ρ hρ v fun i hi => by
    rw [hv i hi,Aig.evalNode_extends hE ρ i (h.range i hi).2]
  complete v hv i hi := by
    rw [Aig.evalNode_extends hE v i (h.range i hi).2]
    exact h.complete v hv i hi

theorem Between.grow {m' : Aig} (h : Between m e roots) (hm' : m'.Wf) (hE : m.Extends m') :
    Between m' e roots where
  wf := hm'
  good := (h.good.extends hE).mono fun ρ hρ r hr => by
    rw [← Aig.evalLit_extends hE ρ (h.valid r hr)]
    exact hρ r hr
  visited := h.visited
  touched := h.touched
  valid r hr := (h.valid r hr).extends hE
  asserts v hv r hr := by
    rw [Aig.evalLit_extends hE v (h.valid r hr)]
    exact h.asserts v hv r hr

theorem Between.encode (h : Between m e roots) (hr : root = 0 ∨ m.Valid root) (topLevel : Bool) :
    ∃ e', encode m e root topLevel = some e' ∧
      Between m e' (if topLevel ∧ root ≠ 0 then root :: roots else roots) := by
  rcases eq_or_ne root 0 with rfl | hroot
  · exact ⟨e,by simp [Cnf.encode],by simpa using h⟩
  have hv : m.Valid root := hr.resolve_left hroot
  cases topLevel with
  | false =>
    obtain ⟨e',hrun,hE,_⟩ := encodeSubtree_spec h.wf h.good hv
    refine ⟨e',by simp [Cnf.encode,hroot,hrun],?_⟩
    simp only [false_eq_true,false_and,if_false]
    exact ⟨h.wf,hE.good,hE.visited.trans h.visited,hE.touched.trans h.touched,h.valid,
      fun v hs => h.asserts v fun c hc => hs c (hE.clauses.subset hc)⟩
  | true =>
    obtain ⟨e₁,leaves,hrun₁,henc,hcl,hvis,hlv,hiff⟩ := flatten_spec h.wf hv h.visited h.touched
    have hg : Good m (Asserted m (root :: roots)) e₁.clearTouched := by
      have hg₀ := h.good.mono (B := Asserted m (root :: roots))
        fun ρ hρ r hr => hρ r (by simp [hr])
      refine ⟨?_,?_,?_⟩
      · simpa [clearTouched,henc] using hg₀.range
      · simpa [clearTouched,henc,hcl] using hg₀.sound
      · simpa [clearTouched,henc,hcl] using hg₀.complete
    obtain ⟨e₂,hrun₂,hE,hall⟩ := assertLeaves_spec h.wf leaves hlv
      (fun ρ hρ => (hiff ρ).mp (hρ root (by simp))) _ hg
    refine ⟨e₂,by simp [Cnf.encode,hroot,hrun₁,hrun₂],?_⟩
    simp only [hroot,ne_eq,not_false_eq_true,and_self,if_true]
    refine ⟨h.wf,hE.good,hE.visited.trans hvis,hE.touched,?_,fun v hs r hr => ?_⟩
    · simpa using ⟨hv,h.valid⟩
    · rcases mem_cons.mp hr with rfl | hr
      · exact (hiff v).mpr (hall v hs)
      · refine h.asserts v (fun c hc => hs c (hE.clauses.subset ?_)) r hr
        simpa [clearTouched,hcl] using hc

theorem Run.between (h : Run m e roots) :
    Between m e roots := by
  induction h with
  | new hm => exact ⟨hm,⟨by simp [Cnf.new],by simp [Cnf.new,Satisfies],by simp [Cnf.new]⟩,rfl,rfl,
      by simp,by simp [Asserted]⟩
  | grow _ hm' hE ih => exact ih.grow hm' hE
  | encode _ hr hrun ih =>
    obtain ⟨e₁,hrun₁,hB⟩ := ih.encode hr _
    rw [hrun] at hrun₁
    cases hrun₁
    exact hB

inductive Cone (m : Aig) : ℕ → ℕ → Prop
  | self (i : ℕ) : Cone m i i
  | left {i j : ℕ} : m.isAndId i = true → Cone m (m.childrenOf i).1.natAbs j → Cone m i j
  | right {i j : ℕ} : m.isAndId i = true → Cone m (m.childrenOf i).2.natAbs j → Cone m i j

theorem evalNode_congr_cone (hm : m.Wf) {ρ : ℕ → Bool} (i : ℕ) (hi : i ≤ m.nodes.size)
    (h : ∀ j, Cone m i j → m.isInput j = true → ρ j = v j) :
    m.evalNode ρ i = m.evalNode v i := by
  induction i using Nat.strong_induction_on with
  | _ i ih =>
    by_cases hone : i ≤ 1
    · rw [Aig.evalNode.eq_1 m ρ,Aig.evalNode.eq_1 m v,if_pos hone,if_pos hone]
    have hval : m.Valid (i : ℤ) := ⟨by omega,by simpa using hi⟩
    by_cases hand : m.isAndId (i : ℤ) = true
    · obtain ⟨v1,v2,h1,h2⟩ := hm.and_children hand
      have e1 := ih _ (by simpa using h1) v1.2 fun j hj => h j (.left hand hj)
      have e2 := ih _ (by simpa using h2) v2.2 fun j hj => h j (.right hand hj)
      have eρ := evalNode_and hm hand ρ
      have ev := evalNode_and hm hand v
      simp only [Int.natAbs_natCast] at eρ ev
      rw [eρ,ev,Aig.evalLit,Aig.evalLit,Aig.evalLit,Aig.evalLit,e1,e2]
    · have hin := isInput_of_not_and hval (by simp only [aigTrue,aigFalse]; omega) hand
      have eρ := evalNode_input hin ρ
      have ev := evalNode_input hin v
      simp only [Int.natAbs_natCast] at eρ ev
      rw [eρ,ev,h i (.self i) hin]

/-- At every point of a run the next call returns, and the clauses emitted so far
are the graph's: a valuation of the inputs that makes the asserted roots true
extends by the values of the encoded nodes to a model, every model has the value
of each encoded gate computed from the inputs of its cone and makes the roots
true, and so the clauses are satisfiable exactly when the roots are. -/
theorem run_clauses_exact {m : Aig} {e : Cnf} {roots : List ℤ} (h : Run m e roots) :
    (∀ root topLevel, m.Valid root → (encode m e root topLevel).isSome) ∧
    (∀ ρ, (∀ r ∈ roots, m.evalLit ρ r = true) →
      ∀ v, (∀ i ∈ e.encoded, v i = m.evalNode ρ i) → Satisfies v e.clauses) ∧
    (∀ v, Satisfies v e.clauses → (∀ i ∈ e.encoded, m.isAndId i = true →
        ∀ ρ, (∀ j, Cone m i j → m.isInput j = true → ρ j = v j) → v i = m.evalNode ρ i) ∧
      (∀ r ∈ roots, ∀ ρ, (∀ j, Cone m r.natAbs j → m.isInput j = true → ρ j = v j) →
          m.evalLit ρ r = true)) ∧
    ((∃ v, Satisfies v e.clauses) ↔ ∃ ρ, ∀ r ∈ roots, m.evalLit ρ r = true) := by
  have hB := h.between
  refine ⟨fun root topLevel hr => ?_,fun ρ hρ v hv => hB.good.sound ρ hρ v hv,
    fun v hv => ⟨fun i hi _ ρ hρ => ?_,fun r hr ρ hρ => ?_⟩,fun ⟨v,hv⟩ => ⟨v,hB.asserts v hv⟩,
    fun ⟨ρ,hρ⟩ => ⟨m.evalNode ρ,hB.good.sound ρ hρ _ fun _ _ => rfl⟩⟩
  · obtain ⟨e',hrun,_⟩ := hB.encode (Or.inr hr) topLevel
    rw [hrun]
    rfl
  · rw [hB.good.complete v hv i hi,evalNode_congr_cone hB.wf i (hB.good.range i hi).2 hρ]
  · rw [Aig.evalLit,evalNode_congr_cone hB.wf _ (hB.valid r hr).2 hρ]
    exact hB.asserts v hv r hr

/-- Two inputs and their AND, whose negation is asserted. -/
theorem run_clauses_exact_nand :
    let m := ((Aig.Call.mkAnd 2 3).run
      (Aig.Call.mkInput.run (Aig.Call.mkInput.run Aig.new).2).2).2
    let clauses : List (List ℤ) := [[-4,2],[-4,3],[4,-2,-3],[-4]]
    (encode m Cnf.new (-4) true).map Cnf.clauses = some clauses ∧
      ((∃ v, Satisfies v clauses) ↔ ∃ ρ, ∀ r ∈ [(-4 : ℤ)], m.evalLit ρ r = true) := by
  intro m clauses
  have hrun : (encode m Cnf.new (-4) true).map Cnf.clauses = some clauses := by decide +kernel
  have hm : m.Wf := (((Aig.Reachable.new.call .mkInput (by decide)).call .mkInput
    (by decide)).call (.mkAnd 2 3) (by decide)).wf
  obtain ⟨e',he',hc⟩ := Option.map_eq_some_iff.mp hrun
  have h := (run_clauses_exact (.encode (.new hm) (Or.inr (by decide +kernel)) he')).2.2.2
  rw [hc] at h
  exact ⟨hrun,h⟩

end Cnf
end DvSolve
