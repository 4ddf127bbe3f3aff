import DvSolve.Aig

/-! Meaning of an and-inverter graph and correctness of its constructors.
A literal denotes a Boolean function of the inputs; every constructor extends the
arena, keeps the function of each earlier literal and returns a literal for the
connective it is named after. -/
namespace DvSolve
namespace Aig

variable {m m' : Aig} {l : ℤ} {α : Type} {p : Build α} {Q : α → Aig → Prop} {f : (ℕ → Bool) → Bool}

/-- `l` names a node of the arena. -/
def Valid (m : Aig) (l : ℤ) : Prop := l ≠ 0 ∧ l.natAbs ≤ m.nodes.size

instance (m : Aig) (l : ℤ) : Decidable (m.Valid l) := inferInstanceAs (Decidable (_ ∧ _))

/-- Children come before their gate, and chains list nodes of the arena. -/
structure Wf (m : Aig) : Prop where
  size_pos : 0 < m.nodes.size
  node_one : (m.node 1).left = 0
  children : ∀ i, i ≤ m.nodes.size → (m.node i).left ≠ 0 →
    (m.node i).right ≠ 0 ∧ (m.node i).left.natAbs < i ∧ (m.node i).right.natAbs < i
  chains : ∀ c ∈ m.buckets, ∀ idx ∈ c, 0 < idx ∧ idx ≤ m.nodes.size

def evalNode (m : Aig) (ρ : ℕ → Bool) (i : ℕ) : Bool :=
  if i ≤ 1 then true
  else if (m.node i).left = 0 then ρ i
  else if _h : (m.node i).left.natAbs < i ∧ (m.node i).right.natAbs < i then
    (evalNode m ρ (m.node i).left.natAbs ^^ decide ((m.node i).left < 0)) &&
      (evalNode m ρ (m.node i).right.natAbs ^^ decide ((m.node i).right < 0))
  else false
termination_by i

def evalLit (m : Aig) (ρ : ℕ → Bool) (l : ℤ) : Bool :=
  m.evalNode ρ l.natAbs ^^ decide (l < 0)

/-- `m'` has the nodes of `m`, with the same children. -/
structure Extends (m m' : Aig) : Prop where
  size_le : m.nodes.size ≤ m'.nodes.size
  node_left : ∀ i, i ≤ m.nodes.size → (m'.node i).left = (m.node i).left
  node_right : ∀ i, i ≤ m.nodes.size → (m'.node i).right = (m.node i).right

theorem Extends.refl (m : Aig) : m.Extends m := ⟨le_refl _,fun _ _ => rfl,fun _ _ => rfl⟩

theorem Extends.trans {m'' : Aig} (h : m.Extends m') (h' : m'.Extends m'') :
    m.Extends m'' where
  size_le := h.size_le.trans h'.size_le
  node_left i hi := (h'.node_left i (hi.trans h.size_le)).trans (h.node_left i hi)
  node_right i hi := (h'.node_right i (hi.trans h.size_le)).trans (h.node_right i hi)

theorem Valid.extends (h : m.Valid l) (he : m.Extends m') :
    m'.Valid l := ⟨h.1,h.2.trans he.size_le⟩

theorem Valid.neg (h : m.Valid l) : m.Valid (-l) :=
  ⟨by simpa using h.1,by simpa using h.2⟩

theorem Wf.valid_true (hm : m.Wf) : m.Valid aigTrue :=
  ⟨by decide,by simpa [aigTrue] using Nat.succ_le_of_lt hm.size_pos⟩

theorem Wf.valid_false (hm : m.Wf) : m.Valid aigFalse := hm.valid_true.neg

theorem evalNode_extends (he : m.Extends m') (ρ : ℕ → Bool) (i : ℕ) (hi : i ≤ m.nodes.size) :
    m'.evalNode ρ i = m.evalNode ρ i := by
  induction i using Nat.strong_induction_on with
  | _ i ih =>
    rw [evalNode.eq_1 m',evalNode.eq_1 m,he.node_left i hi,he.node_right i hi]
    split_ifs with h1 h2 h3
    · rfl
    · rfl
    · rw [ih _ h3.1 (by omega),ih _ h3.2 (by omega)]
    · rfl

theorem evalLit_extends (he : m.Extends m') (ρ : ℕ → Bool) (hl : m.Valid l) :
    m'.evalLit ρ l = m.evalLit ρ l := by
  rw [evalLit,evalLit,evalNode_extends he ρ _ hl.2]

@[simp] theorem evalLit_true (m : Aig) (ρ : ℕ → Bool) : m.evalLit ρ aigTrue = true := by
  simp [evalLit,evalNode,aigTrue]

@[simp] theorem evalLit_false (m : Aig) (ρ : ℕ → Bool) : m.evalLit ρ aigFalse = false := by
  simp [evalLit,evalNode,aigFalse]

theorem evalLit_neg (m : Aig) (ρ : ℕ → Bool) (hl : l ≠ 0) :
    m.evalLit ρ (-l) = !m.evalLit ρ l := by
  have hs : decide (-l < 0) = !decide (l < 0) := by
    rcases lt_or_gt_of_ne hl with h | h
    · simp [h,h.le]
    · simp [h,h.le]
  rw [evalLit,evalLit,hs,Int.natAbs_neg,Bool.xor_not]

theorem isAndId_iff :
    m.isAndId l = true ↔ 1 < l.natAbs ∧ l.natAbs ≤ m.nodes.size ∧ (m.childrenOf l).1 ≠ 0 := by
  have hc : (m.childrenOf l).1 = (m.node l.natAbs).left := rfl
  rw [hc]
  unfold isAndId aigTrue aigFalse
  split_ifs with h1 h2
  · simp only [false_iff,not_and]
    omega
  · simp only [false_iff,not_and]
    omega
  · simp only [ne_eq,decide_eq_true_eq]
    constructor
    · intro h
      exact ⟨by omega,by omega,h⟩
    · exact fun h => h.2.2

theorem Wf.and_children (hm : m.Wf) (hl : m.isAndId l = true) :
    m.Valid (m.childrenOf l).1 ∧ m.Valid (m.childrenOf l).2 ∧
      (m.childrenOf l).1.natAbs < l.natAbs ∧ (m.childrenOf l).2.natAbs < l.natAbs := by
  obtain ⟨_,hle,hne⟩ := isAndId_iff.mp hl
  obtain ⟨hr,hlt,hrt⟩ := hm.children l.natAbs hle hne
  have h1 : (m.childrenOf l).1.natAbs < l.natAbs := hlt
  have h2 : (m.childrenOf l).2.natAbs < l.natAbs := hrt
  exact ⟨⟨hne,by omega⟩,⟨hr,by omega⟩,h1,h2⟩

theorem Wf.evalLit_and (hm : m.Wf) (ρ : ℕ → Bool) (hl : m.isAndId l = true) :
    m.evalLit ρ l = ((m.evalLit ρ (m.childrenOf l).1 && m.evalLit ρ (m.childrenOf l).2)
      ^^ decide (l < 0)) := by
  obtain ⟨_,_,hlt⟩ := hm.and_children hl
  obtain ⟨h1,_,hne⟩ := isAndId_iff.mp hl
  simp only [childrenOf] at hlt hne
  rw [evalLit,evalNode,if_neg (by omega),if_neg hne,dif_pos hlt]
  rfl

/-- `p`, run from `m`, keeps the arena well-formed and its nodes, and ends in `Q`. -/
def Spec {α : Type} (p : Build α) (m : Aig) (Q : α → Aig → Prop) : Prop :=
  (p m).2.Wf ∧ m.Extends (p m).2 ∧ Q (p m).1 (p m).2

theorem Spec.of_run {x : α} (hrun : p m = (x,m')) (hw : m'.Wf) (he : m.Extends m') (hQ : Q x m') :
    Spec p m Q := by
  unfold Spec
  rw [hrun]
  exact ⟨hw,he,hQ⟩

theorem Spec.pure (hm : m.Wf) {x : α} (h : Q x m) :
    Spec (Pure.pure x) m Q := ⟨hm,.refl m,h⟩

theorem Spec.bind {β : Type} {k : α → Build β} {P : α → Aig → Prop} {Q : β → Aig → Prop}
    (hp : Spec p m P) (hk : ∀ x m', m'.Wf → m.Extends m' → P x m' → Spec (k x) m' Q) :
    Spec (p >>= k) m Q := by
  obtain ⟨hw,he,hP⟩ := hp
  obtain ⟨hw',he',hQ⟩ := hk _ _ hw he hP
  exact ⟨hw',he.trans he',hQ⟩

theorem Spec.mono {P : α → Aig → Prop} (hp : Spec p m P)
    (h : ∀ x m', m'.Wf → m.Extends m' → P x m' → Q x m') : Spec p m Q :=
  ⟨hp.1,hp.2.1,h _ _ hp.1 hp.2.1 hp.2.2⟩

/-- `l` is a literal of `m` for the function `f` of the inputs. -/
def Denotes (m : Aig) (l : ℤ) (f : (ℕ → Bool) → Bool) : Prop :=
  m.Valid l ∧ ∀ ρ, m.evalLit ρ l = f ρ

theorem Denotes.extends (h : m.Denotes l f) (he : m.Extends m') : m'.Denotes l f :=
  ⟨h.1.extends he,fun ρ => (evalLit_extends he ρ h.1).trans (h.2 ρ)⟩

theorem Denotes.neg (h : m.Denotes l f) :
    m.Denotes (-l) (fun ρ => !f ρ) :=
  ⟨h.1.neg,fun ρ => by rw [evalLit_neg _ _ h.1.1,h.2 ρ]⟩

theorem Denotes.congr {g : (ℕ → Bool) → Bool} (h : m.Denotes l f) (hfg : ∀ ρ, f ρ = g ρ) :
    m.Denotes l g :=
  ⟨h.1,fun ρ => (h.2 ρ).trans (hfg ρ)⟩

end Aig
end DvSolve
