import DvSolve.FieldsBuild

/-! Splitting one word.
The problem after it has the same solutions over the variables before, each with one
value for every new variable, and every node means what it did. -/
namespace DvSolve
namespace Fields

open Sv TwosComp
open List (map_append mem_append mem_append_left mem_append_right mem_map mem_map_of_mem mem_reverse)

variable {rules : Rules} {S : FdState} {v W : ℕ} {q q' : Problem} {n n' : ℕ}

theorem fdLookup_spec {segs words : List Span} {lo hi id : ℕ}
    (h : fdLookup segs words lo hi = some id) :
    ∃ s ∈ segs ++ words, s.lo = lo ∧ s.hi = hi ∧ s.id = id := by
  obtain ⟨s,hs,rfl⟩ := Option.map_eq_some_iff.mp h
  have hse : s.lo = lo ∧ s.hi = hi := by simpa using List.find?_some hs
  exact ⟨s,List.mem_of_find?_eq_some hs,hse.1,hse.2,rfl⟩

theorem fdReplace_spec {segs words : List Span} {us : List FdUse} {nodes nodes' : List Node}
    (h : fdReplace segs words us nodes = some nodes') :
    nodes'.length = nodes.length ∧ ∀ r, nodes'[r]? = nodes[r]? ∨
      ∃ u ∈ us, u.node = r ∧ ∃ s ∈ segs ++ words, s.lo = u.lo ∧ s.hi = u.hi ∧
        nodes'[r]? = some (.var s.id) := by
  induction us generalizing nodes with
  | nil =>
    cases h
    exact ⟨rfl,fun r => .inl rfl⟩
  | cons u us ih =>
    simp only [fdReplace,Option.bind_eq_some_iff] at h
    obtain ⟨id,hid,h⟩ := h
    obtain ⟨s,hs,hlo,hhi,rfl⟩ := fdLookup_spec hid
    obtain ⟨hlen,hall⟩ := ih h
    refine ⟨by rw [hlen,List.length_set],fun r => ?_⟩
    rcases hall r with hr | ⟨t,ht,hrest⟩
    · rw [List.getElem?_set] at hr
      split_ifs at hr with heq hlt
      · exact .inr ⟨u,by simp,heq,s,hs,hlo,hhi,hr⟩
      · left
        rw [hr,List.getElem?_eq_none_iff.mpr (by omega)]
      · exact .inl hr
    · exact .inr ⟨t,List.mem_cons_of_mem _ ht,hrest⟩

@[simp] theorem VarSpec.toAux_varId (v : ℕ) (s : VarSpec) : (s.toAux v).varId = s.varId := by
  unfold toAux
  split_ifs <;> rfl

theorem VarSpec.toAux_admits (v : ℕ) (s : VarSpec) (x : ℤ) :
    (s.toAux v).Admits x ↔ s.Admits x := by
  unfold toAux
  split_ifs <;> rfl

theorem VarSpec.toAux_of_ne {v : ℕ} {s : VarSpec} (h : s.varId ≠ v) : s.toAux v = s := if_neg h

/-- What splitting the word `v` of width `W` makes of `q`: hidden words for `spans`, fields,
and constraints at `cs`. -/
structure SplitWord (rules : Rules) (S : FdState) (v W : ℕ) (q q' : Problem) (n n' : ℕ)
    (spans fields : List Span) (cs : List Ref) (xv : Ref) : Prop where
  vars : q'.vars = spans.map (Span.spec .aux) ++
    (fields.map (Span.spec .rand) ++ q.vars.map (VarSpec.toAux v))
  constraints : q'.constraints = cs ++ q.constraints
  roots : ∀ c ∈ cs, c < q'.nodes.length
  next : n' = n+(spans ++ fields).length
  ids : (spans ++ fields).map Span.id = (List.range' n (spans ++ fields).length).reverse
  narrow : ∀ s ∈ spans ++ fields, s.lo ≤ s.hi ∧ s.hi+1-s.lo ≤ 63
  length : q.nodes.length ≤ q'.nodes.length
  varIds : ∀ a ∈ q'.nodes, a ∈ q.nodes ∨ ∀ w ∈ a.varIds, w < n'
  nodes : ∀ r < q.nodes.length, q'.nodes[r]? = q.nodes[r]? ∨ ∃ u ∈ S.uses v, u.node = r ∧
    ∃ s, (s ∈ spans ++ fields ∨ s = ⟨v,0,W-1,xv⟩) ∧ s.lo = u.lo ∧ s.hi = u.hi ∧
      q'.nodes[r]? = some (.var s.id)
  sound : ∀ Γ ρ X, X < 2^W → (∀ s ∈ spans ++ fields, s.Fits Γ ρ) →
    Span.Fits Γ ρ ⟨v,0,W-1,xv⟩ → Span.Right X ρ ⟨v,0,W-1,xv⟩ →
    ((∀ c ∈ cs, (means rules Γ ρ q'.nodes c).Truth) ↔ ∀ s ∈ spans ++ fields, s.Right X ρ)

theorem fdSplitWord_spec (rules : Rules) (hW : W ≤ 64) (hcuts : ∀ b, S.cuts v b = true → b < W)
    (hcut : ∃ c, S.cuts v c = true) (hv : v < n)
    (huses : ∀ u ∈ S.uses v, Bounds (S.cuts v) W u.lo u.hi ∧ u.node < q.nodes.length)
    (h : fdSplitWord S v W q n = some (q',n')) :
    ∃ spans fields cs xv, SplitWord rules S v W q q' n n' spans fields cs xv := by
  obtain ⟨c,hc⟩ := hcut
  have hcW := hcuts c hc
  have hc0 : c ≠ 0 := by
    rintro rfl
    simp [FdState.cuts] at hc
  obtain ⟨hgrow₁,hall,hstarts,hunique⟩ := fdFields_spec hW ⟨c,by omega,hcW,hc⟩
    (show W ≤ 0+W by omega) (Nat.zero_le W) (.inl rfl) ⟨q,n,[]⟩
  unfold fdSplitWord at h
  generalize fdFields (S.cuts v) W W 0 ⟨q,n,[]⟩ = F at h hgrow₁ hall hstarts hunique
  obtain ⟨segs,B₁⟩ := F
  simp only at hgrow₁ hall hstarts hunique h
  have hsegs : Segments (S.cuts v) W segs := by
    refine ⟨fun s hs => (hall s hs).2.1,fun s hs => (hall s hs).2.2,fun b hb hcb => ?_,hunique⟩
    exact hstarts b hb (Nat.zero_le b) hcb
  have hno : ¬ ∃ s ∈ segs, s.lo = 0 ∧ s.hi = W-1 := by
    rintro ⟨s,hs,hlo,hhi⟩
    have := (hall s hs).2.2 c (by omega) (by omega)
    simp [hc] at this
  simp only [Option.bind_eq_some_iff,Prod.exists,Option.map_eq_some_iff,Prod.mk.injEq] at h
  obtain ⟨r,B₃,hbuild,nodes,hreplace,rfl,rfl⟩ := h
  have hnext₁ : B₁.nextId = n+segs.reverse.length := hgrow₁.next
  have hgrow₂ := Grows.addNode B₁ .aux (.var v) (by
    simp only [Node.varIds,List.mem_singleton,forall_eq]
    omega)
  obtain ⟨words,spans,cs,hwords,hgrow₃,hsound⟩ := fdBuild_word rules
    q.nodes.length hsegs (fun u hu => (huses u hu).1) hW (by omega) hno
    (hgrow₁.le_length.trans hgrow₂.le_length)
    (fun s hs => hgrow₂.known_mono (hgrow₁.known s (mem_reverse.mpr hs)))
    ⟨hgrow₁.le_length,by simp [Problem.mkNode]⟩ hbuild
  obtain ⟨hlen,hnodes⟩ := fdReplace_spec hreplace
  have hids : (spans ++ segs.reverse).map Span.id =
      (List.range' n (spans ++ segs.reverse).length).reverse := by
    rw [map_append,hgrow₁.ids,hgrow₃.ids,← List.reverse_append,List.length_append,
      Nat.add_comm spans.length]
    simp only [hnext₁,List.range'_append_1]
  have hnew : ∀ s ∈ spans ++ segs.reverse, n ≤ s.id := by
    intro s hs
    have := mem_map_of_mem (f:=Span.id) hs
    rw [hids,mem_reverse,List.mem_range'_1] at this
    exact this.1
  have hkinds : ∀ kind (ss : List Span), (∀ s ∈ ss, n ≤ s.id) →
      (ss.map (Span.spec kind)).map (VarSpec.toAux v) = ss.map (Span.spec kind) := by
    intro kind ss hss
    rw [List.map_map]
    apply List.map_congr_left
    intro s hs
    apply VarSpec.toAux_of_ne
    have := hss s hs
    simp only [Span.spec]
    omega
  have hwordsMem : ∀ w ∈ segs ++ B₃.words, w ∈ spans ++ segs.reverse ∨
      w = ⟨v,0,W-1,B₁.p.nodes.length⟩ := by
    intro w hw
    rcases mem_append.mp hw with hw | hw
    · exact .inl (mem_append_right _ (mem_reverse.mpr hw))
    · rcases hgrow₃.words w hw with hw | hw
      · rcases hwords w hw with hw | hw
        · rcases hgrow₁.words w hw with hw | hw
          · simp at hw
          · exact .inl (mem_append_right _ hw)
        · exact .inr hw
      · exact .inl (mem_append_left _ hw)
  have hnext₃ : B₃.nextId = n+(spans ++ segs.reverse).length := by
    have : B₃.nextId = B₁.nextId+spans.length := hgrow₃.next
    rw [this,hnext₁,List.length_append]
    omega
  refine ⟨spans,segs.reverse,cs,B₁.p.nodes.length,?_,?_,?_,hnext₃,hids,?_,?_,?_,?_,?_⟩
  · dsimp only
    rw [hgrow₃.vars,map_append,hkinds _ _ fun s hs => hnew s (mem_append_left _ hs)]
    have : B₁.p.vars = segs.reverse.map (Span.spec .rand) ++ q.vars := hgrow₁.vars
    simp only [Problem.mkNode]
    rw [this,map_append,hkinds _ _ fun s hs => hnew s (mem_append_right _ hs)]
  · have : B₁.p.constraints = q.constraints := hgrow₁.constraints
    rw [hgrow₃.constraints]
    simp only [Problem.mkNode]
    rw [this]
  · intro c hc
    rw [hlen]
    exact hgrow₃.roots c hc
  · intro s hs
    rcases mem_append.mp hs with hs | hs
    · exact hgrow₃.narrow s hs
    · exact hgrow₁.narrow s hs
  · rw [hlen]
    exact hgrow₁.le_length.trans (hgrow₂.le_length.trans hgrow₃.le_length)
  · intro a ha
    obtain ⟨r,hr⟩ := List.mem_iff_getElem?.mp ha
    rcases hnodes r with heq | ⟨_,_,_,s,hs,_,_,heq⟩
    · rw [hr] at heq
      have hm := List.mem_of_getElem? heq.symm
      obtain ⟨more₁,hmore₁,hid₁⟩ := hgrow₁.nodes
      obtain ⟨more₂,hmore₂,hid₂⟩ := hgrow₂.nodes
      obtain ⟨more₃,hmore₃,hid₃⟩ := hgrow₃.nodes
      simp only at hmore₁ hmore₂ hmore₃ hid₂
      rw [hmore₃,hmore₂,hmore₁] at hm
      simp only [mem_append,or_assoc] at hm
      rcases hm with hm | hm | hm | hm
      · exact .inl hm
      · refine .inr fun w hw => ?_
        have := hid₁ a hm w hw
        rw [List.length_append] at hnext₃
        omega
      · refine .inr fun w hw => ?_
        have := hid₂ a hm w hw
        rw [List.length_append] at hnext₃
        omega
      · exact .inr (hid₃ a hm)
    · rw [hr,Option.some.injEq] at heq
      refine .inr fun w hw => ?_
      rw [heq] at hw
      simp only [Node.varIds,List.mem_singleton] at hw
      rcases hwordsMem s hs with hs | rfl
      · have := mem_map_of_mem (f:=Span.id) hs
        rw [hids,mem_reverse,List.mem_range'_1] at this
        omega
      · simp only at hw
        omega
  · intro r hr
    rcases hnodes r with heq | ⟨u,hu,hur,s,hs,hlo,hhi,heq⟩
    · left
      rw [heq]
      exact hgrow₃.getElem? (hgrow₂.getElem? (hgrow₁.getElem? (List.getElem?_eq_getElem hr))) |>.trans
        (List.getElem?_eq_getElem hr).symm
    · exact .inr ⟨u,hu,hur,s,hwordsMem s hs,hlo,hhi,heq⟩
  · intro Γ ρ X hX hfits hσf hright
    have hk : Keeps q.nodes.length B₃.p.nodes nodes := by
      intro r a hr ha
      rcases hnodes r with heq | ⟨u,hu,hur,_⟩
      · rw [heq,ha]
      · exact absurd (hur ▸ (huses u hu).2) (not_lt.mpr hr)
    have h := hsound nodes Γ ρ X hk hX
      (fun s hs => hfits s (mem_append_right _ (mem_reverse.mpr hs)))
      (fun s hs => hfits s (mem_append_left _ hs)) (by simp) hσf hright
    rw [h]
    constructor
    · rintro ⟨-,hspans,hfields⟩ s hs
      rcases mem_append.mp hs with hs | hs
      · exact hspans s hs
      · have hs := mem_reverse.mp hs
        have := (hsegs.bounds s hs).lt
        exact hfields s hs (Nat.zero_le _) (by omega)
    · intro hall
      exact ⟨by simp,fun s hs => hall s (mem_append_left _ hs),
        fun s hs _ _ => hall s (mem_append_right _ (mem_reverse.mpr hs))⟩

/-- `q'` says of the variables below `n` what `q` says, fixes those it adds, and means
the same by every node. -/
structure Conservative (rules : Rules) (q q' : Problem) (n n' : ℕ) : Prop where
  le : n ≤ n'
  length : q.nodes.length ≤ q'.nodes.length
  same : ∀ ρ, q'.Solution rules ρ → ∀ r < q.nodes.length, q'.denote rules ρ r = q.denote rules ρ r
  sound : ∀ ρ, q'.Solution rules ρ → q.Solution rules ρ
  complete : ∀ ρ, q.Solution rules ρ → ∃ ρ', (∀ w < n, ρ' w = ρ w) ∧ q'.Solution rules ρ'
  unique : ∀ ρ ρ', q'.Solution rules ρ → q'.Solution rules ρ' → (∀ w < n, ρ w = ρ' w) →
    ∀ w < n', ρ w = ρ' w

theorem Conservative.refl (rules : Rules) (q : Problem) (n : ℕ) : Conservative rules q q n n :=
  ⟨le_rfl,le_rfl,fun _ _ _ _ => rfl,fun _ h => h,fun ρ h => ⟨ρ,fun _ _ => rfl,h⟩,fun _ _ _ _ h => h⟩

theorem Conservative.trans {q₁ q₂ q₃ : Problem} {n₁ n₂ n₃ : ℕ}
    (h : Conservative rules q₁ q₂ n₁ n₂) (h' : Conservative rules q₂ q₃ n₂ n₃) :
    Conservative rules q₁ q₃ n₁ n₃ where
  le := h.le.trans h'.le
  length := h.length.trans h'.length
  same := fun ρ hρ r hr =>
    (h'.same ρ hρ r (lt_of_lt_of_le hr h.length)).trans (h.same ρ (h'.sound ρ hρ) r hr)
  sound := fun ρ hρ => h.sound ρ (h'.sound ρ hρ)
  complete := by
    intro ρ hρ
    obtain ⟨ρ₂,hagree₂,hρ₂⟩ := h.complete ρ hρ
    obtain ⟨ρ₃,hagree₃,hρ₃⟩ := h'.complete ρ₂ hρ₂
    exact ⟨ρ₃,fun w hw => (hagree₃ w (lt_of_lt_of_le hw h.le)).trans (hagree₂ w hw),hρ₃⟩
  unique := fun ρ ρ' hρ hρ' hagree =>
    h'.unique ρ ρ' hρ hρ' (h.unique ρ ρ' (h'.sound ρ hρ) (h'.sound ρ' hρ') hagree)

theorem Span.spec_admits_iff {kind : VarKind} {s : Span}
    (hnarrow : s.hi+1-s.lo ≤ 63) {x : ℤ} :
    (s.spec kind).Admits x ↔ ∃ y : ℕ, x = y ∧ y < 2^(s.hi+1-s.lo) := by
  have hwrap : wrap ((2 : ℤ)^(s.hi+1-s.lo)-1) 64 true = 2^(s.hi+1-s.lo)-1 := by
    apply wrap_of_inTy
    have hpow : (2 : ℤ)^(s.hi+1-s.lo) ≤ 2^63 := pow_le_pow_right₀ (by decide) hnarrow
    have hpos := two_pow_pos (s.hi+1-s.lo)
    simp only [InTy,if_true]
    omega
  have hlt : s.hi+1-s.lo < 64 := by omega
  simp only [VarSpec.Admits,spec,InTy,Bool.false_eq_true,if_false,hwrap,hlt,or_true,if_true]
  constructor
  · rintro ⟨⟨h₁,h₂⟩,-⟩
    obtain ⟨y,rfl⟩ := Int.eq_ofNat_of_zero_le h₁
    exact ⟨y,rfl,by exact_mod_cast h₂⟩
  · rintro ⟨y,rfl,hy⟩
    have hy' : (y : ℤ) < 2^(s.hi+1-s.lo) := by exact_mod_cast hy
    exact ⟨⟨by positivity,hy'⟩,fun _ => ⟨by positivity,by omega⟩⟩

structure Word (S : FdState) (q : Problem) (v W : ℕ) : Prop where
  pos : 0 < W
  le : W ≤ 64
  spec : ∃ s ∈ q.vars, s.varId = v ∧ s.width = W ∧ s.isSigned = false
  uses : ∀ u ∈ S.uses v, u.lo ≤ u.hi ∧ u.hi < W ∧
    ∃ x, q.nodes[u.node]? = some (.extract x u.hi u.lo) ∧ q.nodes[x]? = some (.var v) ∧ x < u.node

namespace SplitWord

variable {spans fields : List Span} {cs : List Ref} {xv : Ref}

theorem id_ge (h : SplitWord rules S v W q q' n n' spans fields cs xv) {s : Span}
    (hs : s ∈ spans ++ fields) : n ≤ s.id ∧ s.id < n' := by
  have hm := mem_map_of_mem (f:=Span.id) hs
  rw [h.ids,mem_reverse,List.mem_range'_1] at hm
  rw [h.next]
  exact hm

theorem exists_id (h : SplitWord rules S v W q q' n n' spans fields cs xv) {w : ℕ}
    (hn : n ≤ w) (hw : w < n') : ∃ s ∈ spans ++ fields, s.id = w := by
  apply mem_map.mp
  rw [h.ids,mem_reverse,List.mem_range'_1]
  rw [h.next] at hw
  exact ⟨hn,hw⟩

theorem id_inj (h : SplitWord rules S v W q q' n n' spans fields cs xv) {s t : Span}
    (hs : s ∈ spans ++ fields) (ht : t ∈ spans ++ fields) (heq : s.id = t.id) : s = t := by
  have hnodup : ((spans ++ fields).map Span.id).Nodup := by
    rw [h.ids,List.nodup_reverse]
    exact List.nodup_range'
  exact List.inj_on_of_nodup_map hnodup hs ht heq

theorem mem_vars (h : SplitWord rules S v W q q' n n' spans fields cs xv) {s : Span}
    (hs : s ∈ spans ++ fields) : ∃ kind, s.spec kind ∈ q'.vars := by
  rw [h.vars]
  rcases mem_append.mp hs with hs | hs
  · exact ⟨.aux,mem_append_left _ (mem_map_of_mem hs)⟩
  · exact ⟨.rand,mem_append_right _ (mem_append_left _ (mem_map_of_mem hs))⟩

theorem bounded (h : SplitWord rules S v W q q' n n' spans fields cs xv) (hq : Bounded q n) :
    Bounded q' n' where
  nodes := by
    intro a ha w hw
    rcases h.varIds a ha with ha | ha
    · have := hq.nodes a ha w hw
      have := h.next
      omega
    · exact ha w hw
  vars := by
    intro t ht
    rw [h.vars] at ht
    simp only [mem_append,mem_map] at ht
    rcases ht with ⟨s,hs,rfl⟩ | ⟨s,hs,rfl⟩ | ⟨s,hs,rfl⟩
    · exact (h.id_ge (mem_append_left _ hs)).2
    · exact (h.id_ge (mem_append_right _ hs)).2
    · have := hq.vars s hs
      have := h.next
      simp only [VarSpec.toAux_varId]
      omega
  once := by
    have hspec : ∀ kind (ss : List Span),
        (ss.map (Span.spec kind)).map VarSpec.varId = ss.map Span.id := by
      intro kind ss
      rw [List.map_map]
      rfl
    have hold : (q.vars.map (VarSpec.toAux v)).map VarSpec.varId = q.vars.map VarSpec.varId := by
      rw [List.map_map]
      apply List.map_congr_left
      intro s _
      exact VarSpec.toAux_varId v s
    rw [h.vars,map_append,map_append,hspec,hspec,hold,← List.append_assoc,← map_append,List.nodup_append]
    refine ⟨?_,hq.once,?_⟩
    · rw [h.ids,List.nodup_reverse]
      exact List.nodup_range'
    · intro x hx y hy
      obtain ⟨s,hs,rfl⟩ := mem_map.mp hx
      obtain ⟨t,ht,rfl⟩ := mem_map.mp hy
      have := (h.id_ge hs).1
      have := hq.vars t ht
      omega
  roots := by
    intro c hc
    rw [h.constraints] at hc
    rcases mem_append.mp hc with hc | hc
    · exact h.roots c hc
    · exact lt_of_lt_of_le (hq.roots c hc) h.length

/-- The declarations before, but for the kind of the word. -/
theorem spec?_old (h : SplitWord rules S v W q q' n n' spans fields cs xv) {w : ℕ}
    (hw : w < n) : q'.spec? w = (q.spec? w).map (VarSpec.toAux v) := by
  have hnone : ∀ kind (ss : List Span), (∀ s ∈ ss, n ≤ s.id) →
      ((ss.map (Span.spec kind)).find? fun s => s.varId = w) = none := by
    intro kind ss hss
    apply List.find?_eq_none.mpr
    intro t ht
    obtain ⟨s,hs,rfl⟩ := mem_map.mp ht
    have hne : (s.spec kind).varId ≠ w := by
      have := hss s hs
      simp only [Span.spec]
      omega
    simpa using hne
  rw [Problem.spec?,h.vars,List.find?_append,List.find?_append,
    hnone _ _ fun s hs => (h.id_ge (mem_append_left _ hs)).1,
    hnone _ _ fun s hs => (h.id_ge (mem_append_right _ hs)).1,Option.none_or,Option.none_or,
    List.find?_map]
  congr 2
  funext s
  simp

theorem types_old (h : SplitWord rules S v W q q' n n' spans fields cs xv) {w : ℕ}
    (hw : w < n) : q'.types w = q.types w := by
  rw [Problem.types,Problem.types,h.spec?_old hw]
  cases q.spec? w with
  | none => rfl
  | some s =>
    simp only [Option.map_some,VarSpec.toAux]
    split_ifs <;> rfl

variable {X : ℕ} {ρ : ℕ → ℤ}

theorem word_types (h : SplitWord rules S v W q q' n n' spans fields cs xv) (hq : Bounded q n)
    (hw : Word S q v W) : q'.types v = ⟨W,false⟩ := by
  obtain ⟨s,hs,rfl,rfl,hsign⟩ := hw.spec
  rw [h.types_old (hq.vars s hs),Problem.types_eq hq.once hs,hsign]

theorem new_types (h : SplitWord rules S v W q q' n n' spans fields cs xv) (hq : Bounded q n)
    {s : Span} (hs : s ∈ spans ++ fields) : q'.types s.id = ⟨s.hi+1-s.lo,false⟩ := by
  obtain ⟨kind,hm⟩ := h.mem_vars hs
  exact Problem.types_eq (h.bounded hq).once hm

theorem word_value (h : SplitWord rules S v W q q' n n' spans fields cs xv)
    (hw : Word S q v W) (hadmits : ∀ s ∈ q'.vars, s.Admits (ρ s.varId)) :
    ∃ X : ℕ, ρ v = X ∧ X < 2^W := by
  obtain ⟨s,hs,rfl,rfl,hsign⟩ := hw.spec
  have hm : s.toAux s.varId ∈ q'.vars := by
    rw [h.vars]
    exact mem_append_right _ (mem_append_right _ (mem_map_of_mem hs))
  have hin := ((VarSpec.toAux_admits _ _ _).mp (hadmits _ hm)).1
  rw [VarSpec.toAux_varId,hsign] at hin
  obtain ⟨X,hX⟩ := Int.eq_ofNat_of_zero_le hin.1
  refine ⟨X,hX,?_⟩
  rw [hX] at hin
  exact_mod_cast hin.2

theorem word_fits (h : SplitWord rules S v W q q' n n' spans fields cs xv) (hq : Bounded q n)
    (hw : Word S q v W) (hX : ρ v = X) (hlt : X < 2^W) :
    Span.Fits q'.types ρ ⟨v,0,W-1,xv⟩ ∧ Span.Right X ρ ⟨v,0,W-1,xv⟩ := by
  have hpos := hw.pos
  have hwidth : W-1+1-0 = W := by omega
  refine ⟨⟨Nat.zero_le _,?_,X,hX,?_⟩,?_⟩
  · rw [hwidth]
    exact h.word_types hq hw
  · rwa [hwidth]
  · simp only [Span.Right]
    rw [bits_zero hpos hlt,hX]

theorem new_fits (h : SplitWord rules S v W q q' n n' spans fields cs xv) (hq : Bounded q n)
    (hadmits : ∀ s ∈ q'.vars, s.Admits (ρ s.varId)) {s : Span} (hs : s ∈ spans ++ fields) :
    s.Fits q'.types ρ := by
  obtain ⟨hle,hnarrow⟩ := h.narrow s hs
  obtain ⟨kind,hm⟩ := h.mem_vars hs
  exact ⟨hle,h.new_types hq hs,(Span.spec_admits_iff hnarrow).mp (hadmits _ hm)⟩

theorem ties_iff (h : SplitWord rules S v W q q' n n' spans fields cs xv) (hq : Bounded q n)
    (hw : Word S q v W) (hadmits : ∀ s ∈ q'.vars, s.Admits (ρ s.varId)) (hX : ρ v = X)
    (hlt : X < 2^W) :
    (∀ c ∈ cs, (q'.denote rules ρ c).Truth) ↔ ∀ s ∈ spans ++ fields, s.Right X ρ := by
  obtain ⟨hfits,hright⟩ := h.word_fits hq hw hX hlt
  exact h.sound q'.types ρ X hlt (fun s hs => h.new_fits hq hadmits hs) hfits hright

/-- Every node means what it did: an extract is the variable of its bits. -/
theorem denote_eq (h : SplitWord rules S v W q q' n n' spans fields cs xv) (hq : Bounded q n)
    (hw : Word S q v W) (hadmits : ∀ s ∈ q'.vars, s.Admits (ρ s.varId)) (hX : ρ v = X)
    (hlt : X < 2^W) (hright : ∀ s ∈ spans ++ fields, s.Right X ρ) {r : Ref}
    (hr : r < q.nodes.length) : q'.denote rules ρ r = q.denote rules ρ r := by
  induction r using Nat.strong_induction_on with
  | _ r ih =>
  rcases h.nodes r hr with heq | ⟨u,hu,rfl,s,hs,hlo,hhi,heq⟩
  · apply NodePool.denote_step heq
    · intro a ha m
      apply Problem.sem_congr (hq.nodes a (List.mem_of_getElem? (heq ▸ ha)))
      · exact fun w hw => h.types_old hw
      · exact fun _ _ => rfl
    · exact fun c hc => ih c hc (hc.trans hr)
  · obtain ⟨hule,huW,x,hux,hxv,hlt'⟩ := hw.uses u hu
    have hwv : v < n := by
      obtain ⟨t,ht,hid,-⟩ := hw.spec
      exact hid ▸ hq.vars t ht
    have hsr : s.Fits q'.types ρ ∧ s.Right X ρ := by
      rcases hs with hs | rfl
      · exact ⟨h.new_fits hq hadmits hs,hright s hs⟩
      · exact h.word_fits hq hw hX hlt
    have hnew : q'.denote rules ρ u.node = .unsigned (s.hi+1-s.lo) (bits X s.lo s.hi) := by
      rw [Problem.denote_some heq]
      simp only [Node.sem]
      rw [hsr.1.ty,hsr.2]
    have hword : q.denote rules ρ x = .unsigned W X := by
      rw [Problem.denote_some hxv]
      simp only [Node.sem]
      rw [← h.types_old hwv,h.word_types hq hw,hX]
    have hold : q.denote rules ρ u.node = (q.denote rules ρ x).extract u.hi u.lo := by
      rw [Problem.denote_some hux]
      simp only [Node.sem,if_pos hlt']
    rw [hnew,hold,hword,Meaning.extract_unsigned hlt hule huW,hlo,hhi]

/-- The new variables take their bits of the word. -/
def extend (v : ℕ) (news : List Span) (ρ : ℕ → ℤ) (w : ℕ) : ℤ :=
  match news.find? fun s => s.id = w with
  | some s => bits (ρ v).toNat s.lo s.hi
  | none => ρ w

theorem extend_old (h : SplitWord rules S v W q q' n n' spans fields cs xv) (ρ : ℕ → ℤ) {w : ℕ}
    (hw : w < n) : extend v (spans ++ fields) ρ w = ρ w := by
  have hnone : ((spans ++ fields).find? fun s => s.id = w) = none := by
    apply List.find?_eq_none.mpr
    intro s hs
    have hne : s.id ≠ w := by
      have := (h.id_ge hs).1
      omega
    simpa using hne
  rw [extend,hnone]

theorem extend_new (h : SplitWord rules S v W q q' n n' spans fields cs xv) (ρ : ℕ → ℤ) {s : Span}
    (hs : s ∈ spans ++ fields) :
    extend v (spans ++ fields) ρ s.id = bits (ρ v).toNat s.lo s.hi := by
  obtain ⟨t,ht⟩ := Option.isSome_iff_exists.mp
    (List.find?_isSome.mpr ⟨s,hs,decide_eq_true rfl⟩ :
      ((spans ++ fields).find? fun t => t.id = s.id).isSome)
  have hid : t.id = s.id := by simpa using List.find?_some ht
  rw [extend,ht]
  simp only
  rw [h.id_inj (List.mem_of_find?_eq_some ht) hs hid]

theorem admits_iff (h : SplitWord rules S v W q q' n n' spans fields cs xv) :
    (∀ s ∈ q'.vars, s.Admits (ρ s.varId)) ↔ (∀ s ∈ q.vars, s.Admits (ρ s.varId)) ∧
      ∀ s ∈ spans ++ fields, ∃ y : ℕ, ρ s.id = y ∧ y < 2^(s.hi+1-s.lo) := by
  have hnew : ∀ kind, ∀ s ∈ spans ++ fields, (s.spec kind).Admits (ρ s.id) ↔
      ∃ y : ℕ, ρ s.id = y ∧ y < 2^(s.hi+1-s.lo) := fun kind s hs =>
    Span.spec_admits_iff (h.narrow s hs).2
  constructor
  · intro hall
    refine ⟨fun s hs => ?_,fun s hs => ?_⟩
    · have hm : s.toAux v ∈ q'.vars := by
        rw [h.vars]
        exact mem_append_right _ (mem_append_right _ (mem_map_of_mem hs))
      have := (VarSpec.toAux_admits _ _ _).mp (hall _ hm)
      rwa [VarSpec.toAux_varId] at this
    · obtain ⟨kind,hm⟩ := h.mem_vars hs
      exact (hnew kind s hs).mp (hall _ hm)
  · rintro ⟨hold,hspans⟩ t ht
    rw [h.vars] at ht
    simp only [mem_append,mem_map] at ht
    rcases ht with ⟨s,hs,rfl⟩ | ⟨s,hs,rfl⟩ | ⟨s,hs,rfl⟩
    · exact (hnew _ s (mem_append_left _ hs)).mpr (hspans s (mem_append_left _ hs))
    · exact (hnew _ s (mem_append_right _ hs)).mpr (hspans s (mem_append_right _ hs))
    · rw [VarSpec.toAux_admits,VarSpec.toAux_varId]
      exact hold s hs

theorem conservative (h : SplitWord rules S v W q q' n n' spans fields cs xv) (hq : Bounded q n)
    (hw : Word S q v W) : Conservative rules q q' n n' := by
  have hvn : v < n := by
    obtain ⟨t,ht,hid,-⟩ := hw.spec
    exact hid ▸ hq.vars t ht
  have hright : ∀ {ρ : ℕ → ℤ}, q'.Solution rules ρ →
      ∃ X : ℕ, ρ v = X ∧ X < 2^W ∧ ∀ s ∈ spans ++ fields, s.Right X ρ := by
    intro ρ hρ
    obtain ⟨X,hX,hlt⟩ := h.word_value hw hρ.admits
    refine ⟨X,hX,hlt,(h.ties_iff hq hw hρ.admits hX hlt).mp fun c hc => hρ.holds c ?_⟩
    rw [h.constraints]
    exact mem_append_left _ hc
  have hsame : ∀ ρ, q'.Solution rules ρ → ∀ r < q.nodes.length,
      q'.denote rules ρ r = q.denote rules ρ r := by
    intro ρ hρ r hr
    obtain ⟨X,hX,hlt,hall⟩ := hright hρ
    exact h.denote_eq hq hw hρ.admits hX hlt hall hr
  refine ⟨by rw [h.next]; omega,h.length,hsame,fun ρ hρ => ⟨(h.admits_iff.mp hρ.admits).1,?_⟩,?_,?_⟩
  · intro c hc
    rw [← hsame ρ hρ c (hq.roots c hc)]
    apply hρ.holds
    rw [h.constraints]
    exact mem_append_right _ hc
  · intro ρ hρ
    have hold := fun w hw => h.extend_old (w:=w) ρ hw
    have hadmits : ∀ s ∈ q'.vars, s.Admits (extend v (spans ++ fields) ρ s.varId) := by
      apply h.admits_iff.mpr
      refine ⟨fun s hs => ?_,fun s hs => ?_⟩
      · rw [hold _ (hq.vars s hs)]
        exact hρ.admits s hs
      · exact ⟨_,h.extend_new ρ hs,bits_lt _ _ _⟩
    obtain ⟨X,hX,hlt⟩ := h.word_value hw hadmits
    have hall : ∀ s ∈ spans ++ fields, s.Right X (extend v (spans ++ fields) ρ) := by
      intro s hs
      have hv := hold v hvn
      rw [Span.Right,h.extend_new ρ hs,← hv,hX,Int.toNat_natCast]
    refine ⟨_,hold,hadmits,fun c hc => ?_⟩
    rw [h.constraints] at hc
    rcases mem_append.mp hc with hc | hc
    · exact (h.ties_iff hq hw hadmits hX hlt).mpr hall c hc
    · rw [h.denote_eq hq hw hadmits hX hlt hall (hq.roots c hc)]
      rw [Problem.denote_congr hq.nodes hold]
      exact hρ.holds c hc
  · intro ρ ρ' hρ hρ' hagree w hwn
    by_cases hlt : w < n
    · exact hagree w hlt
    · obtain ⟨s,hs,rfl⟩ := h.exists_id (not_lt.mp hlt) hwn
      obtain ⟨X,hX,-,hall⟩ := hright hρ
      obtain ⟨X',hX',-,hall'⟩ := hright hρ'
      have hXX : X = X' := by
        have := hagree v hvn
        rw [hX,hX'] at this
        exact_mod_cast this
      rw [hall s hs,hall' s hs,hXX]

end SplitWord
end Fields
end DvSolve
