import DvSolve.FieldsSem

/-! What building a word adds.
Once the word has its bits, the ties hold exactly when every new variable and every
field inside has its own. -/
namespace DvSolve
namespace Fields

open Sv TwosComp
open List (mem_append mem_append_left mem_append_right)
open Option (map_some mem_some_iff)

variable {hi : ℕ} {s : Span} {r x : Ref} {π : Span}

theorem fdEnd_spec (cuts : ℕ → Bool) {n e : ℕ} (hn : hi ≤ e+n) (he : e ≤ hi) :
    e ≤ fdEnd cuts hi n e ∧ fdEnd cuts hi n e ≤ hi ∧
      (∀ i, e < i → i ≤ fdEnd cuts hi n e → cuts i = false) ∧
      (fdEnd cuts hi n e = hi ∨ cuts (fdEnd cuts hi n e+1) = true) := by
  induction n generalizing e with
  | zero =>
    refine ⟨le_rfl,he,fun i h₁ h₂ => absurd h₂ (not_le.mpr h₁),.inl ?_⟩
    simp only [fdEnd]
    omega
  | succ n ih =>
    rw [fdEnd]
    split_ifs with h
    · obtain ⟨h₁,h₂,h₃,h₄⟩ := ih (e:=e+1) (by omega) (by omega)
      refine ⟨by omega,h₂,fun i hi₁ hi₂ => ?_,h₄⟩
      by_cases hi : i = e+1
      · rw [hi,h.2]
      · exact h₃ i (by omega) hi₂
    · refine ⟨le_rfl,he,fun i h₁ h₂ => absurd h₂ (not_le.mpr h₁),?_⟩
      by_cases hlt : e < hi
      · exact .inr (by simpa using fun hc => h ⟨hlt,hc⟩)
      · exact .inl (by omega)

structure Bounds (cuts : ℕ → Bool) (W lo hi : ℕ) : Prop where
  le : lo ≤ hi
  lt : hi < W
  lo : lo = 0 ∨ cuts lo = true
  hi : hi+1 = W ∨ cuts (hi+1) = true

/-- The fields of a word: no cut inside one, and one from each boundary on. -/
structure Segments (cuts : ℕ → Bool) (W : ℕ) (segs : List Span) : Prop where
  bounds : ∀ s ∈ segs, Bounds cuts W s.lo s.hi
  whole : ∀ s ∈ segs, ∀ i, s.lo < i → i ≤ s.hi → cuts i = false
  starts : ∀ b < W, (b = 0 ∨ cuts b = true) → ∃ s ∈ segs, s.lo = b
  unique : ∀ s ∈ segs, ∀ t ∈ segs, s.lo = t.lo → s = t

variable {cuts : ℕ → Bool} {W : ℕ} {segs : List Span} {uses : List FdUse}

/-- Boundaries without a cut between them are those of a field. -/
theorem Segments.mem_of_whole (h : Segments cuts W segs) {lo : ℕ} (hb : Bounds cuts W lo hi)
    (hw : ∀ i, lo < i → i ≤ hi → cuts i = false) : ∃ s ∈ segs, s.lo = lo ∧ s.hi = hi := by
  obtain ⟨s,hs,hlo⟩ := h.starts lo (by have := hb.le; have := hb.lt; omega) hb.lo
  refine ⟨s,hs,hlo,?_⟩
  have hsb := h.bounds s hs
  rcases lt_trichotomy s.hi hi with hlt | heq | hgt
  · rcases hsb.hi with hW | hc
    · have := hb.lt
      omega
    · have := hw (s.hi+1) (by have := hsb.le; omega) (by omega)
      simp [hc] at this
  · exact heq
  · rcases hb.hi with hW | hc
    · have := hsb.lt
      omega
    · have := h.whole s hs (hi+1) (by have := hb.le; omega) (by omega)
      simp [hc] at this

theorem Segments.not_across (h : Segments cuts W segs) {e : ℕ} (he : cuts (e+1) = true)
    (hs : s ∈ segs) : s.hi ≤ e ∨ e+1 ≤ s.lo := by
  by_contra hcon
  have := h.whole s hs (e+1) (by omega) (by omega)
  simp [he] at this

theorem Segments.eq_of_inside (h : Segments cuts W segs) {t : Span} (hs : s ∈ segs) (ht : t ∈ segs)
    (hlo : s.lo ≤ t.lo) (hhi : t.hi ≤ s.hi) : t = s := by
  apply h.unique t ht s hs
  by_contra hne
  have htb := h.bounds t ht
  have hle := htb.le
  have hcut := h.whole s hs t.lo (by omega) (by omega)
  rcases htb.lo with h0 | hc
  · omega
  · simp [hcut] at hc

theorem fdPartEnd_cases (cuts : ℕ → Bool) (uses : List FdUse) (lo hi b : ℕ) :
    fdPartEnd cuts uses lo hi b = fdEnd cuts hi 64 b ∨
      ∃ u ∈ uses, u.lo = b ∧ u.hi ≤ hi ∧ (u.lo ≠ lo ∨ u.hi ≠ hi) ∧
        fdPartEnd cuts uses lo hi b = u.hi := by
  unfold fdPartEnd
  generalize fdEnd cuts hi 64 b = e₀
  induction uses generalizing e₀ with
  | nil => exact .inl rfl
  | cons x xs ih =>
    simp only [List.foldl_cons]
    split_ifs with h₁ h₂
    · exact (ih e₀).imp_right fun ⟨u,hu,h⟩ => ⟨u,List.mem_cons_of_mem _ hu,h⟩
    · exact (ih e₀).imp_right fun ⟨u,hu,h⟩ => ⟨u,List.mem_cons_of_mem _ hu,h⟩
    · rcases ih x.hi with h | ⟨u,hu,h⟩
      · refine .inr ⟨x,by simp,by omega,by omega,?_,h⟩
        by_contra hcon
        exact h₂ (by omega)
      · exact .inr ⟨u,List.mem_cons_of_mem _ hu,h⟩

theorem fdPartEnd_bounds (hsegs : Segments cuts W segs)
    (huses : ∀ u ∈ uses, Bounds cuts W u.lo u.hi) (lo : ℕ) {b : ℕ} (hW : W ≤ 64) (hhi : hi < W)
    (hend : hi+1 = W ∨ cuts (hi+1) = true) (hb : b ≤ hi) (hcut : b = 0 ∨ cuts b = true) :
    Bounds cuts W b (fdPartEnd cuts uses lo hi b) ∧ fdPartEnd cuts uses lo hi b ≤ hi ∧
      ((¬ ∃ s ∈ segs, s.lo = lo ∧ s.hi = hi) → b = lo → fdPartEnd cuts uses lo hi b ≠ hi) := by
  rcases fdPartEnd_cases cuts uses lo hi b with h | ⟨u,hu,hlo,hle,hne,h⟩
  · obtain ⟨h₁,h₂,h₃,h₄⟩ := fdEnd_spec cuts (n:=64) (by omega) hb
    rw [h]
    have hbounds : Bounds cuts W b (fdEnd cuts hi 64 b) := by
      refine ⟨h₁,by omega,hcut,?_⟩
      rcases h₄ with h₄ | h₄
      · rwa [h₄]
      · exact .inr h₄
    refine ⟨hbounds,h₂,fun hno hblo heq => hno ?_⟩
    rw [heq,hblo] at hbounds
    rw [heq,hblo] at h₃
    exact hsegs.mem_of_whole hbounds h₃
  · have hub := huses u hu
    rw [h]
    rw [hlo] at hub
    exact ⟨hub,hle,fun _ hblo heq => by omega⟩

namespace Span

def spec (kind : VarKind) (s : Span) : VarSpec :=
  ⟨s.id,s.hi+1-s.lo,false,kind,0,0,wrap (2^(s.hi+1-s.lo)-1) 64 true⟩

/-- A node of the new part of a pool is the variable. -/
def Known (base : ℕ) (nodes : List Node) (s : Span) : Prop :=
  base ≤ s.ref ∧ nodes[s.ref]? = some (.var s.id)

structure Fits (Γ : ℕ → Ty) (ρ : ℕ → ℤ) (s : Span) : Prop where
  le : s.lo ≤ s.hi
  ty : Γ s.id = ⟨s.hi+1-s.lo,false⟩
  value : ∃ x : ℕ, ρ s.id = x ∧ x < 2^(s.hi+1-s.lo)

def Right (X : ℕ) (ρ : ℕ → ℤ) (s : Span) : Prop := ρ s.id = bits X s.lo s.hi

end Span

/-- `B'` is `B` with variables for `spans` and constraints at `cs`, newest first. -/
structure Grows (kind : VarKind) (B B' : FdBuild) (spans : List Span) (cs : List Ref) :
    Prop where
  nodes : ∃ more, B'.p.nodes = B.p.nodes ++ more ∧ ∀ a ∈ more, ∀ v ∈ Node.varIds a, v < B'.nextId
  vars : B'.p.vars = spans.map (Span.spec kind) ++ B.p.vars
  constraints : B'.p.constraints = cs ++ B.p.constraints
  softs : B'.p.softs = B.p.softs
  next : B'.nextId = B.nextId+spans.length
  ids : spans.map Span.id = (List.range' B.nextId spans.length).reverse
  roots : ∀ c ∈ cs, c < B'.p.nodes.length
  words : ∀ w ∈ B'.words, w ∈ B.words ∨ w ∈ spans
  known : ∀ s ∈ spans, s.Known B.p.nodes.length B'.p.nodes
  narrow : ∀ s ∈ spans, s.lo ≤ s.hi ∧ s.hi+1-s.lo ≤ 63

theorem Span.Known.mono {base base' : ℕ} {ns ms : List Node} (h : s.Known base ns)
    (hbase : base' ≤ base) (hms : ∀ r a, base ≤ r → ns[r]? = some a → ms[r]? = some a) :
    s.Known base' ms := ⟨hbase.trans h.1,hms _ _ h.1 h.2⟩

namespace Grows

variable {kind : VarKind} {B B' B'' : FdBuild} {spans spans' : List Span} {cs cs' : List Ref}

theorem le_length (h : Grows kind B B' spans cs) : B.p.nodes.length ≤ B'.p.nodes.length := by
  obtain ⟨more,hmore,-⟩ := h.nodes
  simp [hmore]

theorem getElem? (h : Grows kind B B' spans cs) {a : Node} (ha : B.p.nodes[r]? = some a) :
    B'.p.nodes[r]? = some a := by
  obtain ⟨more,hmore,-⟩ := h.nodes
  rw [hmore,List.getElem?_append_left (List.getElem?_eq_some_iff.mp ha).1,ha]

theorem refl (kind : VarKind) (B : FdBuild) : Grows kind B B [] [] :=
  ⟨⟨[],by simp,by simp⟩,rfl,rfl,rfl,rfl,rfl,by simp,fun _ h => .inl h,by simp,by simp⟩

theorem trans (h : Grows kind B B' spans cs) (h' : Grows kind B' B'' spans' cs') :
    Grows kind B B'' (spans' ++ spans) (cs' ++ cs) where
  nodes := by
    obtain ⟨more,hmore,hids⟩ := h.nodes
    obtain ⟨more',hmore',hids'⟩ := h'.nodes
    refine ⟨more ++ more',by rw [hmore',hmore,List.append_assoc],fun a ha v hv => ?_⟩
    rcases mem_append.mp ha with ha | ha
    · have := hids a ha v hv
      have := h'.next
      omega
    · exact hids' a ha v hv
  vars := by rw [h'.vars,h.vars,List.map_append,List.append_assoc]
  constraints := by rw [h'.constraints,h.constraints,List.append_assoc]
  softs := h'.softs.trans h.softs
  next := by
    rw [h'.next,h.next,List.length_append]
    omega
  ids := by
    rw [List.map_append,h.ids,h'.ids,h.next,← List.reverse_append,List.length_append,
      Nat.add_comm spans'.length,List.range'_append_1]
  roots := by
    intro c hc
    rcases mem_append.mp hc with hc | hc
    · exact h'.roots c hc
    · exact lt_of_lt_of_le (h.roots c hc) h'.le_length
  words := by
    intro w hw
    rcases h'.words w hw with hw | hw
    · exact (h.words w hw).imp_right (mem_append_right _)
    · exact .inr (mem_append_left _ hw)
  known := by
    intro s hs
    rcases mem_append.mp hs with hs | hs
    · exact (h'.known s hs).mono h.le_length fun _ _ _ ha => ha
    · exact (h.known s hs).mono le_rfl fun _ _ _ ha => h'.getElem? ha
  narrow := by
    intro s hs
    rcases mem_append.mp hs with hs | hs
    · exact h'.narrow s hs
    · exact h.narrow s hs

theorem addVar (B : FdBuild) (kind : VarKind) (lo hi : ℕ) (words : List Span) (hle : lo ≤ hi)
    (hnarrow : hi+1-lo ≤ 63)
    (hwords : ∀ w ∈ words, w ∈ B.words ∨ w = ⟨B.nextId,lo,hi,B.p.nodes.length⟩) :
    Grows kind B ⟨(B.p.fdAddVar B.nextId (hi+1-lo) kind).2,B.nextId+1,words⟩
      [⟨B.nextId,lo,hi,B.p.nodes.length⟩] [] where
  nodes := ⟨[.var B.nextId],rfl,by simp [Node.varIds]⟩
  vars := rfl
  constraints := rfl
  softs := rfl
  next := rfl
  ids := by simp
  roots := by simp
  words := fun w hw => (hwords w hw).imp_right fun h => by simp [h]
  known := by simp [Span.Known,Problem.fdAddVar,Problem.mkNode]
  narrow := by
    intro s hs
    rw [List.mem_singleton.mp hs]
    exact ⟨hle,hnarrow⟩

theorem addNode (B : FdBuild) (kind : VarKind) (a : Node) (ha : ∀ v ∈ a.varIds, v < B.nextId) :
    Grows kind B { B with p := (B.p.mkNode a).2 } [] [] where
  nodes := ⟨[a],rfl,by simpa using ha⟩
  vars := rfl
  constraints := rfl
  softs := rfl
  next := rfl
  ids := rfl
  roots := by simp
  words := fun _ h => .inl h
  known := by simp
  narrow := by simp

theorem addTie (B : FdBuild) (kind : VarKind) {a b : Node} (ha : a.varIds = [])
    (hb : b.varIds = []) :
    Grows kind B { B with
        p := ((B.p.mkNode a).2.mkNode b).2.fdAddConstraint ((B.p.mkNode a).2.mkNode b).1 }
      [] [((B.p.mkNode a).2.mkNode b).1] where
  nodes := ⟨[a,b],by simp [Problem.mkNode,Problem.fdAddConstraint],by simp [ha,hb]⟩
  vars := rfl
  constraints := rfl
  softs := rfl
  next := rfl
  ids := rfl
  roots := by simp [Problem.mkNode,Problem.fdAddConstraint]
  words := fun _ h => .inl h
  known := by simp
  narrow := by simp

end Grows
def means (rules : Rules) (Γ : ℕ → Ty) (ρ : ℕ → ℤ) (nodes : List Node) (r : Ref) : Meaning :=
  NodePool.denote (Node.sem rules Γ ρ) .null nodes r

section Ties

variable {rules : Rules} {Γ : ℕ → Ty} {ρ : ℕ → ℤ} {nodes : List Node} {X : ℕ}

theorem means_var {v : ℕ} (h : nodes[r]? = some (.var v)) :
    means rules Γ ρ nodes r = .ofVar (Γ v) (ρ v) := NodePool.denote_some h

theorem means_extract {lo : ℕ} (h : nodes[r]? = some (.extract x hi lo)) (hx : x < r) :
    means rules Γ ρ nodes r = (means rules Γ ρ nodes x).extract hi lo := by
  rw [means,NodePool.denote_some h]
  simp only [Node.sem,if_pos hx]
  rfl

theorem means_concat {y : Ref} {w : ℕ} (h : nodes[r]? = some (.concat x y w)) (hx : x < r)
    (hy : y < r) : means rules Γ ρ nodes r =
      (means rules Γ ρ nodes x).concat (means rules Γ ρ nodes y) w := by
  rw [means,NodePool.denote_some h]
  simp only [Node.sem,if_pos hx,if_pos hy]
  rfl

theorem means_eq {y : Ref} (h : nodes[r]? = some (.binary .eq x y)) (hx : x < r) (hy : y < r) :
    means rules Γ ρ nodes r = (means rules Γ ρ nodes x).eq (means rules Γ ρ nodes y) := by
  rw [means,NodePool.denote_some h]
  simp only [Node.sem,if_pos hx,if_pos hy]
  rfl

theorem Span.Fits.means (rules : Rules) (h : s.Fits Γ ρ) (hk : nodes[s.ref]? = some (.var s.id)) :
    ∃ x : ℕ, ρ s.id = x ∧ x < 2^(s.hi+1-s.lo) ∧
      Fields.means rules Γ ρ nodes s.ref = .unsigned (s.hi+1-s.lo) x := by
  obtain ⟨x,hx,hlt⟩ := h.value
  exact ⟨x,hx,hlt,by rw [means_var hk,h.ty,hx]⟩

/-- A link of a chain: once its word has its bits, it holds when both parts have theirs. -/
theorem concat_tie {t κ : Span} (ht : t.Fits Γ ρ) (hπ : π.Fits Γ ρ) (hκ : κ.Fits Γ ρ)
    (hlo : κ.lo = t.lo) (hmid : κ.hi+1 = π.lo) (hhi : π.hi = t.hi)
    (htk : nodes[t.ref]? = some (.var t.id)) (hπk : nodes[π.ref]? = some (.var π.id))
    (hκk : nodes[κ.ref]? = some (.var κ.id))
    (hx : nodes[x]? = some (.concat π.ref κ.ref (κ.hi+1-κ.lo)))
    (hr : nodes[r]? = some (.binary .eq t.ref x)) (hπx : π.ref < x) (hκx : κ.ref < x)
    (htr : t.ref < r) (hxr : x < r) (hright : t.Right X ρ) :
    (means rules Γ ρ nodes r).Truth ↔ π.Right X ρ ∧ κ.Right X ρ := by
  have hle₁ := hπ.le
  have hle₂ := hκ.le
  obtain ⟨T,hT,hTlt,hTm⟩ := ht.means rules htk
  obtain ⟨P,hP,hPlt,hPm⟩ := hπ.means rules hπk
  obtain ⟨C,hC,hClt,hCm⟩ := hκ.means rules hκk
  have hw : π.hi+1-π.lo+(κ.hi+1-κ.lo) = t.hi+1-t.lo := by omega
  have hsum : P*2^(κ.hi+1-κ.lo)+C < 2^(t.hi+1-t.lo) := by
    calc P*2^(κ.hi+1-κ.lo)+C < P*2^(κ.hi+1-κ.lo)+2^(κ.hi+1-κ.lo) := by omega
      _ = (P+1)*2^(κ.hi+1-κ.lo) := by ring
      _ ≤ 2^(π.hi+1-π.lo)*2^(κ.hi+1-κ.lo) := Nat.mul_le_mul_right _ hPlt
      _ = 2^(t.hi+1-t.lo) := by rw [← pow_add,hw]
  rw [means_eq hr htr hxr,means_concat hx hπx hκx,hTm,hPm,hCm,
    Meaning.concat_unsigned (by omega) (by omega) hPlt hClt,hw,
    Meaning.eq_unsigned_truth (by omega) hTlt hsum]
  have hTX : T = bits X κ.lo π.hi := by
    rw [Span.Right,hT] at hright
    rw [hlo,hhi]
    exact_mod_cast hright
  have hw' : κ.hi+1-κ.lo = π.lo-κ.lo := by omega
  rw [hw'] at hClt ⊢
  rw [hTX,bits_tie (by omega) hle₁ hClt,Span.Right,Span.Right,hP,hC,show π.lo-1 = κ.hi by omega]
  norm_cast

theorem slice_tie {σ : Span} (hσ : σ.Fits Γ ρ) (hπ : π.Fits Γ ρ) (hlo : σ.lo = 0)
    (hhi : π.hi ≤ σ.hi) (hX : X < 2^(σ.hi+1)) (hσk : nodes[σ.ref]? = some (.var σ.id))
    (hπk : nodes[π.ref]? = some (.var π.id)) (hx : nodes[x]? = some (.extract σ.ref π.hi π.lo))
    (hr : nodes[r]? = some (.binary .eq π.ref x)) (hσx : σ.ref < x) (hπr : π.ref < r) (hxr : x < r)
    (hright : σ.Right X ρ) :
    (means rules Γ ρ nodes r).Truth ↔ π.Right X ρ := by
  have hle := hπ.le
  obtain ⟨Y,hY,hYlt,hYm⟩ := hσ.means rules hσk
  obtain ⟨P,hP,hPlt,hPm⟩ := hπ.means rules hπk
  have hYX : Y = X := by
    rw [Span.Right,hY,hlo] at hright
    have := bits_zero (W:=σ.hi+1) (by omega) hX
    simp only [Nat.add_sub_cancel] at this
    rw [this] at hright
    exact_mod_cast hright
  rw [means_eq hr hπr hxr,means_extract hx hσx,hYm,hPm,Meaning.extract_unsigned hYlt hle (by omega),
    Meaning.eq_unsigned_truth (by omega) hPlt (bits_lt _ _ _),Span.Right,hP,hYX]
  norm_cast

def Span.chained (s : Span) : Ref × ℕ := (s.ref,s.hi+1-s.lo)

def Keeps (base : ℕ) (ns ms : List Node) : Prop :=
  ∀ r a, base ≤ r → ns[r]? = some a → ms[r]? = some a

theorem Span.Known.lt {base : ℕ} (h : s.Known base nodes) : s.ref < nodes.length :=
  (List.getElem?_eq_some_iff.mp h.2).1

theorem keeps_tie {p : Problem} {base : ℕ} (hbase : base ≤ p.nodes.length) {a b : Node}
    (hk : Keeps base (((p.mkNode a).2.mkNode b).2.fdAddConstraint
      ((p.mkNode a).2.mkNode b).1).nodes nodes) :
    nodes[p.nodes.length]? = some a ∧ nodes[p.nodes.length+1]? = some b ∧
      ((p.mkNode a).2.mkNode b).1 = p.nodes.length+1 ∧ Keeps base p.nodes nodes := by
  have hall : (((p.mkNode a).2.mkNode b).2.fdAddConstraint
      ((p.mkNode a).2.mkNode b).1).nodes = p.nodes ++ [a,b] := by
    simp [Problem.mkNode,Problem.fdAddConstraint]
  rw [hall] at hk
  refine ⟨hk _ _ hbase (by simp),hk _ _ (by omega) (by simp),by simp [Problem.mkNode],?_⟩
  intro r x hr hx
  apply hk r x hr
  rw [List.getElem?_append_left (List.getElem?_eq_some_iff.mp hx).1,hx]

theorem link_sound {base : ℕ} {B : FdBuild} {t κ : Span} (hbase : base ≤ B.p.nodes.length)
    (ht : t.Known base B.p.nodes) (hπ : π.Known base B.p.nodes) (hκ : κ.Known base B.p.nodes)
    (hlo : κ.lo = t.lo) (hmid : κ.hi+1 = π.lo) (hhi : π.hi = t.hi)
    (hk : Keeps base (((B.p.mkNode (.concat π.ref κ.ref (κ.hi+1-κ.lo))).2.mkNode
      (.binary .eq t.ref B.p.nodes.length)).2.fdAddConstraint
        ((B.p.mkNode (.concat π.ref κ.ref (κ.hi+1-κ.lo))).2.mkNode
          (.binary .eq t.ref B.p.nodes.length)).1).nodes nodes) (htf : t.Fits Γ ρ)
    (hπf : π.Fits Γ ρ) (hκf : κ.Fits Γ ρ) (hright : t.Right X ρ) :
    (means rules Γ ρ nodes ((B.p.mkNode (.concat π.ref κ.ref (κ.hi+1-κ.lo))).2.mkNode
        (.binary .eq t.ref B.p.nodes.length)).1).Truth ↔ π.Right X ρ ∧ κ.Right X ρ := by
  obtain ⟨hx,hr,heq,hB⟩ := keeps_tie hbase hk
  rw [heq]
  exact concat_tie htf hπf hκf hlo hmid hhi (hB _ _ ht.1 ht.2) (hB _ _ hπ.1 hπ.2)
    (hB _ _ hκ.1 hκ.2) hx hr hπ.lt hκ.lt (Nat.lt_succ_of_lt ht.lt) (Nat.lt_succ_self _) hright

/-- Tying a part adds at most the next link of the chain, `cur'`; once that and the word
have their bits, the tie holds when the part and the chain so far have theirs. -/
theorem fdTie_spec {W lo b e base : ℕ} {σ : Span} {cur : Option Span} {c' : Option (Ref × ℕ)}
    {B B' : FdBuild} (hbase : base ≤ B.p.nodes.length) (hσ : σ.Known base B.p.nodes)
    (hπ : π.Known base B.p.nodes) (hσlo : σ.lo = lo) (hσhi : σ.hi = hi) (hπlo : π.lo = b)
    (hπhi : π.hi = e) (hlo : lo ≤ b) (hbe : b ≤ e) (he : e ≤ hi) (hhi : hi < W) (hW : W ≤ 64)
    (hcur : ∀ κ ∈ cur, κ.Known base B.p.nodes ∧ κ.lo = lo ∧ κ.hi+1 = b)
    (hfirst : cur = none → hi-lo+1 < 64 → b = lo ∧ e ≠ hi) (hwide : hi-lo+1 ≥ 64 → cur = none)
    (h : fdTie lo hi σ.ref π.ref b e (cur.map Span.chained) B = (c',B')) :
    ∃ spans cs cur', Grows .aux B B' spans cs ∧ c' = cur'.map Span.chained ∧
      (∀ κ ∈ cur', κ.Known base B'.p.nodes ∧ κ.lo = lo ∧ κ.hi = e ∧
        (κ ∈ spans ∨ κ = π ∨ κ = σ)) ∧ (e = hi → ∀ κ ∈ cur', κ = σ) ∧
      (∀ s ∈ spans, s ∈ cur') ∧ (cur' = none → hi-lo+1 ≥ 64) ∧
      (hi-lo+1 ≥ 64 → cur' = none) ∧
      ∀ nodes Γ ρ X, Keeps base B'.p.nodes nodes → X < 2^W → σ.Fits Γ ρ → π.Fits Γ ρ →
        (∀ κ ∈ cur, κ.Fits Γ ρ) → (∀ s ∈ spans, s.Fits Γ ρ) → σ.Right X ρ →
        (∀ κ ∈ cur', κ.Right X ρ) →
        ((∀ c ∈ cs, (means rules Γ ρ nodes c).Truth) ↔ π.Right X ρ ∧ ∀ κ ∈ cur, κ.Right X ρ) := by
  unfold fdTie at h
  by_cases h64 : hi-lo+1 ≥ 64
  · rw [if_pos h64] at h
    obtain rfl := hwide h64
    obtain ⟨rfl,rfl⟩ := h
    refine ⟨[],_,none,Grows.addTie B .aux rfl rfl,rfl,by simp,by simp,by simp,fun _ => h64,
      fun _ => rfl,?_⟩
    intro nodes Γ ρ X hk hX hσf hπf _ _ hright _
    obtain ⟨hx,hr,heq,hB⟩ := keeps_tie hbase hk
    rw [← hπlo,← hπhi] at hx
    have htie : (means rules Γ ρ nodes (B.p.nodes.length+1)).Truth ↔ π.Right X ρ :=
      slice_tie hσf hπf (by omega) (by omega) (by rwa [show σ.hi+1 = W by omega])
        (hB _ _ hσ.1 hσ.2) (hB _ _ hπ.1 hπ.2) hx hr hσ.lt (Nat.lt_succ_of_lt hπ.lt)
        (Nat.lt_succ_self _) hright
    simpa [heq] using htie
  · rw [if_neg h64] at h
    cases cur with
    | none =>
      obtain ⟨rfl,rfl⟩ := h
      obtain ⟨hblo,hne⟩ := hfirst rfl (by omega)
      refine ⟨[],[],some π,Grows.refl _ _,?_,?_,by simp [hne],by simp,by simp,fun h => absurd h h64,?_⟩
      · simp only [map_some,Span.chained,hπlo,hπhi]
        rw [show e-b+1 = e+1-b by omega]
      · simpa [hπlo,hπhi,hblo] using hπ
      · intro nodes Γ ρ X _ _ _ _ _ _ _ hcur'
        simpa using hcur'
    | some κ =>
      obtain ⟨hκ,hκlo,hκhi⟩ := hcur κ rfl
      by_cases hlast : e = hi
      · simp only [map_some,Span.chained,if_pos hlast,Prod.mk.injEq] at h
        obtain ⟨rfl,rfl⟩ := h
        refine ⟨[],_,some σ,Grows.addTie B .aux rfl rfl,?_,?_,by simp,by simp,by simp,
          fun h => absurd h h64,?_⟩
        · simp only [map_some,Span.chained]
          rw [show κ.hi+1-κ.lo+(e-b+1) = σ.hi+1-σ.lo by omega]
        · intro κ' hκ'
          rw [← mem_some_iff.mp hκ']
          exact ⟨hσ.mono le_rfl fun _ _ _ ha => (Grows.addTie B .aux rfl rfl).getElem? ha,hσlo,
            hσhi.trans hlast.symm,.inr (.inr rfl)⟩
        · intro nodes Γ ρ X hk _ hσf hπf hκf _ hright _
          simp only [List.mem_singleton,forall_eq,mem_some_iff,forall_eq']
          exact link_sound hbase hσ hπ hκ (by omega) (by omega) (by omega) hk hσf hπf
            (hκf κ rfl) hright
      · simp only [map_some,Span.chained,if_neg hlast,Prod.mk.injEq] at h
        obtain ⟨rfl,rfl⟩ := h
        have hwidth : κ.hi+1-κ.lo+(e-b+1) = e+1-lo := by omega
        rw [hwidth]
        have hvar := Grows.addVar B .aux lo e B.words (by omega) (by omega)
          fun w hw => .inl hw
        have hold : ∀ {s : Span}, s.Known base B.p.nodes → s.Known base _ := fun hs =>
          hs.mono le_rfl fun _ _ _ ha => hvar.getElem? ha
        have hnew := (hvar.known _ (List.mem_singleton_self _)).mono hbase fun _ _ _ ha => ha
        have htie := fun {a b} => Grows.addTie (a:=a) (b:=b)
          ⟨(B.p.fdAddVar B.nextId (e+1-lo) .aux).2,B.nextId+1,B.words⟩ .aux
        refine ⟨_,_,some ⟨B.nextId,lo,e,B.p.nodes.length⟩,hvar.trans (htie rfl rfl),rfl,?_,
          fun h => absurd h hlast,by simp,by simp,fun h => absurd h h64,?_⟩
        · intro κ' hκ'
          rw [← mem_some_iff.mp hκ']
          exact ⟨hnew.mono le_rfl fun _ _ _ ha => (htie rfl rfl).getElem? ha,rfl,rfl,.inl (by simp)⟩
        · intro nodes Γ ρ X hk _ _ hπf hκf hspans _ hcur'
          simp only [List.append_nil,List.mem_singleton,forall_eq,mem_some_iff,forall_eq']
          exact link_sound (hbase.trans hvar.le_length) hnew (hold hπ) (hold hκ)
            (by simp [hκlo]) (by omega) hπhi hk (hspans _ (by simp)) hπf (hκf κ rfl)
            (hcur' _ rfl)

end Ties

theorem Grows.keeps {kind : VarKind} {B B' : FdBuild} {spans : List Span} {cs : List Ref}
    (h : Grows kind B B' spans cs) {base : ℕ} {nodes : List Node}
    (hk : Keeps base B'.p.nodes nodes) : Keeps base B.p.nodes nodes :=
  fun r a hr ha => hk r a hr (h.getElem? ha)

theorem Grows.known_mono {kind : VarKind} {B B' : FdBuild} {spans : List Span} {cs : List Ref}
    (h : Grows kind B B' spans cs) {base : ℕ} (hs : s.Known base B.p.nodes) :
    s.Known base B'.p.nodes := hs.mono le_rfl fun _ _ _ ha => h.getElem? ha

/-- Once the word `σ` has its bits, the new constraints hold exactly when the chain so
far, the new variables and the fields of `[hi:b]` have theirs. -/
def Sound (rules : Rules) (W base : ℕ) (segs : List Span) (B : FdBuild) (spans : List Span)
    (cs : List Ref) (cur : Option Span) (σ : Span) (b hi : ℕ) : Prop :=
  ∀ nodes Γ ρ X, Keeps base B.p.nodes nodes → X < 2^W → (∀ s ∈ segs, s.Fits Γ ρ) →
    (∀ s ∈ spans, s.Fits Γ ρ) → (∀ κ ∈ cur, κ.Fits Γ ρ) → σ.Fits Γ ρ → σ.Right X ρ →
    ((∀ c ∈ cs, (means rules Γ ρ nodes c).Truth) ↔ (∀ κ ∈ cur, κ.Right X ρ) ∧ (∀ s ∈ spans, s.Right X ρ) ∧
        ∀ g ∈ segs, b ≤ g.lo → g.hi ≤ hi → g.Right X ρ)

def Builds (rules : Rules) (cuts : ℕ → Bool) (W base : ℕ) (segs : List Span)
    (build : ℕ → ℕ → FdBuild → Option (Ref × FdBuild)) : Prop :=
  ∀ b e B r B', Bounds cuts W b e → e+1-b ≤ 63 → base ≤ B.p.nodes.length →
    (∀ s ∈ segs, s.Known base B.p.nodes) → build b e B = some (r,B') →
    ∃ π spans cs, π.ref = r ∧ π.lo = b ∧ π.hi = e ∧ π.Known base B'.p.nodes ∧
      (π ∈ spans ∨ π ∈ segs) ∧ Grows .aux B B' spans cs ∧
      Sound rules W base segs B' spans cs none π b e

variable {rules : Rules} {base : ℕ} {build : ℕ → ℕ → FdBuild → Option (Ref × FdBuild)}

theorem fdParts_spec (hsegs : Segments cuts W segs) (huses : ∀ u ∈ uses, Bounds cuts W u.lo u.hi)
    (hW : W ≤ 64) (hbuild : Builds rules cuts W base segs build) {lo : ℕ} {σ : Span}
    (hσlo : σ.lo = lo) (hσhi : σ.hi = hi) (hhi : hi < W) (hend : hi+1 = W ∨ cuts (hi+1) = true)
    (hno : ¬ ∃ s ∈ segs, s.lo = lo ∧ s.hi = hi) {n b : ℕ} (cur : Option Span) {B B' : FdBuild}
    (hlo : lo ≤ b) (hb : b ≤ hi) (hcut : b = 0 ∨ cuts b = true) (hbase : base ≤ B.p.nodes.length)
    (hσ : σ.Known base B.p.nodes) (hknown : ∀ s ∈ segs, s.Known base B.p.nodes)
    (hcur : ∀ κ ∈ cur, κ.Known base B.p.nodes ∧ κ.lo = lo ∧ κ.hi+1 = b)
    (hfirst : cur = none → hi-lo+1 < 64 → b = lo) (hwide : hi-lo+1 ≥ 64 → cur = none)
    (h : fdParts cuts uses build lo hi σ.ref n b (cur.map Span.chained) B = some B') :
    ∃ spans cs, Grows .aux B B' spans cs ∧ Sound rules W base segs B' spans cs cur σ b hi := by
  induction n generalizing b cur B with
  | zero => simp [fdParts] at h
  | succ n ih =>
    obtain ⟨hbounds,hele,hproper⟩ := fdPartEnd_bounds hsegs huses lo hW hhi
      hend hb hcut
    replace hproper := hproper hno
    rw [fdParts] at h
    generalize fdPartEnd cuts uses lo hi b = e at h hbounds hele hproper
    simp only [Option.bind_eq_some_iff,Prod.exists] at h
    obtain ⟨r,B₁,hpart,h⟩ := h
    obtain ⟨π,spans₁,cs₁,hπr,hπlo,hπhi,hπ,hπmem,hgrow₁,hsound₁⟩ :=
      hbuild b e B r B₁ hbounds (by omega) hbase hknown hpart
    cases htie : fdTie lo hi σ.ref r b e (cur.map Span.chained) B₁ with
    | mk c' B₂ =>
    rw [← hπr] at htie
    obtain ⟨spans₂,cs₂,cur',hgrow₂,hc',hcur',hlast,hsub,hnone',hwide',hsound₂⟩ :=
      fdTie_spec (hbase.trans hgrow₁.le_length) (hgrow₁.known_mono hσ) hπ hσlo
        hσhi hπlo hπhi hlo hbounds.le hele hhi hW
        (fun κ hκ => ⟨hgrow₁.known_mono (hcur κ hκ).1,(hcur κ hκ).2⟩)
        (fun hn hlt => ⟨hfirst hn hlt,hproper (hfirst hn hlt)⟩) hwide htie
    rw [hπr] at htie
    simp only [htie] at h
    split_ifs at h with heq
    · cases h
      refine ⟨_,_,hgrow₁.trans hgrow₂,?_⟩
      intro nodes Γ ρ X hk hX hsegsf hspansf hcurf hσf hright
      have hspansf₁ : ∀ s ∈ spans₁, s.Fits Γ ρ := fun s hs =>
        hspansf s (mem_append_right _ hs)
      have hspansf₂ : ∀ s ∈ spans₂, s.Fits Γ ρ := fun s hs =>
        hspansf s (mem_append_left _ hs)
      have hπf : π.Fits Γ ρ := hπmem.elim (hspansf₁ π) (hsegsf π)
      have hcur'R : ∀ κ ∈ cur', κ.Right X ρ := fun κ hκ => hlast heq κ hκ ▸ hright
      have h₁ := hsound₁ nodes Γ ρ X (hgrow₂.keeps hk) hX hsegsf hspansf₁ (by simp) hπf
      have h₂ := hsound₂ nodes Γ ρ X hk hX hσf hπf hcurf hspansf₂ hright hcur'R
      constructor
      · intro hall
        obtain ⟨hπR,hcurR⟩ := h₂.mp fun c hc => hall c (mem_append_left _ hc)
        obtain ⟨-,hspans,hfields⟩ := (h₁ hπR).mp fun c hc => hall c (mem_append_right _ hc)
        refine ⟨hcurR,fun s hs => ?_,heq ▸ hfields⟩
        rcases mem_append.mp hs with hs | hs
        · exact hcur'R s (hsub s hs)
        · exact hspans s hs
      · rintro ⟨hcurR,hspans,hfields⟩ c hc
        have hπR : π.Right X ρ := hπmem.elim
          (fun hm => hspans π (mem_append_right _ hm))
          fun hm => hfields π hm hπlo.ge (hπhi.trans heq).le
        rcases mem_append.mp hc with hc | hc
        · exact h₂.mpr ⟨hπR,hcurR⟩ c hc
        · exact (h₁ hπR).mpr ⟨by simp,fun s hs => hspans s (mem_append_right _ hs), heq ▸ hfields⟩ c hc
    · rw [hc'] at h
      have hbe := hbounds.le
      obtain ⟨spans₃,cs₃,hgrow₃,hsound₃⟩ := ih (b:=e+1) cur' (by omega) (by omega)
        (.inr (hbounds.hi.resolve_left (by omega))) ((hbase.trans hgrow₁.le_length).trans
          hgrow₂.le_length) (hgrow₂.known_mono (hgrow₁.known_mono hσ))
        (fun s hs => hgrow₂.known_mono (hgrow₁.known_mono (hknown s hs)))
        (fun κ hκ => ⟨(hcur' κ hκ).1,(hcur' κ hκ).2.1,by rw [(hcur' κ hκ).2.2.1]⟩)
        (fun hn hlt => absurd (hnone' hn) (by omega)) hwide' h
      refine ⟨_,_,(hgrow₁.trans hgrow₂).trans hgrow₃,?_⟩
      intro nodes Γ ρ X hk hX hsegsf hspansf hcurf hσf hright
      have hspansf₁ : ∀ s ∈ spans₁, s.Fits Γ ρ := fun s hs =>
        hspansf s (mem_append_right _ (mem_append_right _ hs))
      have hspansf₂ : ∀ s ∈ spans₂, s.Fits Γ ρ := fun s hs =>
        hspansf s (mem_append_right _ (mem_append_left _ hs))
      have hπf : π.Fits Γ ρ := hπmem.elim (hspansf₁ π) (hsegsf π)
      have hcur'f : ∀ κ ∈ cur', κ.Fits Γ ρ := by
        intro κ hκ
        rcases (hcur' κ hκ).2.2.2 with hm | rfl | rfl
        · exact hspansf₂ κ hm
        · exact hπf
        · exact hσf
      have hk₂ := hgrow₃.keeps hk
      have h₁ := hsound₁ nodes Γ ρ X (hgrow₂.keeps hk₂) hX hsegsf hspansf₁ (by simp) hπf
      have h₂ := hsound₂ nodes Γ ρ X hk₂ hX hσf hπf hcurf hspansf₂ hright
      have h₃ := hsound₃ nodes Γ ρ X hk hX hsegsf
        (fun s hs => hspansf s (mem_append_left _ hs)) hcur'f hσf hright
      have hnext : cuts (e+1) = true := hbounds.hi.resolve_left (by omega)
      constructor
      · intro hall
        obtain ⟨hcur'R,hspans₃,hfields₃⟩ := h₃.mp fun c hc => hall c (mem_append_left _ hc)
        obtain ⟨hπR,hcurR⟩ := (h₂ hcur'R).mp fun c hc =>
          hall c (mem_append_right _ (mem_append_left _ hc))
        obtain ⟨-,hspans₁,hfields₁⟩ := (h₁ hπR).mp fun c hc =>
          hall c (mem_append_right _ (mem_append_right _ hc))
        refine ⟨hcurR,fun s hs => ?_,fun g hg hglo hghi => ?_⟩
        · rcases mem_append.mp hs with hs | hs
          · exact hspans₃ s hs
          · rcases mem_append.mp hs with hs | hs
            · exact hcur'R s (hsub s hs)
            · exact hspans₁ s hs
        · rcases hsegs.not_across hnext hg with hside | hside
          · exact hfields₁ g hg hglo hside
          · exact hfields₃ g hg hside hghi
      · rintro ⟨hcurR,hspans,hfields⟩
        have hspans₁ : ∀ s ∈ spans₁, s.Right X ρ := fun s hs =>
          hspans s (mem_append_right _ (mem_append_right _ hs))
        have hπR : π.Right X ρ := hπmem.elim (hspans₁ π)
          fun hm => hfields π hm hπlo.ge (hπhi.le.trans hele)
        have hcur'R : ∀ κ ∈ cur', κ.Right X ρ := by
          intro κ hκ
          rcases (hcur' κ hκ).2.2.2 with hm | rfl | rfl
          · exact hspans κ (mem_append_right _ (mem_append_left _ hm))
          · exact hπR
          · exact hright
        intro c hc
        rcases mem_append.mp hc with hc | hc
        · exact h₃.mpr ⟨hcur'R,fun s hs => hspans s (mem_append_left _ hs),
            fun g hg hglo hghi => hfields g hg (by omega) hghi⟩ c hc
        · rcases mem_append.mp hc with hc | hc
          · exact (h₂ hcur'R).mpr ⟨hπR,hcurR⟩ c hc
          · exact (h₁ hπR).mpr ⟨by simp,hspans₁,
              fun g hg hglo hghi => hfields g hg hglo (hghi.trans hele)⟩ c hc

theorem fdBuild_builds (hsegs : Segments cuts W segs)
    (huses : ∀ u ∈ uses, Bounds cuts W u.lo u.hi) (hW : W ≤ 64) (depth : ℕ) :
    Builds rules cuts W base segs fun b e B => fdBuild cuts uses segs depth b e none B := by
  induction depth with
  | zero =>
    intro b e B r B' _ _ _ _ h
    simp [fdBuild] at h
  | succ depth ih =>
    intro b e B r B' hbounds hnarrow hbase hknown h
    simp only [fdBuild] at h
    cases hfind : segs.find? fun s => s.lo = b ∧ s.hi = e with
    | some s =>
      have hs := List.mem_of_find?_eq_some hfind
      have hse : s.lo = b ∧ s.hi = e := by simpa using List.find?_some hfind
      rw [hfind] at h
      obtain ⟨rfl,rfl⟩ := h
      refine ⟨s,[],[],rfl,hse.1,hse.2,hknown s hs,.inr hs,Grows.refl _ _,?_⟩
      intro nodes Γ ρ X _ _ _ _ _ _ hright
      simp only [List.not_mem_nil,false_imp_iff,implies_true,true_iff,Option.not_mem_none,true_and]
      intro g hg hglo hghi
      rwa [hsegs.eq_of_inside hs hg (by omega) (by omega)]
    | none =>
      have hno : ¬ ∃ s ∈ segs, s.lo = b ∧ s.hi = e := by
        rintro ⟨s,hs,hse⟩
        simpa [hse] using List.find?_eq_none.mp hfind s hs
      rw [hfind] at h
      simp only at h
      split_ifs at h with hfull
      simp only [Option.map_eq_some_iff,Prod.mk.injEq] at h
      obtain ⟨B₂,hparts,rfl,rfl⟩ := h
      have hle := hbounds.le
      rw [show e-b+1 = e+1-b by omega] at hparts
      have hvar := Grows.addVar B .aux b e
        (B.words ++ [⟨B.nextId,b,e,(B.p.fdAddVar B.nextId (e+1-b) .aux).1⟩]) hle hnarrow
        fun w hw => by simpa [Problem.fdAddVar,Problem.mkNode] using hw
      have hσ := (hvar.known _ (List.mem_singleton_self _)).mono hbase fun _ _ _ ha => ha
      obtain ⟨spans,cs,hgrow,hsound⟩ := fdParts_spec hsegs huses hW ih
        (σ:=⟨B.nextId,b,e,B.p.nodes.length⟩) rfl rfl hbounds.lt hbounds.hi hno none le_rfl hle
        hbounds.lo (hbase.trans hvar.le_length) hσ
        (fun s hs => hvar.known_mono (hknown s hs)) (by simp) (fun _ _ => rfl)
        (fun _ => rfl) hparts
      refine ⟨⟨B.nextId,b,e,B.p.nodes.length⟩,_,_,rfl,rfl,rfl,hgrow.known_mono hσ,.inl (by simp),
        hvar.trans hgrow,?_⟩
      intro nodes Γ ρ X hk hX hsegsf hspansf hcurf hσf hright
      have h := hsound nodes Γ ρ X hk hX hsegsf
        (fun s hs => hspansf s (mem_append_left _ hs)) hcurf hσf hright
      rw [List.append_nil,h]
      simp [hright,or_imp,forall_and]

theorem fdBuild_word (rules : Rules) (base : ℕ) (hsegs : Segments cuts W segs) (huses : ∀ u ∈ uses, Bounds cuts W u.lo u.hi)
    (hW : W ≤ 64) (hpos : 0 < W) (hno : ¬ ∃ s ∈ segs, s.lo = 0 ∧ s.hi = W-1) {depth v xv r : ℕ}
    {B B' : FdBuild} (hbase : base ≤ B.p.nodes.length) (hknown : ∀ s ∈ segs, s.Known base B.p.nodes)
    (hσ : Span.Known base B.p.nodes ⟨v,0,W-1,xv⟩)
    (h : fdBuild cuts uses segs depth 0 (W-1) (some (xv,v)) B = some (r,B')) :
    ∃ words spans cs, (∀ w ∈ words, w ∈ B.words ∨ w = ⟨v,0,W-1,xv⟩) ∧
      Grows .aux { B with words := words } B' spans cs ∧
      Sound rules W base segs B' spans cs none ⟨v,0,W-1,xv⟩ 0 (W-1) := by
  cases depth with
  | zero => simp [fdBuild] at h
  | succ depth =>
    simp only [fdBuild] at h
    have hfind : (segs.find? fun s => s.lo = 0 ∧ s.hi = W-1) = none := by
      apply List.find?_eq_none.mpr
      intro s hs hse
      exact hno ⟨s,hs,by simpa using hse⟩
    rw [hfind] at h
    simp only [Option.map_eq_some_iff,Prod.mk.injEq] at h
    obtain ⟨B₂,hparts,rfl,rfl⟩ := h
    have hrest : ∀ words, fdParts cuts uses
          (fun b e B => fdBuild cuts uses segs depth b e none B) 0 (W-1) xv (W-1+1-0) 0 none
          { B with words := words } = some B₂ → (∀ w ∈ words, w ∈ B.words ∨ w = ⟨v,0,W-1,xv⟩) →
        ∃ words spans cs, (∀ w ∈ words, w ∈ B.words ∨ w = ⟨v,0,W-1,xv⟩) ∧
          Grows .aux { B with words := words } B₂ spans cs ∧
          Sound rules W base segs B₂ spans cs none ⟨v,0,W-1,xv⟩ 0 (W-1) := by
      intro words hp hwords
      obtain ⟨spans,cs,hgrow,hsound⟩ := fdParts_spec hsegs huses hW
        (fdBuild_builds hsegs huses hW depth) (σ:=⟨v,0,W-1,xv⟩)
        (B:={ B with words := words }) rfl rfl (show W-1 < W by omega) (.inl (show W-1+1 = W by omega)) hno none le_rfl (Nat.zero_le _) (.inl rfl) hbase hσ hknown
        (by simp) (fun _ _ => rfl) (fun _ => rfl) hp
      exact ⟨words,spans,cs,hwords,hgrow,hsound⟩
    split_ifs at hparts
    · apply hrest _ hparts
      intro w hw
      simpa using hw
    · exact hrest B.words hparts fun w hw => .inl hw

theorem fdFields_spec {cuts : ℕ → Bool} {W : ℕ} (hW : W ≤ 64)
    (hcut : ∃ c, 0 < c ∧ c < W ∧ cuts c = true) {n b : ℕ} (hn : W ≤ b+n) (hle : b ≤ W)
    (hb : b = 0 ∨ b = W ∨ cuts b = true) (B : FdBuild) :
    Grows .rand B (fdFields cuts W n b B).2 (fdFields cuts W n b B).1.reverse [] ∧
      (∀ s ∈ (fdFields cuts W n b B).1, b ≤ s.lo ∧ Bounds cuts W s.lo s.hi ∧
        ∀ i, s.lo < i → i ≤ s.hi → cuts i = false) ∧
      (∀ c < W, b ≤ c → (c = b ∨ cuts c = true) → ∃ s ∈ (fdFields cuts W n b B).1, s.lo = c) ∧
      ∀ s ∈ (fdFields cuts W n b B).1, ∀ t ∈ (fdFields cuts W n b B).1, s.lo = t.lo → s = t := by
  induction n generalizing b B with
  | zero =>
    simp only [fdFields]
    refine ⟨Grows.refl _ _,by simp,fun c hc hbc _ => ?_,by simp⟩
    omega
  | succ n ih =>
    rw [fdFields]
    split_ifs with hlt
    · obtain ⟨h₁,h₂,h₃,h₄⟩ := fdEnd_spec cuts (show W-1 ≤ b+64 by omega) (show b ≤ W-1 by omega)
      generalize fdEnd cuts (W-1) 64 b = e at h₁ h₂ h₃ h₄
      have hbounds : Bounds cuts W b e := by
        refine ⟨h₁,by omega,?_,?_⟩
        · rcases hb with hb | hb | hb
          · exact .inl hb
          · omega
          · exact .inr hb
        · rcases h₄ with h₄ | h₄
          · exact .inl (by omega)
          · exact .inr h₄
      have hnarrow : e+1-b ≤ 63 := by
        by_contra hcon
        obtain ⟨c,hc0,hcW,hc⟩ := hcut
        have := h₃ c (by omega) (by omega)
        simp [hc] at this
      have hvar := Grows.addVar B .rand b e B.words h₁ hnarrow fun w hw => .inl hw
      obtain ⟨hgrow,hall,hstart,huniq⟩ := ih (b:=e+1) (by omega) (by omega)
        (hbounds.hi.elim (fun h => .inr (.inl h)) fun h => .inr (.inr h))
        ⟨(B.p.fdAddVar B.nextId (e+1-b) .rand).2,B.nextId+1,B.words⟩
      simp only [List.reverse_cons,List.mem_cons,forall_eq_or_imp]
      refine ⟨hvar.trans hgrow,⟨⟨le_rfl,hbounds,h₃⟩,fun s hs => ?_⟩,fun c hc hbc hcut => ?_,
        ⟨fun _ => trivial,fun t ht heq => ?_⟩,fun s hs => ⟨fun heq => ?_,huniq s hs⟩⟩
      · obtain ⟨hlo,hrest⟩ := hall s hs
        exact ⟨by omega,hrest⟩
      · by_cases hcb : c = b
        · exact ⟨_,.inl rfl,hcb.symm⟩
        · have hcc := hcut.resolve_left hcb
          have hce : e+1 ≤ c := by
            by_contra hcon
            have := h₃ c (by omega) (by omega)
            simp [hcc] at this
          obtain ⟨s,hs,hslo⟩ := hstart c hc hce (.inr hcc)
          exact ⟨s,.inr hs,hslo⟩
      · have := (hall t ht).1
        omega
      · have := (hall s hs).1
        omega
    · refine ⟨Grows.refl _ _,by simp,fun c hc hbc _ => ?_,by simp⟩
      omega

end Fields
end DvSolve
