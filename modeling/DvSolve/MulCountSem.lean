import DvSolve.MulCount

/-! What the count of the solutions left is worth. Every solution is counted; the count is
exact when nothing the scan passes over rules one out. -/
namespace DvSolve
namespace MulCount

open Solver
open BitVec (ofInt_natCast ofNat)
open List (mem_cons)

variable {s : CountCtx}
variable {i : ℕ}

def PropEntry.states (p : PropEntry) (ρ : ℕ → ℤ) : Prop :=
  match p.kind with
  | .boundsEq x y => ρ x = ρ y
  | .bvmul r a b width => (2 : ℤ)^width ∣ ρ a * ρ b - ρ r
  | .diffcycle rel | .other rel => rel ρ

def PropEntry.holds (p : PropEntry) (ρ : ℕ → ℤ) : Prop := (∀ g ∈ p.guard, ρ g ≠ 0) → p.states ρ

def Root (s : CountCtx) (i : ℕ) : Prop := i < s.nVars ∧ s.varAlias i = i

instance (s : CountCtx) (i : ℕ) : Decidable (Root s i) :=
  inferInstanceAs (Decidable (i < s.nVars ∧ s.varAlias i = i))

/-- Values for the variables of their own, within their domains, not excluded, that satisfy
every propagator; the others have no value. -/
structure Solves (s : CountCtx) (ρ : ℕ → ℤ) : Prop where
  rest : ∀ i, ¬Root s i → ρ i = 0
  dom : ∀ i, Root s i → (s.vars i).least ≤ ρ i ∧ ρ i ≤ (s.vars i).most
  hole : ∀ i, Root s i → BitVec.ofInt 64 (ρ i) ∉ s.holes i
  props : ∀ p ∈ s.props, p.holds ρ

/-- What the compile sees to: propagators, guards and links are over variables of their own, a
relation is one on the variables watched, a product and the bounds equality of an extension with
its source have no guard, the cycle detector states nothing new, and holes are kept in order. -/
structure CountCtx.Ok (s : CountCtx) : Prop where
  vars : ∀ i, Root s i → (s.vars i).Ok
  roots : ∀ p ∈ s.props, ∀ x ∈ p.watched, Root s x
  guards : ∀ p ∈ s.props, ∀ g ∈ p.guard, Root s g
  frame : ∀ p ∈ s.props, ∀ ρ ρ' : ℕ → ℤ, (∀ x ∈ p.watched, ρ x = ρ' x) → p.states ρ → p.states ρ'
  eq : ∀ p ∈ s.props, ∀ x y, p.kind = .boundsEq x y → p.watched = [x,y]
  link : ∀ m ∈ s.mulLinks, s.props[m.prop]? = some ⟨.bvmul m.r m.a m.b m.width,[m.r,m.a,m.b],none⟩
  memo : ∀ m ∈ s.extMemo, ∃ p ∈ s.props, p.kind = .boundsEq m.r m.src ∧ p.guard = none
  cycle : ∀ p ∈ s.props, ∀ rel, p.kind = .diffcycle rel → ∀ ρ,
    (∀ q ∈ s.props, (∀ rel', q.kind ≠ .diffcycle rel') → q.holds ρ) → rel ρ
  sorted : ∀ i, (s.holes i).Pairwise fun a b => a.toInt < b.toInt
  divisors : s.divisors.Ok

def PropEntry.Enforced (s : CountCtx) (p : PropEntry) : Prop :=
  ∀ g ∈ p.guard, isFixed s g = true ∧ (s.vars g).least ≠ 0

/-- A propagation fixpoint: no domain is empty, and of the propagators that are enforced both
ends of a bounds equality have the same bounds, and one with no free variable left is
satisfied. -/
structure AtFixpoint (s : CountCtx) : Prop where
  dom : ∀ i, Root s i → (s.vars i).least ≤ (s.vars i).most
  eq : ∀ p ∈ s.props, p.Enforced s → ∀ x y, p.kind = .boundsEq x y →
    (s.vars x).least = (s.vars y).least ∧ (s.vars x).most = (s.vars y).most
  done : ∀ p ∈ s.props, p.Enforced s → (∀ x ∈ p.watched, isFixed s x = true) →
    p.states fun x => (s.vars x).least

theorem enforced_none {p : PropEntry} (h : p.guard = none) : p.Enforced s := by
  intro g hg
  rw [h] at hg
  cases hg

theorem scanHoles_iff {value : BitVec 64} {hs : List (BitVec 64)}
    (h : hs.Pairwise fun a b => a.toInt < b.toInt) : scanHoles value hs = true ↔ value ∈ hs := by
  induction hs with
  | nil => simp [scanHoles]
  | cons x hs ih =>
    obtain ⟨hx,hs'⟩ := List.pairwise_cons.mp h
    rw [scanHoles,mem_cons]
    split_ifs with heq hlt
    · simp [heq]
    · -- all later holes are greater still
      rw [BitVec.slt_iff_toInt_lt] at hlt
      refine iff_of_false (by simp) ?_
      rintro (rfl | hv)
      · exact heq rfl
      · exact absurd (hx _ hv) (by omega)
    · rw [ih hs']
      exact ⟨.inr,fun h => h.resolve_left fun h => heq h.symm⟩

theorem isHole_iff (hok : s.Ok) (i : ℕ) (v : BitVec 64) : isHole s i v = true ↔ v ∈ s.holes i :=
  scanHoles_iff (hok.sorted i)

theorem valueSrcFrom_spec {memo : List ExtMemo} {P : ℕ → ℕ → Prop} (hrefl : ∀ i, P i i)
    (htrans : ∀ i j k, P i j → P j k → P i k) (hmemo : ∀ m ∈ memo, P m.r m.src) (hop id : ℕ) :
    P id (valueSrcFrom memo hop id) := by
  induction hop generalizing id with
  | zero => exact hrefl id
  | succ hop ih =>
    rw [valueSrcFrom]
    cases hm : memo.find? (fun m => m.r = id) with
    | none => exact hrefl id
    | some m =>
      obtain rfl : m.r = id := by simpa using List.find?_some hm
      exact htrans _ _ _ (hmemo m (List.mem_of_find?_eq_some hm)) (ih m.src)

theorem valueSrc_same (hok : s.Ok) (hfix : AtFixpoint s) (i : ℕ) :
    (s.vars (valueSrc s i)).least = (s.vars i).least ∧ (s.vars (valueSrc s i)).most = (s.vars i).most ∧
      (∀ ρ, Solves s ρ → ρ (valueSrc s i) = ρ i) ∧ (Root s i → Root s (valueSrc s i)) := by
  refine valueSrcFrom_spec (P := fun i j => (s.vars j).least = (s.vars i).least ∧
    (s.vars j).most = (s.vars i).most ∧ (∀ ρ, Solves s ρ → ρ j = ρ i) ∧ (Root s i → Root s j))
    (fun i => ⟨rfl,rfl,fun _ _ => rfl,fun h => h⟩) ?_ (fun m hm => ?_) 8 i
  · rintro i j k ⟨h1,h2,h3,h4⟩ ⟨h5,h6,h7,h8⟩
    exact ⟨h5.trans h1,h6.trans h2,fun ρ hρ => (h7 ρ hρ).trans (h3 ρ hρ),fun h => h8 (h4 h)⟩
  · obtain ⟨p,hp,hk,hg⟩ := hok.memo m hm
    obtain ⟨h1,h2⟩ := hfix.eq p hp (enforced_none hg) _ _ hk
    refine ⟨h1.symm,h2.symm,fun ρ hρ => ?_,fun _ => ?_⟩
    · have hh := hρ.props p hp (by simp [hg])
      rw [PropEntry.states,hk] at hh
      exact hh.symm
    · exact hok.roots p hp _ (by rw [hok.eq p hp _ _ hk]; simp)

theorem fixed_iff (i : ℕ) : isFixed s i = true ↔ (s.vars i).least = (s.vars i).most := by
  rw [isFixed,decide_eq_true_eq,Variable.least,Variable.most]
  exact ⟨fun h => by rw [h],varOrd_inj⟩

theorem Solves.fixed {ρ : ℕ → ℤ} (h : Solves s ρ) (hi : Root s i)
    (hf : isFixed s i = true) : ρ i = (s.vars i).least := by
  have hd := h.dom i hi
  have heq := (fixed_iff i).mp hf
  omega

theorem findProduct_spec (ms : List MulLink) (acc : Option MulLink) {ml : MulLink}
    (h : findProduct s ms acc = some (some ml)) :
    acc = some ml ∨ ml ∈ ms ∧ ml.a ≠ ml.b ∧ isFixed s ml.r = true ∧ isFixed s ml.a = false ∧
      isFixed s ml.b = false := by
  induction ms generalizing acc with
  | nil =>
    rw [findProduct] at h
    exact .inl (by simpa using h)
  | cons m ms ih =>
    rw [findProduct] at h
    split_ifs at h with hskip hsome
    · exact (ih acc h).imp_right fun hr => ⟨List.mem_cons_of_mem m hr.1,hr.2⟩
    · rcases ih _ h with hm | hr
      · obtain rfl : m = ml := by simpa using hm
        simp only [not_or,Bool.not_eq_true] at hskip
        refine .inr ⟨by simp,hskip.1,?_,hskip.2.2.1,hskip.2.2.2⟩
        simpa using hskip.2.1
      · exact .inr ⟨List.mem_cons_of_mem m hr.1,hr.2⟩

structure LeftProduct (s : CountCtx) (ml : MulLink) : Prop where
  mem : ml ∈ s.mulLinks
  fixed : isFixed s ml.r = true
  freeA : isFixed s ml.a = false
  freeB : isFixed s ml.b = false
  split : valueSrc s ml.a ≠ valueSrc s ml.b
  copies : ∀ i, Root s i → isFixed s i = false →
    valueSrc s i = valueSrc s ml.a ∨ valueSrc s i = valueSrc s ml.b
  props : ∀ p ∈ s.props, p.kind = .bvmul ml.r ml.a ml.b ml.width ∨
    (∀ x ∈ p.watched, isFixed s x = true) ∨ p.prunesNothing = true

theorem leftProduct_of {ml : MulLink} (hok : s.Ok)
    (hml : findProduct s s.mulLinks none = some (some ml))
    (hsplit : valueSrc s ml.a ≠ valueSrc s ml.b)
    (hcopies : onlyCopies s (valueSrc s ml.a) (valueSrc s ml.b) = true)
    (hprops : onlyProduct s ml.prop = true) : LeftProduct s ml := by
  obtain hacc | ⟨hmem,_,hr,ha,hb⟩ := findProduct_spec _ _ hml
  · cases hacc
  refine ⟨hmem,hr,ha,hb,hsplit,fun i hi hfree => ?_,fun p hp => ?_⟩
  · have hall := List.all_eq_true.mp hcopies i (List.mem_range.mpr hi.1)
    simpa [hi.2,hfree] using hall
  · obtain ⟨j,hj,rfl⟩ := List.getElem_of_mem hp
    have hall := List.all_eq_true.mp hprops (s.props[j],j) (by
      rw [List.mk_mem_zipIdx_iff_getElem?]
      exact List.getElem?_eq_getElem hj)
    simp only [Bool.or_eq_true,decide_eq_true_eq,List.all_eq_true] at hall
    rcases hall with (heq | hall) | hall
    · have hl := hok.link ml hmem
      rw [← heq,List.getElem?_eq_getElem hj] at hl
      exact .inl (by rw [Option.some.inj hl])
    · exact .inr (.inl hall)
    · exact .inr (.inr hall)

structure Pair (s : CountCtx) (ml : MulLink) (d e : ℕ) : Prop where
  mul : (d*e : ℤ) = (s.vars ml.r).least
  a : (s.vars ml.a).least ≤ d ∧ d ≤ (s.vars ml.a).most
  b : (s.vars ml.b).least ≤ e ∧ e ≤ (s.vars ml.b).most
  holeA : ∀ i ∈ [ml.a,valueSrc s ml.a], ofNat 64 d ∉ s.holes i
  holeB : ∀ i ∈ [ml.b,valueSrc s ml.b], ofNat 64 e ∉ s.holes i

def spread (s : CountCtx) (ml : MulLink) (d e : ℤ) (i : ℕ) : ℤ :=
  if Root s i then
    if isFixed s i then (s.vars i).least
    else if valueSrc s i = valueSrc s ml.a then d
    else e
  else 0

/-- Nothing the scan passes over rules a counted solution out: no variable is left with an
excluded value only; and when a product is left, no pair of factors meets an exclusion of
another copy of an operand, an enforced bounds equality between copies of the two, or what a
propagator states whose guard is one of the free copies. -/
structure Unhindered (s : CountCtx) : Prop where
  fixed : ∀ i, Root s i → isFixed s i = true → varLo64 (s.vars i) ∉ s.holes i
  copyA : ∀ ml, LeftProduct s ml → ∀ d e, Pair s ml d e → ∀ i, Root s i → isFixed s i = false →
    valueSrc s i = valueSrc s ml.a → ofNat 64 d ∉ s.holes i
  copyB : ∀ ml, LeftProduct s ml → ∀ d e, Pair s ml d e → ∀ i, Root s i → isFixed s i = false →
    valueSrc s i = valueSrc s ml.b → ofNat 64 e ∉ s.holes i
  eq : ∀ ml, LeftProduct s ml → ∀ d e, Pair s ml d e → ∀ p ∈ s.props, p.Enforced s → ∀ x y,
    p.kind = .boundsEq x y → isFixed s x = false →
    (valueSrc s x = valueSrc s ml.a ∧ valueSrc s y = valueSrc s ml.b ∨
      valueSrc s x = valueSrc s ml.b ∧ valueSrc s y = valueSrc s ml.a) → d = e
  guard : ∀ ml, LeftProduct s ml → ∀ d e, Pair s ml d e → ∀ p ∈ s.props, ∀ g ∈ p.guard,
    isFixed s g = false → p.states (spread s ml d e)

section Product

variable {ml : MulLink} {d e : ℕ}

theorem LeftProduct.roots (h : LeftProduct s ml) (hok : s.Ok) :
    Root s ml.r ∧ Root s ml.a ∧ Root s ml.b := by
  have hp := List.mem_of_getElem? (hok.link ml h.mem)
  exact ⟨hok.roots _ hp _ (by simp),hok.roots _ hp _ (by simp),hok.roots _ hp _ (by simp)⟩

theorem ofInt_least (v : Variable) : BitVec.ofInt 64 v.least = varLo64 v := by
  rw [Variable.least]
  unfold varOrd
  split_ifs
  · rw [ofInt_natCast,BitVec.ofNat_toNat,BitVec.setWidth_eq]
  · exact BitVec.ofInt_toInt

theorem Solves.spread (hok : s.Ok) (hfix : AtFixpoint s) (h : LeftProduct s ml) {ρ : ℕ → ℤ}
    (hρ : Solves s ρ) : ρ = spread s ml (ρ ml.a) (ρ ml.b) := by
  obtain ⟨_,ha,hb⟩ := h.roots hok
  funext i
  unfold MulCount.spread
  split_ifs with hi hf hsrc
  · exact hρ.fixed hi hf
  · rw [← (valueSrc_same hok hfix i).2.2.1 ρ hρ,hsrc,(valueSrc_same hok hfix ml.a).2.2.1 ρ hρ]
  · have hsrc' := (h.copies i hi (by simpa using hf)).resolve_left hsrc
    rw [← (valueSrc_same hok hfix i).2.2.1 ρ hρ,hsrc',(valueSrc_same hok hfix ml.b).2.2.1 ρ hρ]
  · exact hρ.rest i hi

theorem spread_a (hok : s.Ok) (h : LeftProduct s ml) (x y : ℤ) : spread s ml x y ml.a = x := by
  obtain ⟨_,ha,_⟩ := h.roots hok
  simp [spread,ha,h.freeA]

theorem spread_b (hok : s.Ok) (h : LeftProduct s ml) (x y : ℤ) : spread s ml x y ml.b = y := by
  obtain ⟨_,_,hb⟩ := h.roots hok
  simp [spread,hb,h.freeB,h.split.symm]

theorem spread_fixed (x y : ℤ) (hi : Root s i) (hf : isFixed s i = true) :
    spread s ml x y i = (s.vars i).least := by
  simp [spread,hi,hf]

theorem spread_left (x y : ℤ) (hi : Root s i) (hf : isFixed s i = false)
    (hs : valueSrc s i = valueSrc s ml.a) : spread s ml x y i = x := by
  simp [spread,hi,hf,hs]

theorem spread_right (h : LeftProduct s ml) (x y : ℤ) (hi : Root s i)
    (hf : isFixed s i = false) (hs : valueSrc s i = valueSrc s ml.b) :
    spread s ml x y i = y := by
  simp [spread,hi,hf,hs,h.split.symm]

theorem eq_fixed (hfix : AtFixpoint s) {p : PropEntry} (hp : p ∈ s.props) (hen : p.Enforced s)
    {x y : ℕ} (hk : p.kind = .boundsEq x y) : isFixed s x = isFixed s y := by
  obtain ⟨h1,h2⟩ := hfix.eq p hp hen x y hk
  rw [Bool.eq_iff_iff,fixed_iff,fixed_iff,h1,h2]

theorem Pair.solves (hok : s.Ok) (hfix : AtFixpoint s) (hun : Unhindered s)
    (h : LeftProduct s ml) (hpair : Pair s ml d e) : Solves s (spread s ml d e) := by
  obtain ⟨hr,ha,hb⟩ := h.roots hok
  -- a domain of a copy is that of the operand
  have hdomA : ∀ i, valueSrc s i = valueSrc s ml.a → (s.vars i).least = (s.vars ml.a).least ∧
      (s.vars i).most = (s.vars ml.a).most := by
    intro i hi
    have h1 := valueSrc_same hok hfix i
    have h2 := valueSrc_same hok hfix ml.a
    rw [hi] at h1
    exact ⟨h1.1.symm.trans h2.1,h1.2.1.symm.trans h2.2.1⟩
  have hdomB : ∀ i, valueSrc s i = valueSrc s ml.b → (s.vars i).least = (s.vars ml.b).least ∧
      (s.vars i).most = (s.vars ml.b).most := by
    intro i hi
    have h1 := valueSrc_same hok hfix i
    have h2 := valueSrc_same hok hfix ml.b
    rw [hi] at h1
    exact ⟨h1.1.symm.trans h2.1,h1.2.1.symm.trans h2.2.1⟩
  -- every propagator that is not the cycle detector
  have hplain : ∀ p ∈ s.props, (∀ rel, p.kind ≠ .diffcycle rel) → p.holds (spread s ml d e) := by
    intro p hp hno hguard
    by_cases hfree : ∃ g ∈ p.guard, isFixed s g = false
    · obtain ⟨g,hg,hf⟩ := hfree
      exact hun.guard ml h d e hpair p hp g hg hf
    have hen : p.Enforced s := by
      intro g hg
      have hf : isFixed s g = true := by
        by_contra hf
        exact hfree ⟨g,hg,by simpa using hf⟩
      have hne := hguard g hg
      rw [spread_fixed _ _ (hok.guards p hp g hg) hf] at hne
      exact ⟨hf,hne⟩
    rcases h.props p hp with hmul | hall | hprune
    · rw [PropEntry.states,hmul]
      simp only
      rw [spread_a hok h,spread_b hok h,spread_fixed _ _ hr h.fixed,hpair.mul,sub_self]
      exact dvd_zero _
    · refine hok.frame p hp _ _ (fun x hx => ?_) (hfix.done p hp hen hall)
      exact (spread_fixed _ _ (hok.roots p hp x hx) (hall x hx)).symm
    · unfold PropEntry.prunesNothing at hprune
      cases hk : p.kind with
      | boundsEq x y =>
        rw [PropEntry.states,hk]
        simp only
        have hw := hok.eq p hp x y hk
        have hx := hok.roots p hp x (by rw [hw]; simp)
        have hy := hok.roots p hp y (by rw [hw]; simp)
        have hxy := eq_fixed hfix hp hen hk
        cases hfx : isFixed s x with
        | true =>
          rw [spread_fixed _ _ hx hfx,spread_fixed _ _ hy (hxy ▸ hfx)]
          exact (hfix.eq p hp hen x y hk).1
        | false =>
          have hfy : isFixed s y = false := hxy ▸ hfx
          have hne := hun.eq ml h d e hpair p hp hen x y hk hfx
          rcases h.copies x hx hfx with hsx | hsx <;> rcases h.copies y hy hfy with hsy | hsy
          · rw [spread_left _ _ hx hfx hsx,spread_left _ _ hy hfy hsy]
          · rw [spread_left _ _ hx hfx hsx,spread_right h _ _ hy hfy hsy,hne (.inl ⟨hsx,hsy⟩)]
          · rw [spread_right h _ _ hx hfx hsx,spread_left _ _ hy hfy hsy,hne (.inr ⟨hsx,hsy⟩)]
          · rw [spread_right h _ _ hx hfx hsx,spread_right h _ _ hy hfy hsy]
      | diffcycle rel => exact absurd hk (hno rel)
      | bvmul | other => simp [hk] at hprune
  refine ⟨fun i hi => by simp [spread,hi],fun i hi => ?_,fun i hi => ?_,fun p hp => ?_⟩
  · cases hf : isFixed s i with
    | true =>
      rw [spread_fixed _ _ hi hf]
      exact ⟨le_rfl,((fixed_iff i).mp hf).le⟩
    | false =>
      rcases h.copies i hi hf with hs | hs
      · rw [spread_left _ _ hi hf hs,(hdomA i hs).1,(hdomA i hs).2]
        exact hpair.a
      · rw [spread_right h _ _ hi hf hs,(hdomB i hs).1,(hdomB i hs).2]
        exact hpair.b
  · cases hf : isFixed s i with
    | true =>
      rw [spread_fixed _ _ hi hf,ofInt_least]
      exact hun.fixed i hi hf
    | false =>
      rcases h.copies i hi hf with hs | hs
      · rw [spread_left _ _ hi hf hs,ofInt_natCast]
        exact hun.copyA ml h d e hpair i hi hf hs
      · rw [spread_right h _ _ hi hf hs,ofInt_natCast]
        exact hun.copyB ml h d e hpair i hi hf hs
  · cases hk : p.kind with
    | diffcycle rel =>
      intro _
      rw [PropEntry.states,hk]
      exact hok.cycle p hp rel hk _ hplain
    | boundsEq x y => exact hplain p hp (by simp [hk])
    | bvmul r a b w => exact hplain p hp (by simp [hk])
    | other rel => exact hplain p hp (by simp [hk])

theorem Pair.unhindered (hok : s.Ok) (h : LeftProduct s ml) (hsol : Solves s (spread s ml d e))
    (hd : d ≠ 0) (he : e ≠ 0) :
    (∀ i, Root s i → isFixed s i = false → valueSrc s i = valueSrc s ml.a → ofNat 64 d ∉ s.holes i) ∧
    (∀ i, Root s i → isFixed s i = false → valueSrc s i = valueSrc s ml.b → ofNat 64 e ∉ s.holes i) ∧
    (∀ p ∈ s.props, p.Enforced s → ∀ x y, p.kind = .boundsEq x y → isFixed s x = false →
      isFixed s y = false → (valueSrc s x = valueSrc s ml.a ∧ valueSrc s y = valueSrc s ml.b ∨
        valueSrc s x = valueSrc s ml.b ∧ valueSrc s y = valueSrc s ml.a) → d = e) ∧
    ∀ p ∈ s.props, ∀ g ∈ p.guard, isFixed s g = false → p.states (spread s ml d e) := by
  refine ⟨fun i hi hf hs => ?_,fun i hi hf hs => ?_,fun p hp hen x y hk hfx hfy hs => ?_,
    fun p hp g hg hf => hsol.props p hp fun g' hg' => ?_⟩
  · have hh := hsol.hole i hi
    rwa [spread_left _ _ hi hf hs,ofInt_natCast] at hh
  · have hh := hsol.hole i hi
    rwa [spread_right h _ _ hi hf hs,ofInt_natCast] at hh
  · have hw := hok.eq p hp x y hk
    have hx := hok.roots p hp x (by rw [hw]; simp)
    have hy := hok.roots p hp y (by rw [hw]; simp)
    have hh := hsol.props p hp fun g hg => by
      rw [spread_fixed _ _ (hok.guards p hp g hg) (hen g hg).1]
      exact (hen g hg).2
    rw [PropEntry.states,hk] at hh
    simp only at hh
    rcases hs with ⟨hsx,hsy⟩ | ⟨hsx,hsy⟩
    · rw [spread_left _ _ hx hfx hsx,spread_right h _ _ hy hfy hsy] at hh
      exact_mod_cast hh
    · rw [spread_right h _ _ hx hfx hsx,spread_left _ _ hy hfy hsy] at hh
      exact_mod_cast hh.symm
  · obtain rfl : g = g' := Option.mem_unique hg hg'
    have hr := hok.guards p hp g hg
    rcases h.copies g hr hf with hs | hs
    · rw [spread_left _ _ hr hf hs]
      exact_mod_cast hd
    · rw [spread_right h _ _ hr hf hs]
      exact_mod_cast he

end Product

theorem unsigned_bounds (hok : s.Ok) (hfix : AtFixpoint s) (hi : Root s i)
    (hs : (s.vars i).signed = false) :
    (s.vars i).least = (varLo64 (s.vars i)).toNat ∧ (s.vars i).most = (varHi64 (s.vars i)).toNat := by
  have hv := hok.vars i hi
  have hbot : (0 : ℤ) ≤ (s.vars i).least := by
    have hb := hv.bot
    rwa [Variable.bot,hs,if_neg (by simp)] at hb
  have hmost := hbot.trans (hfix.dom i hi)
  cases hb : (s.vars i).beyond with
  | true => exact ⟨varOrd_beyond hb _,varOrd_beyond hb _⟩
  | false =>
    rw [Variable.least,varOrd_plain hb] at hbot
    rw [Variable.most,varOrd_plain hb] at hmost
    rw [Variable.least,Variable.most,varOrd_plain hb,varOrd_plain hb]
    refine ⟨?_,?_⟩
    · rw [BitVec.toInt_eq_toNat_cond] at hbot ⊢
      split_ifs at hbot ⊢ with h1
      · rfl
      · have := (varLo64 (s.vars i)).isLt
        omega
    · rw [BitVec.toInt_eq_toNat_cond] at hmost ⊢
      split_ifs at hmost ⊢ with h1
      · rfl
      · have := (varHi64 (s.vars i)).isLt
        omega

theorem cofactor_iff {K d blo bhi alo ahi : ℕ} (hK : K ≠ 0) (hd : d ∣ K) (hb : bhi ≠ 0) :
    ((if K/bhi + (if K % bhi ≠ 0 then 1 else 0) < alo then alo
        else K/bhi + if K % bhi ≠ 0 then 1 else 0) ≤ d ∧
      d ≤ if (if blo ≠ 0 then K/blo else ahi) > ahi then ahi else if blo ≠ 0 then K/blo else ahi) ↔
    (alo ≤ d ∧ d ≤ ahi) ∧ blo ≤ K/d ∧ K/d ≤ bhi := by
  have hd0 : 0 < d := Nat.pos_of_dvd_of_pos hd (Nat.pos_of_ne_zero hK)
  have hmul : K/d*d = K := Nat.div_mul_cancel hd
  -- the lower end is the quotient rounded up
  have hlow : K/bhi + (if K % bhi ≠ 0 then 1 else 0) ≤ d ↔ K/d ≤ bhi := by
    have hdiv := Nat.div_add_mod K bhi
    have hmod := Nat.mod_lt K (Nat.pos_of_ne_zero hb)
    constructor
    · intro h
      by_contra hlt
      have h1 : bhi+1 ≤ K/d := by omega
      have h2 : (bhi+1)*d ≤ K := hmul ▸ Nat.mul_le_mul_right d h1
      rw [add_mul,one_mul] at h2
      split_ifs at h with hr
      · have h3 := Nat.mul_le_mul_left bhi h
        rw [mul_add,mul_one] at h3
        omega
      · have h3 := Nat.mul_le_mul_left bhi h
        rw [mul_add,mul_zero] at h3
        omega
    · intro h
      have h1 : K ≤ bhi*d := hmul ▸ Nat.mul_le_mul_right d h
      split_ifs with hr
      · by_contra hlt
        have h2 : d ≤ K/bhi := by omega
        have h3 : bhi*d ≤ bhi*(K/bhi) := Nat.mul_le_mul_left bhi h2
        omega
      · exact Nat.div_le_of_le_mul h1
  have hup : blo ≠ 0 → (d ≤ K/blo ↔ blo ≤ K/d) := by
    intro h0
    rw [Nat.le_div_iff_mul_le (Nat.pos_of_ne_zero h0),Nat.le_div_iff_mul_le hd0,Nat.mul_comm]
  have hlo : (if K/bhi + (if K % bhi ≠ 0 then 1 else 0) < alo then alo
      else K/bhi + if K % bhi ≠ 0 then 1 else 0) ≤ d ↔ alo ≤ d ∧ K/d ≤ bhi := by
    rw [← hlow]
    split_ifs <;> omega
  have hhi : (d ≤ if (if blo ≠ 0 then K/blo else ahi) > ahi then ahi
      else if blo ≠ 0 then K/blo else ahi) ↔ d ≤ ahi ∧ blo ≤ K/d := by
    by_cases h0 : blo ≠ 0
    · rw [← hup h0,if_pos h0]
      split_ifs <;> omega
    · obtain rfl : blo = 0 := not_not.mp h0
      rw [if_neg h0]
      simp only [Nat.zero_le,and_true]
      split_ifs <;> omega
  rw [hlo,hhi]
  tauto

theorem countPairs_spec {ml : MulLink} {bound n : ℕ} {dv : Numth.Divisors} (hok : s.Ok)
    (hfix : AtFixpoint s) (h : LeftProduct s ml)
    (ht : Numth.Tested (varLo64 (s.vars ml.r)).toNat)
    (hc : countPairs s ml (valueSrc s ml.a) (valueSrc s ml.b) bound = some (dv,n)) (hn : 0 < n) :
    (∃ D : Finset ℕ, D.card = n ∧ ∀ d, d ∈ D ↔ ∃ e, Pair s ml d e) ∧
      0 ≤ (s.vars ml.a).least ∧ 0 ≤ (s.vars ml.b).least ∧ 0 < (s.vars ml.r).least ∧
      (s.vars ml.a).most * (s.vars ml.b).most < 2^ml.width := by
  obtain ⟨hr,ha,hb⟩ := h.roots hok
  have hzero : ∀ d : Numth.Divisors, some (d,0) ≠ some (dv,n) := by
    intro d heq
    obtain ⟨_,rfl⟩ : d = dv ∧ 0 = n := by simpa using heq
    exact absurd hn (lt_irrefl 0)
  simp only [countPairs] at hc
  rw [ite_eq_iff] at hc
  obtain ⟨_,hc⟩ | ⟨hsign,hc⟩ := hc
  · exact absurd hc (hzero _)
  simp only [not_or,Bool.not_eq_true] at hsign
  obtain ⟨hr1,_⟩ := unsigned_bounds hok hfix hr hsign.1
  obtain ⟨ha1,ha2⟩ := unsigned_bounds hok hfix ha hsign.2.1
  obtain ⟨hb1,hb2⟩ := unsigned_bounds hok hfix hb hsign.2.2
  generalize hKdef : (varLo64 (s.vars ml.r)).toNat = K at hc hr1 ht
  generalize (varLo64 (s.vars ml.a)).toNat = alo at hc ha1
  generalize (varHi64 (s.vars ml.a)).toNat = ahi at hc ha2
  generalize (varLo64 (s.vars ml.b)).toNat = blo at hc hb1
  generalize (varHi64 (s.vars ml.b)).toNat = bhi at hc hb2
  rw [ite_eq_iff] at hc
  obtain ⟨_,hc⟩ | ⟨hwrap,hc⟩ := hc
  · exact absurd hc (hzero _)
  rw [not_or,not_or,not_and_or,not_not,not_lt] at hwrap
  obtain ⟨hK,hbhi,hmask⟩ := hwrap
  rw [ite_eq_iff] at hc
  obtain ⟨_,hc⟩ | ⟨_,hc⟩ := hc
  · exact absurd hc (hzero _)
  obtain ⟨⟨d',k⟩,hdiv,hc⟩ := Option.map_eq_some_iff.mp hc
  simp only at hc
  by_cases hk : k = 0
  · rw [if_pos hk] at hc
    exact absurd (congrArg some hc) (hzero _)
  rw [if_neg hk] at hc
  obtain ⟨hd'ok,hlists⟩ := Numth.dvsDivisors_spec hok.divisors ht hdiv
  have hl := (hlists hk).1
  obtain ⟨_,hcount⟩ := Prod.mk.inj hc
  refine ⟨?_,by rw [ha1]; positivity,by rw [hb1]; positivity,by rw [hr1]; omega,?_⟩
  · set L := if K/bhi + (if K % bhi ≠ 0 then 1 else 0) < alo then alo
      else K/bhi + if K % bhi ≠ 0 then 1 else 0 with hL
    set U := if (if blo ≠ 0 then K/blo else ahi) > ahi then ahi
      else if blo ≠ 0 then K/blo else ahi with hU
    set T := (d'.divs.take (Numth.divisorsUpper d' U)).drop (Numth.divisorsLower d' L) with hT
    have hTnodup : T.Nodup :=
      (hl.nodup.sublist (List.take_sublist _ _)).sublist (List.drop_sublist _ _)
    have hTmem : ∀ d, d ∈ T ↔ d ∣ K ∧ (alo ≤ d ∧ d ≤ ahi) ∧ blo ≤ K/d ∧ K/d ≤ bhi := by
      intro d
      rw [hT,Numth.mem_between hd'ok.sorted,hl.mem]
      refine and_congr_right fun hd => ?_
      rw [hL,hU]
      exact cofactor_iff hK hd hbhi
    rw [List.countP_eq_length_filter] at hcount
    refine ⟨(T.filter _).toFinset,(List.toFinset_card_of_nodup (hTnodup.filter _)).trans hcount,
      fun d => ?_⟩
    rw [List.mem_toFinset,List.mem_filter,hTmem]
    simp only [Bool.and_eq_true,Bool.not_eq_true',← Bool.not_eq_true,isHole_iff hok]
    constructor
    · rintro ⟨⟨hdvd,hda,hdb⟩,⟨⟨h1,h2⟩,h3⟩,h4⟩
      refine ⟨K/d,⟨?_,?_,?_,?_,?_⟩⟩
      · rw [hr1]
        exact_mod_cast Nat.mul_div_cancel' hdvd
      · rw [ha1,ha2]
        exact_mod_cast hda
      · rw [hb1,hb2]
        exact_mod_cast hdb
      · simpa using ⟨h1,h2⟩
      · simpa using ⟨h3,h4⟩
    · rintro ⟨e,hp⟩
      have hmul : d*e = K := by
        have hm := hp.mul
        rw [hr1] at hm
        exact_mod_cast hm
      have hd0 : 0 < d := Nat.pos_of_ne_zero fun h0 => hK (by rw [← hmul,h0,zero_mul])
      have he : K/d = e := by rw [← hmul,Nat.mul_div_cancel_left e hd0]
      have hpa := hp.a
      have hpb := hp.b
      rw [ha1,ha2] at hpa
      rw [hb1,hb2] at hpb
      rw [he]
      refine ⟨⟨⟨e,hmul.symm⟩,⟨by exact_mod_cast hpa.1,by exact_mod_cast hpa.2⟩,
        by exact_mod_cast hpb.1,by exact_mod_cast hpb.2⟩,⟨⟨?_,?_⟩,?_⟩,?_⟩
      · exact hp.holeA _ (by simp)
      · exact hp.holeA _ (by simp)
      · exact hp.holeB _ (by simp)
      · exact hp.holeB _ (by simp)
  · rw [ha2,hb2]
    have hnat : ahi*bhi < 2^ml.width := by
      have hpos : 0 < 2^ml.width := Nat.two_pow_pos _
      rcases hmask with h0 | hm
      · rw [h0,zero_mul]
        exact hpos
      · have h1 : ahi*bhi ≤ if ml.width ≥ 64 then 2^64-1 else 2^ml.width-1 :=
          (Nat.mul_le_mul_left ahi hm).trans (Nat.mul_div_le _ _)
        split_ifs at h1 with hw
        · have h2 : 2^64 ≤ 2^ml.width := Nat.pow_le_pow_right (by decide) hw
          omega
        · omega
    exact_mod_cast hnat

theorem findProduct_unique {ml m : MulLink} (h : LeftProduct s m) (ms : List MulLink)
    (acc : Option MulLink) (hm : m ∈ ms) (hf : findProduct s ms acc = some (some ml)) :
    acc = none ∧ m = ml := by
  have hab : m.a ≠ m.b := fun heq => h.split (by rw [heq])
  have hsome : ∀ (ms : List MulLink) (x : MulLink) (r : Option MulLink),
      findProduct s ms (some x) = some r → r = some x := by
    intro ms
    induction ms with
    | nil =>
      intro x r hr
      rw [findProduct] at hr
      exact (Option.some.inj hr).symm
    | cons m' ms ih =>
      intro x r hr
      rw [findProduct] at hr
      split_ifs at hr with h1 h2
      · exact ih x r hr
      · exact absurd rfl h2
  induction ms generalizing acc with
  | nil => cases hm
  | cons m' ms ih =>
    rw [findProduct] at hf
    split_ifs at hf with hskip hacc
    · rcases mem_cons.mp hm with rfl | hm
      · simp [hab,h.fixed,h.freeA,h.freeB] at hskip
      · exact ih acc hm hf
    · have hm' := hsome ms m' _ hf
      rcases mem_cons.mp hm with rfl | hm
      · exact ⟨by simpa using hacc,(Option.some.inj hm').symm⟩
      · exact absurd (ih (some m') hm hf).1 (by simp)

/-- With nothing left free there is one assignment, a solution unless a value is excluded. -/
theorem ncard_all_fixed (hok : s.Ok) (hfix : AtFixpoint s)
    (hall : ∀ i, Root s i → isFixed s i = true) :
    {ρ | Solves s ρ}.ncard = 1 ↔ ∀ i, Root s i → isFixed s i = true → varLo64 (s.vars i) ∉ s.holes i := by
  set σ : ℕ → ℤ := fun i => if Root s i then (s.vars i).least else 0 with hσ
  have honly : ∀ ρ, Solves s ρ → ρ = σ := by
    intro ρ hρ
    funext i
    by_cases hi : Root s i
    · rw [hρ.fixed hi (hall i hi),hσ]
      exact (if_pos hi).symm
    · rw [hρ.rest i hi,hσ]
      exact (if_neg hi).symm
  have hroot : ∀ i, Root s i → σ i = (s.vars i).least := fun i hi => if_pos hi
  constructor
  · intro hone i hi _ hmem
    obtain ⟨ρ,hρ⟩ := Set.ncard_eq_one.mp hone
    have hsol : Solves s ρ := by
      have hin : ρ ∈ {ρ | Solves s ρ} := hρ ▸ Set.mem_singleton ρ
      exact hin
    have hh := hsol.hole i hi
    rw [hsol.fixed hi (hall i hi),ofInt_least] at hh
    exact hh hmem
  · intro hno
    refine Set.ncard_eq_one.mpr ⟨σ,Set.eq_singleton_iff_unique_mem.mpr ⟨?_,honly⟩⟩
    refine ⟨fun i hi => if_neg hi,fun i hi => ?_,fun i hi => ?_,fun p hp => ?_⟩
    · rw [hroot i hi]
      exact ⟨le_rfl,hfix.dom i hi⟩
    · rw [hroot i hi,ofInt_least]
      exact hno i hi (hall i hi)
    · intro hguard
      have hw := hok.roots p hp
      have hen : p.Enforced s := by
        intro g hg
        have hr := hok.guards p hp g hg
        have hne := hguard g hg
        rw [hroot g hr] at hne
        exact ⟨hall g hr,hne⟩
      exact hok.frame p hp _ _ (fun x hx => (hroot x (hw x hx)).symm)
        (hfix.done p hp hen fun x hx => hall x (hw x hx))

theorem ncard_product {ml : MulLink} (hok : s.Ok) (hfix : AtFixpoint s) (h : LeftProduct s ml)
    {D : Finset ℕ} (hne : D.Nonempty) (hD : ∀ d, d ∈ D ↔ ∃ e, Pair s ml d e)
    (h0a : 0 ≤ (s.vars ml.a).least) (h0b : 0 ≤ (s.vars ml.b).least)
    (h0r : 0 < (s.vars ml.r).least)
    (hwrap : (s.vars ml.a).most * (s.vars ml.b).most < 2^ml.width) :
    {ρ | Solves s ρ}.ncard = D.card ↔ ∀ d e, Pair s ml d e → Solves s (spread s ml d e) := by
  obtain ⟨hr,ha,hb⟩ := h.roots hok
  -- the cofactor is determined
  have hcof : ∀ d e e', Pair s ml d e → Pair s ml d e' → e = e' := by
    intro d e e' h1 h2
    have hm := h1.mul.trans h2.mul.symm
    have hd : (d : ℤ) ≠ 0 := by
      intro hd
      have hm1 := h1.mul
      rw [hd,zero_mul] at hm1
      omega
    exact_mod_cast mul_left_cancel₀ hd hm
  choose! E hE using fun d hd => (hD d).mp hd
  have hle : ∀ d e, Pair s ml d e → (d*e : ℤ) ≤ (s.vars ml.a).most * (s.vars ml.b).most :=
    fun d e hp => mul_le_mul hp.a.2 hp.b.2 (by positivity) ((by positivity : (0 : ℤ) ≤ d).trans hp.a.2)
  -- the fixed product is within the word
  have hK : (s.vars ml.r).least < 2^ml.width := by
    obtain ⟨d,hd⟩ := hne
    have hp := hE d hd
    rw [← hp.mul]
    exact (hle _ _ hp).trans_lt hwrap
  have hsub : {ρ | Solves s ρ} ⊆ (fun d : ℕ => spread s ml d (E d)) '' (D : Set ℕ) := by
    intro ρ hρ
    have hda := Solves.dom hρ ml.a ha
    have hdb := Solves.dom hρ ml.b hb
    obtain ⟨d,hd⟩ := Int.eq_ofNat_of_zero_le (h0a.trans hda.1)
    obtain ⟨e,he⟩ := Int.eq_ofNat_of_zero_le (h0b.trans hdb.1)
    rw [hd] at hda
    rw [he] at hdb
    have hp : Pair s ml d e := by
      have hprod : (d*e : ℤ) ≤ (s.vars ml.a).most * (s.vars ml.b).most :=
        mul_le_mul hda.2 hdb.2 (by positivity) ((by positivity : (0 : ℤ) ≤ d).trans hda.2)
      have hmul := Solves.props hρ _ (List.mem_of_getElem? (hok.link ml h.mem)) (by simp)
      simp only [PropEntry.states] at hmul
      rw [Solves.fixed hρ hr h.fixed,hd,he] at hmul
      have hsame : (d*e : ℤ) = (s.vars ml.r).least := by
        refine sub_eq_zero.mp (Int.eq_zero_of_abs_lt_dvd hmul ?_)
        have hde : (0 : ℤ) ≤ d*e := by positivity
        rw [abs_lt]
        constructor <;> linarith
      have hsrcA := (valueSrc_same hok hfix ml.a).2.2
      have hsrcB := (valueSrc_same hok hfix ml.b).2.2
      refine ⟨hsame,hda,hdb,fun i hi => ?_,fun i hi => ?_⟩
      · have hii : ρ i = d ∧ Root s i := by
          rcases mem_cons.mp hi with rfl | hi
          · exact ⟨hd,ha⟩
          · rw [List.mem_singleton.mp hi]
            exact ⟨(hsrcA.1 ρ hρ).trans hd,hsrcA.2 ha⟩
        have hh := Solves.hole hρ i hii.2
        rwa [hii.1,ofInt_natCast] at hh
      · have hii : ρ i = e ∧ Root s i := by
          rcases mem_cons.mp hi with rfl | hi
          · exact ⟨he,hb⟩
          · rw [List.mem_singleton.mp hi]
            exact ⟨(hsrcB.1 ρ hρ).trans he,hsrcB.2 hb⟩
        have hh := Solves.hole hρ i hii.2
        rwa [hii.1,ofInt_natCast] at hh
    have hdD : d ∈ D := (hD d).mpr ⟨e,hp⟩
    refine ⟨d,hdD,?_⟩
    have hspread := Solves.spread hok hfix h hρ
    simp only
    rw [← hcof d e (E d) hp (hE d hdD)]
    rw [hd,he] at hspread
    exact hspread.symm
  have hinj : Set.InjOn (fun d : ℕ => spread s ml d (E d)) (D : Set ℕ) := by
    intro d _ d' _ heq
    have hval := congrFun heq ml.a
    simp only at hval
    rw [spread_a hok h,spread_a hok h] at hval
    exact_mod_cast hval
  have hcard : ((fun d : ℕ => spread s ml d (E d)) '' (D : Set ℕ)).ncard = D.card := by
    rw [hinj.ncard_image,Set.ncard_coe_finset]
  have hfin : ((fun d : ℕ => spread s ml d (E d)) '' (D : Set ℕ)).Finite := D.finite_toSet.image _
  constructor
  · intro hn d e hp
    have heq := Set.eq_of_subset_of_ncard_le hsub (by rw [hcard,hn]) hfin
    have hd : d ∈ D := (hD d).mpr ⟨e,hp⟩
    have hin : spread s ml d (E d) ∈ {ρ | Solves s ρ} := heq ▸ ⟨d,hd,rfl⟩
    rw [hcof d e (E d) hp (hE d hd)]
    exact hin
  · intro hall
    have heq : {ρ | Solves s ρ} = (fun d : ℕ => spread s ml d (E d)) '' (D : Set ℕ) := by
      refine Set.Subset.antisymm hsub ?_
      rintro _ ⟨d,hd,rfl⟩
      exact hall d (E d) (hE d hd)
    rw [heq,hcard]

/-- A positive count is the number of solutions if and only if nothing that the scan passes
over rules a counted solution out. -/
theorem mulLeftoverCount_exact_iff (hok : s.Ok) (hfix : AtFixpoint s)
    (ht : ∀ ml ∈ s.mulLinks, Numth.Tested (varLo64 (s.vars ml.r)).toNat) {bound n : ℕ}
    {dv : Numth.Divisors} (h : mulLeftoverCount s bound = some (dv,n)) (hn : 0 < n) :
    {ρ | Solves s ρ}.ncard = n ↔ Unhindered s := by
  have hzero : ∀ d : Numth.Divisors, some (d,0) ≠ some (dv,n) := by
    intro d heq
    obtain ⟨_,rfl⟩ : d = dv ∧ 0 = n := by simpa using heq
    exact absurd hn (lt_irrefl 0)
  unfold mulLeftoverCount at h
  cases hfp : findProduct s s.mulLinks none with
  | none =>
    rw [hfp] at h
    exact absurd h (hzero _)
  | some r =>
    rw [hfp] at h
    cases r with
    | none =>
      simp only at h
      split_ifs at h with hall
      · obtain ⟨_,rfl⟩ : s.divisors = dv ∧ 1 = n := by simpa using h
        have hfixed : ∀ i, Root s i → isFixed s i = true := by
          intro i hi
          have hi' := List.all_eq_true.mp hall i (List.mem_range.mpr hi.1)
          simpa [hi.2] using hi'
        have hnone : ∀ ml, ¬LeftProduct s ml := by
          intro ml hml
          have hfa := hfixed ml.a (hml.roots hok).2.1
          rw [hml.freeA] at hfa
          cases hfa
        rw [ncard_all_fixed hok hfix hfixed]
        refine ⟨fun hno => ⟨hno,?_,?_,?_,?_⟩,fun hun => hun.fixed⟩
        · exact fun ml hml => absurd hml (hnone ml)
        · exact fun ml hml => absurd hml (hnone ml)
        · exact fun ml hml => absurd hml (hnone ml)
        · exact fun ml hml => absurd hml (hnone ml)
      · exact absurd h (hzero _)
    | some ml =>
      simp only at h
      split_ifs at h with hsplit hcopies hprops
      · exact absurd h (hzero _)
      · exact absurd h (hzero _)
      · exact absurd h (hzero _)
      · have hml := leftProduct_of hok hfp hsplit (by simpa using hcopies) (by simpa using hprops)
        obtain ⟨⟨D,hDn,hD⟩,h0a,h0b,h0r,hwrap⟩ := countPairs_spec hok hfix hml (ht ml hml.mem) h hn
        have hne : D.Nonempty := Finset.card_pos.mp (hDn ▸ hn)
        rw [← hDn,ncard_product hok hfix hml hne hD h0a h0b h0r hwrap]
        have huniq : ∀ m, LeftProduct s m → m = ml := fun m hm =>
          (findProduct_unique hm _ none hm.mem hfp).2
        constructor
        · intro hall
          obtain ⟨d₀,hd₀⟩ := hne
          obtain ⟨e₀,hp₀⟩ := (hD d₀).mp hd₀
          have hpos : ∀ d e, Pair s ml d e → d ≠ 0 ∧ e ≠ 0 := by
            intro d e hp
            have hm := hp.mul
            constructor <;> rintro rfl <;> simp at hm <;> omega
          refine ⟨fun i hi hf => ?_,fun m hm d e hp => ?_,fun m hm d e hp => ?_,
            fun m hm d e hp p hpm hen x y hk hfx => ?_,fun m hm d e hp p hpm g hg hf => ?_⟩
          · have hh := (hall d₀ e₀ hp₀).hole i hi
            rwa [spread_fixed _ _ hi hf,ofInt_least] at hh
          · obtain rfl := huniq m hm
            exact (Pair.unhindered hok hm (hall d e hp) (hpos d e hp).1 (hpos d e hp).2).1
          · obtain rfl := huniq m hm
            exact (Pair.unhindered hok hm (hall d e hp) (hpos d e hp).1 (hpos d e hp).2).2.1
          · obtain rfl := huniq m hm
            exact (Pair.unhindered hok hm (hall d e hp) (hpos d e hp).1 (hpos d e hp).2).2.2.1 p hpm
              hen x y hk hfx (eq_fixed hfix hpm hen hk ▸ hfx)
          · obtain rfl := huniq m hm
            exact (Pair.unhindered hok hm (hall d e hp) (hpos d e hp).1 (hpos d e hp).2).2.2.2 p hpm
              g hg hf
        · exact fun hun d e hp => hp.solves hok hfix hun hml

def shortVar (lo hi : ℕ) : Variable :=
  ⟨ofNat 32 lo,ofNat 32 hi,(0#64,0#64),16,false,false,false,false⟩

def sixCtx (more : List PropEntry) : CountCtx where
  vars i := if i = 0 then shortVar 6 6 else if i = 3 then shortVar 0 0 else shortVar 1 6
  nVars := 4
  varAlias i := i
  holes _ := []
  mulLinks := [⟨0,1,2,0,16⟩]
  extMemo := []
  props := ⟨.bvmul 0 1 2 16,[0,1,2],none⟩ :: more
  divisors := ⟨0,[]⟩

theorem sixCtx_ok {g : Option ℕ} (hg : g = none ∨ g = some 3) :
    (sixCtx [⟨.boundsEq 1 2,[1,2],g⟩]).Ok ∧ AtFixpoint (sixCtx [⟨.boundsEq 1 2,[1,2],g⟩]) := by
  have hroot : ∀ i < 4, Root (sixCtx [⟨.boundsEq 1 2,[1,2],g⟩]) i := fun i hi => ⟨hi,rfl⟩
  have hall : ∀ p ∈ (sixCtx [⟨.boundsEq 1 2,[1,2],g⟩]).props,
      p = ⟨.bvmul 0 1 2 16,[0,1,2],none⟩ ∨ p = ⟨.boundsEq 1 2,[1,2],g⟩ := by
    intro p hp
    exact (mem_cons.mp hp).imp_right List.mem_singleton.mp
  have hvar : ∀ i, ∃ lo hi, (sixCtx [⟨.boundsEq 1 2,[1,2],g⟩]).vars i = shortVar lo hi ∧
      lo ≤ hi ∧ hi ≤ 6 := by
    intro i
    unfold sixCtx
    dsimp only
    split_ifs
    · exact ⟨6,6,rfl,by decide,by decide⟩
    · exact ⟨0,0,rfl,by decide,by decide⟩
    · exact ⟨1,6,rfl,by decide,by decide⟩
  constructor
  · refine ⟨fun i _ => ?_,fun p hp x hx => ?_,fun p hp x hx => ?_,fun p hp ρ ρ' hρ hh => ?_,
      fun p hp x y hk => ?_,fun m hm => ?_,fun m hm => absurd hm (by simp [sixCtx]),
      fun p hp rel hk => ?_,fun i => List.Pairwise.nil,fun h => absurd rfl h,List.Pairwise.nil⟩
    · obtain ⟨lo,hi,h,hle,h6⟩ := hvar i
      rw [h]
      interval_cases hi <;> interval_cases lo <;>
        exact ⟨by decide,by decide,rfl,by decide,by decide,by decide,by decide⟩
    · refine hroot x ?_
      rcases hall p hp with rfl | rfl <;> simp at hx <;> omega
    · rcases hall p hp with rfl | rfl
      · cases hx
      · rcases hg with rfl | rfl
        · cases hx
        · obtain rfl : 3 = x := Option.some.inj hx
          exact hroot 3 (by decide)
    · rcases hall p hp with rfl | rfl
      · simp only [PropEntry.states] at hh ⊢
        rwa [← hρ 0 (by simp),← hρ 1 (by simp),← hρ 2 (by simp)]
      · simp only [PropEntry.states] at hh ⊢
        rwa [← hρ 1 (by simp),← hρ 2 (by simp)]
    · rcases hall p hp with rfl | rfl
      · cases hk
      · obtain ⟨rfl,rfl⟩ : 1 = x ∧ 2 = y := by simpa using hk
        rfl
    · obtain rfl : m = ⟨0,1,2,0,16⟩ := by simpa [sixCtx] using hm
      rfl
    · rcases hall p hp with rfl | rfl <;> cases hk
  · refine ⟨fun i _ => ?_,fun p hp _ x y hk => ?_,fun p hp _ hf => ?_⟩
    · obtain ⟨lo,hi,h,hle,h6⟩ := hvar i
      rw [h]
      interval_cases hi <;> interval_cases lo <;> decide
    · rcases hall p hp with rfl | rfl
      · cases hk
      · obtain ⟨rfl,rfl⟩ : 1 = x ∧ 2 = y := by simpa using hk
        exact ⟨rfl,rfl⟩
    · have hfree : isFixed (sixCtx [⟨.boundsEq 1 2,[1,2],g⟩]) 1 = false := by rfl
      rcases hall p hp with rfl | rfl
      · exact absurd (hf 1 (by simp)) (by rw [hfree]; decide)
      · exact absurd (hf 1 (by simp)) (by rw [hfree]; decide)

/-- The four ways to write 6 as a product are the solutions left, where an equality of the
factors has its guard at zero. -/
theorem mulLeftoverCount_six : {ρ | Solves (sixCtx [⟨.boundsEq 1 2,[1,2],some 3⟩]) ρ}.ncard = 4 := by
  obtain ⟨hok,hfix⟩ := sixCtx_ok (.inr rfl)
  have hcount : mulLeftoverCount (sixCtx [⟨.boundsEq 1 2,[1,2],some 3⟩]) 8 =
      some (⟨6,[1,2,3,6]⟩,4) := by rfl
  have ht : ∀ ml ∈ (sixCtx [⟨.boundsEq 1 2,[1,2],some 3⟩]).mulLinks,
      Numth.Tested (varLo64 ((sixCtx [⟨.boundsEq 1 2,[1,2],some 3⟩]).vars ml.r)).toNat := by
    intro ml hml
    obtain rfl : ml = ⟨0,1,2,0,16⟩ := by simpa [sixCtx] using hml
    exact Numth.tested_six
  have hprops : ∀ p ∈ (sixCtx [⟨.boundsEq 1 2,[1,2],some 3⟩]).props,
      p = ⟨.bvmul 0 1 2 16,[0,1,2],none⟩ ∨ p = ⟨.boundsEq 1 2,[1,2],some 3⟩ := fun p hp =>
    (mem_cons.mp hp).imp_right List.mem_singleton.mp
  refine (mulLeftoverCount_exact_iff hok hfix ht hcount (by decide)).mpr ⟨?_,?_,?_,?_,?_⟩
  · exact fun i _ _ => List.not_mem_nil
  · exact fun _ _ _ _ _ _ _ _ _ => List.not_mem_nil
  · exact fun _ _ _ _ _ _ _ _ _ => List.not_mem_nil
  · intro _ _ _ _ _ p hp hen x y hk
    rcases hprops p hp with rfl | rfl
    · cases hk
    · exact absurd rfl (hen 3 rfl).2
  · intro _ _ _ _ _ p hp g hg hf
    rcases hprops p hp with rfl | rfl
    · cases hg
    · obtain rfl : 3 = g := Option.some.inj hg
      cases hf

/-- `6 = x1 * x2` with `x1 == x2` as a propagator: the count is 4, and there is no
solution. -/
theorem mulLeftoverCount_counts_unequal :
    (sixCtx [⟨.boundsEq 1 2,[1,2],none⟩]).Ok ∧ AtFixpoint (sixCtx [⟨.boundsEq 1 2,[1,2],none⟩]) ∧
      mulLeftoverCount (sixCtx [⟨.boundsEq 1 2,[1,2],none⟩]) 8 = some (⟨6,[1,2,3,6]⟩,4) ∧
      {ρ | Solves (sixCtx [⟨.boundsEq 1 2,[1,2],none⟩]) ρ}.ncard = 0 := by
  obtain ⟨hok,hfix⟩ := sixCtx_ok (.inl rfl)
  refine ⟨hok,hfix,rfl,?_⟩
  have hnone : {ρ | Solves (sixCtx [⟨.boundsEq 1 2,[1,2],none⟩]) ρ} = ∅ := by
    refine Set.eq_empty_iff_forall_notMem.mpr fun ρ hρ => ?_
    have hsol : Solves (sixCtx [⟨.boundsEq 1 2,[1,2],none⟩]) ρ := hρ
    have heq := hsol.props ⟨.boundsEq 1 2,[1,2],none⟩ (by simp [sixCtx]) (by simp)
    have hmul := hsol.props ⟨.bvmul 0 1 2 16,[0,1,2],none⟩ (by simp [sixCtx]) (by simp)
    have hr : ρ 0 = 6 := hsol.fixed (i := 0) ⟨by decide,rfl⟩ rfl
    obtain ⟨h1,h2⟩ := hsol.dom 1 ⟨by decide,rfl⟩
    change (1 : ℤ) ≤ ρ 1 at h1
    change ρ 1 ≤ (6 : ℤ) at h2
    simp only [PropEntry.states] at heq hmul
    rw [← heq,hr] at hmul
    generalize ρ 1 = x at h1 h2 hmul
    interval_cases x <;> exact absurd hmul (by decide)
  rw [hnone,Set.ncard_empty]

end MulCount
end DvSolve
