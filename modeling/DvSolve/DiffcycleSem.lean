import DvSolve.Diffcycle

/-! A conflict of the cycle propagator has no solution, and its literals say why.
An edge follows from its relation and the literals it needs; the distances bound the
weight of a cycle from above by zero, so that a wrapped sum below zero is a true one. -/
namespace DvSolve
namespace Solver

open Function
open BitVec (intMin)
open Bool (false_eq_true not_eq_true')
open List (mem_cons not_mem_nil)

variable {e : DcEdge} {n : ℕ}

/-- Equal modulo `2^width`, exactly for width 0. -/
def EqMod (width : ℕ) (a b : ℤ) : Prop := if width = 0 then a = b else a ≡ b [ZMOD 2^width]

/-- What a relation says of the values `x` of its variables. -/
def DiffRel.Holds (r : DiffRel) (x : ℕ → ℤ) : Prop :=
  match r.kind with
  | .le => x 0 ≤ x 1+r.c.toInt
  | .sum => EqMod r.width (x 0) (x 1+x 2)
  | .sub => EqMod r.width (x 0) (x 1-x 2)
  | .addc => EqMod r.width (x 0) (x 1+r.c.toInt)

def DcGraph.Holds (D : DcGraph) (σ : ℕ → ℤ) : Prop :=
  ∀ r ∈ D.rels, r.Holds fun k => σ (D.ids (r.v k))

/-- A literal as a statement about a number. -/
def litSays (v : Variable) (l : Literal) (x : ℤ) : Prop :=
  if l.isLb then varOrd v l.bound ≤ x else x ≤ varOrd v l.bound

def slotSays (L : ℕ → Variable) (r : DiffRel) (s : ℕ) (x : ℕ → ℤ) : Prop :=
  if s%2 = 0 then (L (r.v (s/2))).least ≤ x (s/2) else x (s/2) ≤ (L (r.v (s/2))).most

section Relation

variable {L : ℕ → Variable} {r : DiffRel} {x : ℕ → ℤ} {v : Variable} {st : RelState} {y : ℤ}

theorem EqMod.unique {z : ℤ} (hv : v.Ok) (hw : r.width ≠ 0 → v.width = r.width)
    (h : EqMod r.width y z) (h1 : v.bot ≤ y) (h2 : y ≤ v.top) (h3 : v.bot ≤ z) (h4 : z ≤ v.top) :
    y = z := by
  unfold EqMod at h
  split_ifs at h with h0
  · exact h
  · rw [← hw h0] at h
    have hpos := hv.pos
    have hsize : v.top-v.bot < 2^v.width := by
      unfold Variable.top Variable.bot
      have hp : (2 : ℤ)^v.width = 2*2^(v.width-1) := by
        rw [← pow_succ']
        congr 1
        omega
      split_ifs <;> omega
    obtain ⟨c,hc⟩ := (Int.modEq_iff_dvd.mp h)
    have hc0 : c = 0 := by
      by_contra hne
      rcases lt_or_gt_of_ne hne with hlt | hgt
      · nlinarith
      · nlinarith
    rw [hc0] at hc
    omega

theorem reprWithin_bot (hv : v.Ok) : v.bot ≤ (reprWithin v).1 := by
  have hmin := varOrd_reprMin hv.pos hv.le
  have ha : (varReprMin v).toInt = v.bot := by
    cases hs : v.signed
    · simp [varReprMin,Variable.bot,hs]
    · rw [← hmin,varOrd_plain (by simp [Variable.beyond,hs])]
  simp only [reprWithin,ha]
  split_ifs with h <;> omega

theorem reprWithin_top (hv : v.Ok) : (reprWithin v).2 ≤ v.top := by
  have hmax := varOrd_reprMax hv.pos hv.le
  have hb : (if !v.signed && v.width ≥ 62 then dcLim else (varReprMax v).toInt) ≤ v.top := by
    split_ifs with h
    · simp only [Bool.and_eq_true,not_eq_true',decide_eq_true_eq] at h
      have hp : (2 : ℤ)^62 ≤ 2^v.width := pow_le_pow_right₀ (by norm_num) h.2
      simp only [Variable.top,h.1,false_eq_true,if_false,dcLim]
      omega
    · rw [← hmax,varOrd_plain]
      simp [Variable.beyond] at h ⊢
      intro hs
      have := h hs
      omega
  simp only [reprWithin]
  generalize (if !v.signed && v.width ≥ 62 then dcLim else (varReprMax v).toInt) = b at *
  split_ifs <;> omega

theorem ival_hi (h : ival v = true) : v.most = (varHi64 v).toInt ∧ v.most ≤ dcLim := by
  unfold ival at h
  unfold Variable.most
  cases hs : v.signed
  · simp only [hs,false_eq_true,if_false,not_eq_true',decide_eq_false_iff_not,not_lt] at h
    have hlim : dcLim = 2^61 := rfl
    have hI : (varHi64 v).toInt = (varHi64 v).toNat := BitVec.toInt_eq_toNat_of_lt (by omega)
    rw [varOrd_of_nonneg fun _ => by omega]
    exact ⟨rfl,by omega⟩
  · simp only [hs,if_true,not_eq_true',Bool.or_eq_false_iff,decide_eq_false_iff_not,not_lt] at h
    rw [varOrd_plain (by simp [Variable.beyond,hs])]
    exact ⟨rfl,h.2⟩

/-- A lower bound that some value within the limit meets reads as its number. -/
theorem ival_lo (hv : v.Ok) (h : ival v = true) (h1 : v.least ≤ y) (h2 : y ≤ v.most) :
    v.least = (varLo64 v).toInt ∧ -dcLim ≤ v.least := by
  have hlim : dcLim = 2^61 := rfl
  have hm := (ival_hi h).2
  have hbot := hv.bot
  unfold ival at h
  unfold Variable.least at *
  cases hs : v.signed
  · simp only [Variable.bot,hs,false_eq_true,if_false] at hbot
    have hn : ((varLo64 v).toNat : ℤ) = varOrd v (varLo64 v) := by
      cases hb : v.beyond
      · rw [varOrd_plain hb] at hbot ⊢
        rw [BitVec.toInt_eq_toNat_cond] at hbot ⊢
        split_ifs at hbot ⊢ <;> omega
      · exact (varOrd_beyond hb _).symm
    have hI : (varLo64 v).toInt = (varLo64 v).toNat := BitVec.toInt_eq_toNat_of_lt (by omega)
    omega
  · simp only [hs,if_true,not_eq_true',Bool.or_eq_false_iff,decide_eq_false_iff_not,not_lt] at h
    rw [varOrd_plain (by simp [Variable.beyond,hs])] at *
    exact ⟨rfl,h.1⟩

theorem neg_lo (hv : v.Ok) (h : ival v = true) (h1 : v.least ≤ y) :
    -y ≤ (-varLo64 v).toInt := by
  have hlim : dcLim = 2^61 := rfl
  have hbot := hv.bot
  have hge : (varLo64 v).toInt ≤ v.least := by
    unfold Variable.least varOrd
    split_ifs
    · rw [BitVec.toInt_eq_toNat_cond]
      split_ifs <;> omega
    · exact le_refl _
  by_cases hmin : varLo64 v = intMin 64
  · unfold ival at h
    unfold Variable.least at *
    generalize varLo64 v = lo at *
    subst hmin
    cases hs : v.signed
    · simp only [Variable.bot,hs,false_eq_true,if_false] at hbot
      cases hb : v.beyond
      · rw [varOrd_plain hb] at hbot
        have : ¬(0 : ℤ) ≤ (intMin 64).toInt := by decide
        exact absurd hbot this
      · rw [varOrd_beyond hb] at h1
        have h2 : (-intMin 64).toInt = -2^63 := by decide
        have h3 : ((intMin 64).toNat : ℤ) = 2^63 := by decide
        omega
    · simp only [hs,if_true,not_eq_true',Bool.or_eq_false_iff,decide_eq_false_iff_not,not_lt] at h
      have : (intMin 64).toInt = -2^63 := by decide
      omega
  · rw [BitVec.toInt_neg_of_ne_intMin hmin]
    omega

structure Valid (L : ℕ → Variable) (r : DiffRel) (st : RelState) : Prop where
  signed : ∀ k < r.kind.arity, (L (r.v k)).signed = (L (r.v 0)).signed
  narrow : ∀ k < r.kind.arity, r.width ≠ 0 → (L (r.v k)).width ≤ r.width
  ival : ∀ k < r.kind.arity, ival (L (r.v k)) = true
  width : r.width ≠ 0 → (L (r.v 0)).width = r.width
  lo : ∀ k, st.lo k = varLo64 (L (r.v k))
  hi : ∀ k, st.hi k = varHi64 (L (r.v k))
  cc : st.cc = addcConst r
  span : ∃ l h, relSpan r (L (r.v 0)).signed st.lo st.hi = some (l,h,st.need) ∧
    (reprWithin (L (r.v 0))).1 ≤ l.toInt ∧ h.toInt ≤ (reprWithin (L (r.v 0))).2

theorem relValid_valid (h : relValid L r = some st) (hk : r.kind ≠ .le) : Valid L r st := by
  unfold relValid at h
  rw [if_neg hk] at h
  dsimp only at h
  split_ifs at h with h1 h2
  have hall : ∀ k < r.kind.arity, (L (r.v k)).signed = (L (r.v 0)).signed ∧
      (r.width ≠ 0 → (L (r.v k)).width ≤ r.width) ∧ ival (L (r.v k)) = true := fun k hk => by
    rw [List.any_eq_true] at h1
    push Not at h1
    have := h1 k (List.mem_range.mpr hk)
    simp at this
    exact ⟨this.1.1,this.1.2,this.2⟩
  split at h
  · cases h
  · rename_i l g need heq
    split_ifs at h with h3
    cases h
    exact ⟨fun k hk => (hall k hk).1,fun k hk => (hall k hk).2.1,fun k hk => (hall k hk).2.2,
      fun hw => not_not.mp fun hne => h2 ⟨hw,hne⟩,fun _ => rfl,fun _ => rfl,rfl,l,g,heq,h3⟩

structure Meets (L : ℕ → Variable) (r : DiffRel) (need : ℕ) (x : ℕ → ℤ) : Prop where
  ok : ∀ k, (L (r.v k)).Ok
  bot : ∀ k, (L (r.v k)).bot ≤ x k
  top : ∀ k, x k ≤ (L (r.v k)).top
  slot : ∀ s < 6, need.testBit s = true → slotSays L r s x

theorem Meets.least {need : ℕ} (h : Meets L r need x) (k : ℕ) (hk : k < 3)
    (hbit : need.testBit (2*k) = true) : (L (r.v k)).least ≤ x k := by
  have := h.slot (2*k) (by omega) hbit
  rw [slotSays,if_pos (by omega),show 2*k/2 = k by omega] at this
  exact this

theorem Meets.most {need : ℕ} (h : Meets L r need x) (k : ℕ) (hk : k < 3)
    (hbit : need.testBit (2*k+1) = true) : x k ≤ (L (r.v k)).most := by
  have := h.slot (2*k+1) (by omega) hbit
  rw [slotSays,if_neg (by omega),show (2*k+1)/2 = k by omega] at this
  exact this

theorem toInt_add_of {a b : BitVec 64} (h1 : -2^63 ≤ a.toInt+b.toInt) (h2 : a.toInt+b.toInt < 2^63) :
    (a+b).toInt = a.toInt+b.toInt := by
  rw [BitVec.toInt_add]
  exact Int.bmod_eq_of_le (by norm_num; omega) (by norm_num; omega)

theorem toInt_sub_of {a b : BitVec 64} (h1 : -2^63 ≤ a.toInt-b.toInt) (h2 : a.toInt-b.toInt < 2^63) :
    (a-b).toInt = a.toInt-b.toInt := by
  rw [BitVec.toInt_sub]
  exact Int.bmod_eq_of_le (by norm_num; omega) (by norm_num; omega)

theorem Meets.nonneg {need : ℕ} (h : Meets L r need x) (k : ℕ)
    (hs : (L (r.v k)).signed = false) : 0 ≤ x k := by
  have := h.bot k
  simpa [Variable.bot,hs] using this

theorem sum_exact (hv : Valid L r st) (hm : Meets L r st.need x) (hk : r.kind = .sum)
    (hR : r.Holds x) : x 0 = x 1+x 2 := by
  obtain ⟨l,g,hspan,hl,hg⟩ := hv.span
  have hlim : dcLim = 2^61 := rfl
  have har : r.kind.arity = 3 := by rw [hk]; rfl
  simp only [relSpan,hk,Option.some.injEq,Prod.mk.injEq] at hspan
  obtain ⟨rfl,rfl,hneed⟩ := hspan
  have hbot := reprWithin_bot (hm.ok 0)
  have htop := reprWithin_top (hm.ok 0)
  simp only [DiffRel.Holds,hk] at hR
  obtain ⟨e1,e2⟩ := ival_hi (hv.ival 1 (by omega))
  obtain ⟨f1,f2⟩ := ival_hi (hv.ival 2 (by omega))
  rw [hv.lo,hv.lo] at hl
  rw [hv.hi,hv.hi] at hg
  refine EqMod.unique (hm.ok 0) hv.width hR (hm.bot 0) (hm.top 0) ?_ ?_
  · cases hs : (L (r.v 0)).signed
    · have h1 := hm.nonneg 1 ((hv.signed 1 (by omega)).trans hs)
      have h2 := hm.nonneg 2 ((hv.signed 2 (by omega)).trans hs)
      simp only [Variable.bot,hs,false_eq_true,if_false]
      omega
    · rw [hs,if_pos rfl] at hneed
      rw [← hneed] at hm
      have a1 := hm.least 1 (by omega) (by decide)
      have a2 := hm.most 1 (by omega) (by decide)
      have b1 := hm.least 2 (by omega) (by decide)
      have b2 := hm.most 2 (by omega) (by decide)
      obtain ⟨c1,c2⟩ := ival_lo (hm.ok 1) (hv.ival 1 (by omega)) a1 a2
      obtain ⟨d1,d2⟩ := ival_lo (hm.ok 2) (hv.ival 2 (by omega)) b1 b2
      rw [toInt_add_of (by omega) (by omega)] at hl
      omega
  · have a2 := hm.most 1 (by omega) (by rw [← hneed]; split_ifs <;> decide)
    have b2 := hm.most 2 (by omega) (by rw [← hneed]; split_ifs <;> decide)
    have hge : -2^62 ≤ x 1+x 2 := by
      cases hs : (L (r.v 0)).signed
      · have h1 := hm.nonneg 1 ((hv.signed 1 (by omega)).trans hs)
        have h2 := hm.nonneg 2 ((hv.signed 2 (by omega)).trans hs)
        omega
      · rw [hs,if_pos rfl] at hneed
        rw [← hneed] at hm
        have a1 := hm.least 1 (by omega) (by decide)
        have b1 := hm.least 2 (by omega) (by decide)
        obtain ⟨c1,c2⟩ := ival_lo (hm.ok 1) (hv.ival 1 (by omega)) a1 a2
        obtain ⟨d1,d2⟩ := ival_lo (hm.ok 2) (hv.ival 2 (by omega)) b1 b2
        omega
    rw [toInt_add_of (by omega) (by omega)] at hg
    omega

theorem sub_exact (hv : Valid L r st) (hm : Meets L r st.need x) (hk : r.kind = .sub)
    (hR : r.Holds x) : x 0 = x 1-x 2 := by
  obtain ⟨l,g,hspan,hl,hg⟩ := hv.span
  have hlim : dcLim = 2^61 := rfl
  have har : r.kind.arity = 3 := by rw [hk]; rfl
  simp only [relSpan,hk,Option.some.injEq,Prod.mk.injEq] at hspan
  obtain ⟨rfl,rfl,hneed⟩ := hspan
  have hbot := reprWithin_bot (hm.ok 0)
  have htop := reprWithin_top (hm.ok 0)
  simp only [DiffRel.Holds,hk] at hR
  obtain ⟨e1,e2⟩ := ival_hi (hv.ival 1 (by omega))
  obtain ⟨f1,f2⟩ := ival_hi (hv.ival 2 (by omega))
  rw [hv.lo,hv.hi] at hl
  rw [hv.hi,hv.lo] at hg
  have a1 := hm.least 1 (by omega) (by rw [← hneed]; split_ifs <;> decide)
  have a2 := hm.most 1 (by omega) (by rw [← hneed]; split_ifs <;> decide)
  have b2 := hm.most 2 (by omega) (by rw [← hneed]; split_ifs <;> decide)
  obtain ⟨c1,c2⟩ := ival_lo (hm.ok 1) (hv.ival 1 (by omega)) a1 a2
  cases hs : (L (r.v 0)).signed
  · have h1 := (hv.signed 1 (by omega)).trans hs
    have h2 := hm.nonneg 2 ((hv.signed 2 (by omega)).trans hs)
    by_cases hw : r.width = 0
    · rw [EqMod,if_pos hw] at hR
      exact hR
    refine EqMod.unique (hm.ok 0) hv.width hR (hm.bot 0) (hm.top 0) ?_ ?_
    · have hb := (hm.ok 1).bot
      rw [toInt_sub_of (by omega) (by omega)] at hl
      omega
    · have ht := hm.top 1
      have hn := hv.narrow 1 (by omega) hw
      have hp : (2 : ℤ)^(L (r.v 1)).width ≤ 2^(L (r.v 0)).width :=
        pow_le_pow_right₀ (by norm_num) (by rw [hv.width hw]; exact hn)
      simp only [Variable.top,hs,h1,false_eq_true,if_false] at ht ⊢
      omega
  · rw [hs,if_pos rfl] at hneed
    rw [← hneed] at hm
    have b1 := hm.least 2 (by omega) (by decide)
    obtain ⟨d1,d2⟩ := ival_lo (hm.ok 2) (hv.ival 2 (by omega)) b1 b2
    rw [toInt_sub_of (by omega) (by omega)] at hl hg
    exact EqMod.unique (hm.ok 0) hv.width hR (hm.bot 0) (hm.top 0) (by omega) (by omega)

theorem addcConst_mod (hle : r.width ≤ 64) :
    (addcConst r).toInt ≡ r.c.toInt [ZMOD 2^r.width] := by
  unfold addcConst
  split_ifs with h
  · have hd : (2 : ℤ)^r.width ∣ 2^64 := pow_dvd_pow 2 hle
    have hone : (1#64 <<< r.width).toInt ≡ 0 [ZMOD 2^r.width] := by
      have h1 : ((1#64 <<< r.width).toNat : ℤ) = 2^r.width := by
        rw [BitVec.toNat_shiftLeft,BitVec.toNat_ofNat,Nat.one_mod_two_pow (by decide),
          Nat.shiftLeft_eq,Nat.one_mul,Nat.mod_eq_of_lt (Nat.pow_lt_pow_right (by decide) h.2.1)]
        rfl
      rw [BitVec.toInt_eq_toNat_cond]
      split_ifs
      · rw [h1]
        exact (Int.modEq_zero_iff_dvd).mpr dvd_rfl
      · rw [h1]
        exact (Int.modEq_zero_iff_dvd).mpr (dvd_sub dvd_rfl (by push_cast; exact hd))
    have hsub : (r.c-1#64 <<< r.width).toInt ≡ r.c.toInt-(1#64 <<< r.width).toInt [ZMOD 2^r.width] := by
      rw [BitVec.toInt_sub]
      refine Int.ModEq.of_dvd (n:=2^64) hd ?_
      have := Int.bmod_emod (x:=r.c.toInt-(1#64 <<< r.width).toInt) (m:=2^64)
      exact_mod_cast this
    have := hsub.trans (Int.ModEq.sub (Int.ModEq.refl _) hone)
    rwa [sub_zero] at this
  · exact Int.ModEq.refl _

theorem addc_exact (hv : Valid L r st) (hm : Meets L r st.need x) (hk : r.kind = .addc)
    (hR : r.Holds x) : x 0 = x 1+st.cc.toInt ∧ -dcLim ≤ st.cc.toInt ∧ st.cc.toInt ≤ dcLim := by
  obtain ⟨l,g,hspan,hl,hg⟩ := hv.span
  have hlim : dcLim = 2^61 := rfl
  have har : r.kind.arity = 2 := by rw [hk]; rfl
  simp only [relSpan,hk] at hspan
  split_ifs at hspan with hc
  simp only [Option.some.injEq,Prod.mk.injEq] at hspan
  obtain ⟨rfl,rfl,hneed⟩ := hspan
  rw [← hneed] at hm
  have hbot := reprWithin_bot (hm.ok 0)
  have htop := reprWithin_top (hm.ok 0)
  simp only [DiffRel.Holds,hk] at hR
  have a1 := hm.least 1 (by omega) (by decide)
  have a2 := hm.most 1 (by omega) (by decide)
  obtain ⟨e1,e2⟩ := ival_hi (hv.ival 1 (by omega))
  obtain ⟨c1,c2⟩ := ival_lo (hm.ok 1) (hv.ival 1 (by omega)) a1 a2
  rw [hv.lo,toInt_add_of (by omega) (by omega)] at hl
  rw [hv.hi,toInt_add_of (by omega) (by omega)] at hg
  rw [hv.cc]
  refine ⟨EqMod.unique (hm.ok 0) hv.width ?_ (hm.bot 0) (hm.top 0) (by omega) (by omega),
    by omega,by omega⟩
  unfold EqMod at hR ⊢
  split_ifs at hR ⊢ with hw
  · rw [hR,addcConst,if_neg (by simp [hw])]
  · have hle : r.width ≤ 64 := hv.width hw ▸ (hm.ok 0).le
    exact hR.trans (Int.ModEq.add (Int.ModEq.refl _) (addcConst_mod hle).symm)

theorem Meets.of_edge (h : Meets L r (edgeNeed st e) x) : Meets L r st.need x := by
  refine ⟨h.ok,h.bot,h.top,fun s hs hb => h.slot s hs ?_⟩
  unfold edgeNeed
  split
  · exact hb
  · rw [Nat.testBit_or,hb,Bool.true_or]

theorem edgeNeed_wlit {s : ℕ} (h : e.wlit = some s) :
    (edgeNeed st e).testBit s = true := by
  simp only [edgeNeed,h]
  rw [Nat.testBit_or,Nat.testBit_two_pow_self,Bool.or_true]

theorem relEdges_ok {y : ℕ → ℤ} (he : e ∈ relEdges L r) (hR : r.Holds fun k => y (r.v k))
    (hm : r.kind ≠ .le → ∀ st, relValid L r = some st → Meets L r (edgeNeed st e) fun k => y (r.v k)) :
    y e.v ≤ y e.u+e.w.toInt := by
  unfold relEdges at he
  split at he
  · simp at he
  · rename_i st hst
    split at he
    · rename_i hk
      simp only [List.mem_singleton] at he
      subst he
      simpa [DiffRel.Holds,hk] using hR
    · rename_i hk
      have hv := relValid_valid hst (by simp [hk])
      have hm := hm (by simp [hk]) st hst
      have hx := sum_exact hv hm.of_edge hk hR
      have har : r.kind.arity = 3 := by rw [hk]; rfl
      obtain ⟨e1,_⟩ := ival_hi (hv.ival 1 (by omega))
      obtain ⟨f1,_⟩ := ival_hi (hv.ival 2 (by omega))
      simp only [mem_cons,not_mem_nil,or_false] at he
      rcases he with rfl | rfl | rfl | rfl
      · have := hm.most 2 (by omega) (edgeNeed_wlit rfl)
        simp only [hv.hi]
        omega
      · have := hm.most 1 (by omega) (edgeNeed_wlit rfl)
        simp only [hv.hi]
        omega
      · have := neg_lo (hm.ok 2) (hv.ival 2 (by omega)) (hm.least 2 (by omega) (edgeNeed_wlit rfl))
        simp only [hv.lo]
        omega
      · have := neg_lo (hm.ok 1) (hv.ival 1 (by omega)) (hm.least 1 (by omega) (edgeNeed_wlit rfl))
        simp only [hv.lo]
        omega
    · rename_i hk
      have hv := relValid_valid hst (by simp [hk])
      have hm := hm (by simp [hk]) st hst
      have hx := sub_exact hv hm.of_edge hk hR
      have har : r.kind.arity = 3 := by rw [hk]; rfl
      obtain ⟨e1,_⟩ := ival_hi (hv.ival 0 (by omega))
      obtain ⟨f1,_⟩ := ival_hi (hv.ival 2 (by omega))
      simp only [mem_cons,not_mem_nil,or_false] at he
      rcases he with rfl | rfl | rfl | rfl
      · have := neg_lo (hm.ok 2) (hv.ival 2 (by omega)) (hm.least 2 (by omega) (edgeNeed_wlit rfl))
        simp only [hv.lo]
        omega
      · have := hm.most 2 (by omega) (edgeNeed_wlit rfl)
        simp only [hv.hi]
        omega
      · have := neg_lo (hm.ok 0) (hv.ival 0 (by omega)) (hm.least 0 (by omega) (edgeNeed_wlit rfl))
        simp only [hv.lo]
        omega
      · have := hm.most 0 (by omega) (edgeNeed_wlit rfl)
        simp only [hv.hi]
        omega
    · rename_i hk
      have hv := relValid_valid hst (by simp [hk])
      have hm := hm (by simp [hk]) st hst
      obtain ⟨hx,h1,h2⟩ := addc_exact hv hm.of_edge hk hR
      have hlim : dcLim = 2^61 := rfl
      simp only [mem_cons,not_mem_nil,or_false] at he
      rcases he with rfl | rfl
      · exact hx.le
      · have hneg : (-st.cc).toInt = -st.cc.toInt := by
          rw [BitVec.toInt_neg]
          exact Int.bmod_eq_of_le (by norm_num; omega) (by norm_num; omega)
        simp only [hneg]
        omega

end Relation

section Distances

variable {edges : List DcEdge} {d d' : Dists} {last : Option ℕ} {y : ℕ}

structure Dists.Good (edges : List DcEdge) (d : Dists) : Prop where
  low : ∀ i, -2^62 ≤ (d.dist i).toInt
  high : ∀ i, (d.dist i).toInt ≤ 0
  pred : ∀ i e, d.pred i = some e → e ∈ edges ∧ e.v = i ∧ (d.dist e.u).toInt+e.w.toInt ≤ (d.dist i).toInt

theorem Dists.Good.relax (h : d.Good edges) (he : e ∈ edges) :
    (relax (d,last) e).1.Good edges := by
  unfold Solver.relax
  dsimp only
  split_ifs with h1 h2
  · exact h
  · have hu := h.low e.u
    have hu' := h.high e.u
    have hv := h.high e.v
    have hw := BitVec.le_toInt e.w
    have hw' := BitVec.toInt_lt (x := e.w)
    have hnd := BitVec.le_toInt (d.dist e.u+e.w)
    have hsum : (d.dist e.u+e.w).toInt = (d.dist e.u).toInt+e.w.toInt := by
      by_cases hlow : -2^63 ≤ (d.dist e.u).toInt+e.w.toInt
      · exact toInt_add_of hlow (by omega)
      · have hwrap : (d.dist e.u+e.w).toInt = (d.dist e.u).toInt+e.w.toInt+2^64 := by
          rw [BitVec.toInt_add,← Int.add_mul_bmod_self_left _ _ 1]
          exact Int.bmod_eq_of_le (by norm_num; omega) (by norm_num; omega)
        omega
    have hle : ∀ i, (Function.update d.dist e.v (d.dist e.u+e.w) i).toInt ≤ (d.dist i).toInt := fun i => by
      by_cases hi : i = e.v
      · subst hi
        rw [update_self]
        omega
      · rw [update_of_ne hi]
    refine ⟨fun i => ?_,fun i => (hle i).trans (h.high i),fun i f hf => ?_⟩
    · dsimp only
      by_cases hi : i = e.v
      · subst hi
        rw [update_self]
        omega
      · rw [update_of_ne hi]
        exact h.low i
    · dsimp only at hf
      have hfu := hle f.u
      by_cases hi : i = e.v
      · subst hi
        rw [update_self,Option.some.injEq] at hf
        subst hf
        refine ⟨he,rfl,?_⟩
        dsimp only
        rw [update_self]
        omega
      · rw [update_of_ne hi] at hf
        obtain ⟨g1,g2,g3⟩ := h.pred i f hf
        refine ⟨g1,g2,?_⟩
        dsimp only
        rw [update_of_ne hi]
        omega
  · exact h

theorem Dists.Good.pass (h : d.Good edges) {l : List DcEdge} (hl : ∀ e ∈ l, e ∈ edges) :
    (l.foldl Solver.relax (d,last)).1.Good edges := by
  induction l generalizing d last with
  | nil => exact h
  | cons e l ih =>
    rw [List.foldl_cons]
    exact ih (h.relax (hl e (by simp))) fun f hf => hl f (by simp [hf])

theorem Dists.Good.passes (h : d.Good edges) (hp : passes edges n d = some (d',y)) :
    d'.Good edges := by
  induction n generalizing d with
  | zero => simp [Solver.passes] at hp
  | succ n ih =>
    have hpass : (edges.foldl Solver.relax (d,none)).1.Good edges := h.pass fun e he => he
    rw [Solver.passes] at hp
    split at hp
    · cases hp
    · rename_i d₁ y₁ heq
      rw [heq] at hpass
      split_ifs at hp with hn
      · cases hp
        exact hpass
      · exact ih hpass hp

end Distances

section Explain

variable {L : ℕ → Variable} {ids : ℕ → ℕ} {r : DiffRel} {st : RelState} {need : ℕ}
  {lits lits' : List Literal} {edges : List DcEdge} {d : Dists}

/-- A literal of the list is about the bound of the slot `s`. -/
def Names (ids : ℕ → ℕ) (r : DiffRel) (lits : List Literal) (s : ℕ) : Prop :=
  ∃ l ∈ lits, l.varId = ids (r.v (s/2)) ∧ l.isLb = (s%2 == 0)

theorem Names.mono {s : ℕ} (h : Names ids r lits s) (hsub : lits ⊆ lits') : Names ids r lits' s := by
  obtain ⟨l,hl,h1,h2⟩ := h
  exact ⟨l,hsub hl,h1,h2⟩

/-- What the literals are: current bounds of the variables in places. -/
def Reads (L : ℕ → Variable) (ids : ℕ → ℕ) (n : ℕ) (lits : List Literal) : Prop :=
  ∀ l ∈ lits, ∃ i < n, l.varId = ids i ∧ l.bound = readBound (L i) l.isLb

theorem addLits_spec {slots : List ℕ} (hv : Valid L r st) (hn : ∀ k, r.v k < n)
    (hr : Reads L ids n lits) (h : addLits ids r st need slots lits = some lits') :
    lits ⊆ lits' ∧ Reads L ids n lits' ∧ ∀ s ∈ slots, need.testBit s = true → Names ids r lits' s := by
  induction slots generalizing lits with
  | nil =>
    cases h
    exact ⟨List.Subset.refl _,hr,fun s hs => by simp at hs⟩
  | cons s slots ih =>
    rw [addLits] at h
    dsimp only at h
    split_ifs at h with hbit hdup hlen
    · obtain ⟨g1,g2,g3⟩ := ih hr h
      refine ⟨g1,g2,fun t ht hb => ?_⟩
      rcases mem_cons.mp ht with rfl | ht
      · obtain ⟨l,hl,heq⟩ := List.any_eq_true.mp hdup
        rw [Bool.and_eq_true,beq_iff_eq,beq_iff_eq] at heq
        exact ⟨l,g1 hl,heq.1,heq.2⟩
      · exact g3 t ht hb
    · have hr' : Reads L ids n (lits ++ [slotLit ids r st s]) := fun l hl => by
        rcases List.mem_append.mp hl with hl | hl
        · exact hr l hl
        · rw [List.mem_singleton] at hl
          subst hl
          refine ⟨r.v (s/2),hn _,rfl,?_⟩
          simp only [slotLit,readBound,hv.lo,hv.hi]
      obtain ⟨g1,g2,g3⟩ := ih hr' h
      refine ⟨fun l hl => g1 (List.mem_append_left _ hl),g2,fun t ht hb => ?_⟩
      rcases mem_cons.mp ht with rfl | ht
      · exact ⟨_,g1 (List.mem_append_right _ (List.mem_singleton.mpr rfl)),rfl,rfl⟩
      · exact g3 t ht hb
    · obtain ⟨g1,g2,g3⟩ := ih hr h
      refine ⟨g1,g2,fun t ht hb => ?_⟩
      rcases mem_cons.mp ht with rfl | ht
      · exact absurd hb hbit
      · exact g3 t ht hb

def Explained (L : ℕ → Variable) (ids : ℕ → ℕ) (lits : List Literal) (e : DcEdge) : Prop :=
  e.rel.kind ≠ .le → ∃ st, relValid L e.rel = some st ∧
    ∀ s < 6, (edgeNeed st e).testBit s = true → Names ids e.rel lits s

theorem Explained.mono (h : Explained L ids lits e) (hsub : lits ⊆ lits') :
    Explained L ids lits' e := fun hk => by
  obtain ⟨st,h1,h2⟩ := h hk
  exact ⟨st,h1,fun s hs hb => (h2 s hs hb).mono hsub⟩

theorem edgeLits_spec (hn : ∀ k, e.rel.v k < n) (hr : Reads L ids n lits)
    (h : edgeLits L ids e lits = some lits') :
    lits ⊆ lits' ∧ Reads L ids n lits' ∧ Explained L ids lits' e := by
  unfold edgeLits at h
  split_ifs at h with hk
  · cases h
    exact ⟨List.Subset.refl _,hr,fun hne => absurd hk hne⟩
  · split at h
    · cases h
    · rename_i st hst
      obtain ⟨g1,g2,g3⟩ := addLits_spec (relValid_valid hst hk) hn hr h
      exact ⟨g1,g2,fun _ => ⟨st,hst,fun s hs hb => g3 s (List.mem_range.mpr hs) hb⟩⟩

/-- Round a cycle the true weight is at most the fall in distance, and every edge with its
literals adds to the bound on the way. -/
theorem collectCycle_spec {y node : ℕ} {total t : BitVec 64} {m : ℕ} (hd : d.Good edges)
    (hn : ∀ e ∈ edges, ∀ k, e.rel.v k < m) (hr : Reads L ids m lits)
    (h : collectCycle L ids d y n node total lits = some (t,lits')) :
    lits ⊆ lits' ∧ Reads L ids m lits' ∧ ∃ S : ℤ, t = total+BitVec.ofInt 64 S ∧
      (d.dist y).toInt+S ≤ (d.dist node).toInt ∧
      ∀ z : ℕ → ℤ, (∀ e ∈ edges, Explained L ids lits' e → z e.v ≤ z e.u+e.w.toInt) → z node ≤ z y+S := by
  induction n generalizing node total lits with
  | zero => simp [collectCycle] at h
  | succ n ih =>
    rw [collectCycle] at h
    split at h
    · cases h
    · rename_i e hpred
      obtain ⟨he,hev,hdist⟩ := hd.pred node e hpred
      split at h
      · cases h
      · rename_i lits₁ hlits
        obtain ⟨g1,g2,g3⟩ := edgeLits_spec (hn e he) hr hlits
        have hw : BitVec.ofInt 64 e.w.toInt = e.w := BitVec.ofInt_toInt
        split_ifs at h with huy
        · cases h
          refine ⟨g1,g2,e.w.toInt,by rw [hw],by rw [← huy]; exact hdist,fun z hz => ?_⟩
          rw [← hev,← huy]
          exact hz e he g3
        · obtain ⟨k1,k2,S,k3,k4,k5⟩ := ih g2 h
          refine ⟨List.Subset.trans g1 k1,k2,S+e.w.toInt,?_,by omega,fun z hz => ?_⟩
          · rw [k3,BitVec.ofInt_add,hw,BitVec.add_assoc,BitVec.add_comm e.w]
          · have h1 := k5 z hz
            have h2 := hz e he (g3.mono k1)
            rw [hev] at h2
            omega

end Explain

section Propagator

variable {D : DcGraph} {L vars : ℕ → Variable} {s : Engine} {σ : ℕ → ℤ} {y : ℕ} {d : Dists}
  {lits : List Literal}

theorem relEdges_rel {r : DiffRel} (he : e ∈ relEdges L r) : e.rel = r := by
  unfold relEdges at he
  split at he
  · simp at he
  · dsimp only at he
    split at he <;> simp only [mem_cons,not_mem_nil,or_false] at he
    · rw [he]
    · rcases he with rfl | rfl | rfl | rfl <;> rfl
    · rcases he with rfl | rfl | rfl | rfl <;> rfl
    · rcases he with rfl | rfl <;> rfl

def DcGraph.watched (D : DcGraph) : List ℕ := (List.range D.nVars).map D.ids

def DcGraph.InType (D : DcGraph) (vars : ℕ → Variable) (σ : ℕ → ℤ) : Prop :=
  ∀ id ∈ D.watched, (vars id).bot ≤ σ id ∧ σ id ≤ (vars id).top

theorem DcGraph.mem_watched {i : ℕ} (hi : i < D.nVars) : D.ids i ∈ D.watched :=
  List.mem_map.mpr ⟨i,List.mem_range.mpr hi,rfl⟩

theorem DcGraph.view_of_lt {i : ℕ} (hi : i < D.nVars) : D.view vars i = vars (D.ids i) := if_pos hi

/-- The literals found are current bounds, and no solution meets them all. -/
theorem findCycle_spec (hok : ∀ id ∈ D.watched, (vars id).Ok)
    (h : findCycle D (D.view vars) = some (y,d,lits)) :
    Reads (D.view vars) D.ids D.nVars lits ∧
      ∀ σ, D.InType vars σ → (∀ l ∈ lits, litSays (vars l.varId) l (σ l.varId)) → ¬D.Holds σ := by
  unfold findCycle at h
  dsimp only at h
  split_ifs at h with hempty
  split at h
  · cases h
  · rename_i d₁ last hpass
    split at h
    · cases h
    · rename_i y₁ hwalk
      split at h
      · cases h
      · rename_i total lits₁ hcol
        split_ifs at h with htotal
        cases h
        have hgood : Dists.Good (D.rels.flatMap (relEdges (D.view vars)))
            ⟨fun _ => 0#64,fun _ => none⟩ :=
          ⟨fun _ => by simp,fun _ => by simp,fun _ _ hf => by simp at hf⟩
        have hrel : ∀ e ∈ D.rels.flatMap (relEdges (D.view vars)), e.rel ∈ D.rels ∧
            e ∈ relEdges (D.view vars) e.rel := fun e he => by
          obtain ⟨r,hr,her⟩ := List.mem_flatMap.mp he
          have hre := relEdges_rel her
          rw [hre]
          exact ⟨hr,her⟩
        obtain ⟨_,hreads,S,hS,hdist,hz⟩ := collectCycle_spec (hgood.passes hpass)
          (fun e he k => D.within e.rel (hrel e he).1 k) (fun l hl => by simp at hl) hcol
        refine ⟨hreads,fun σ htype hlits hD => htotal ?_⟩
        have hround := hz (fun i => σ (D.ids i)) fun e he hexp => by
          obtain ⟨hr,her⟩ := hrel e he
          have hwithin := D.within e.rel hr
          refine relEdges_ok (y:=fun i => σ (D.ids i)) her (hD e.rel hr) fun hk st hst => ?_
          obtain ⟨st',hst',hnames⟩ := hexp hk
          obtain rfl : st' = st := Option.some.inj (hst'.symm.trans hst)
          refine ⟨fun k => ?_,fun k => ?_,fun k => ?_,fun s hs hb => ?_⟩
          · rw [DcGraph.view_of_lt (hwithin k)]
            exact hok _ (DcGraph.mem_watched (hwithin k))
          · rw [DcGraph.view_of_lt (hwithin k)]
            exact (htype _ (DcGraph.mem_watched (hwithin k))).1
          · rw [DcGraph.view_of_lt (hwithin k)]
            exact (htype _ (DcGraph.mem_watched (hwithin k))).2
          · obtain ⟨l,hl,hid,hlb⟩ := hnames s hs hb
            have hsays := hlits l hl
            obtain ⟨i,hi,hid',hbound⟩ := hreads l hl
            rw [DcGraph.view_of_lt hi,← hid',hlb] at hbound
            rw [litSays,hbound,hlb,hid] at hsays
            rw [slotSays,DcGraph.view_of_lt (hwithin _)]
            by_cases hs2 : s%2 = 0
            · rw [if_pos hs2]
              simpa [hs2,readBound,Variable.least] using hsays
            · rw [if_neg hs2]
              simpa [hs2,readBound,Variable.most] using hsays
        have hS0 : S = 0 := by omega
        rw [hS,hS0]
        decide

theorem Fire.wp_readAll {Q : PropResult → (ℕ → Variable) → Prop} {ids : ℕ → ℕ} {v₀ : Variable}
    {k : (ℕ → Variable) → Fire} :
    (Fire.readAll ids v₀ n k).wp Q vars ↔ (k fun i => if i < n then vars (ids i) else v₀).wp Q vars := by
  induction n generalizing k with
  | zero => simp [Fire.readAll]
  | succ n ih =>
    simp only [Fire.readAll,Fire.wp]
    rw [ih]
    have hview : Function.update (fun i => if i < n then vars (ids i) else v₀) n (vars (ids n))
        = fun i => if i < n+1 then vars (ids i) else v₀ := by
      funext i
      by_cases hi : i = n
      · subst hi
        rw [update_self,if_pos (by omega)]
      · rw [update_of_ne hi]
        split_ifs <;> first | rfl | omega
    rw [hview]

theorem findCycle_of_conflict (hc : ((fireDiffcycle D).run s).1 = .conflict) :
    ∃ y d lits, findCycle D (D.view s.ctx.vars) = some (y,d,lits) := by
  cases h : findCycle D (D.view s.ctx.vars) with
  | some p => exact ⟨p.1,p.2.1,p.2.2,rfl⟩
  | none =>
    have hok : (fireDiffcycle D).wp (fun r _ => r = .ok) s.ctx.vars := by
      unfold fireDiffcycle
      rw [Fire.wp_readAll]
      have h' : findCycle D (fun i => if i < D.nVars then s.ctx.vars (D.ids i) else noVariable) =
        none := h
      rw [h']
      rfl
    have := Fire.run_of_wp hok
    rw [this] at hc
    cases hc

/-- A conflict of the cycle propagator has no solution, and the literals it leaves exclude
every one that lies in the types of the variables. -/
theorem fireDiffcycle_conflict (hok : ∀ id ∈ D.watched, (s.ctx.vars id).Ok)
    (hc : ((fireDiffcycle D).run s).1 = .conflict) :
    (∀ σ, Inside D.watched s.ctx.vars σ → ¬D.Holds σ) ∧ ∀ σ, D.InType s.ctx.vars σ →
        (∀ l ∈ explainDiffcycle D s.ctx.vars, litSays (s.ctx.vars l.varId) l (σ l.varId)) →
          ¬D.Holds σ := by
  obtain ⟨y,d,lits,hfind⟩ := findCycle_of_conflict hc
  obtain ⟨hreads,hno⟩ := findCycle_spec hok hfind
  have hexp : explainDiffcycle D s.ctx.vars = lits := by rw [explainDiffcycle,hfind]
  refine ⟨fun σ hσ => hno σ (fun id hid => ?_) fun l hl => ?_,fun σ htype hlits => ?_⟩
  · exact (hok id hid).inType (hσ.least id hid) (hσ.most id hid)
  · obtain ⟨i,hi,hid,hbound⟩ := hreads l hl
    have hw : l.varId ∈ D.watched := hid ▸ DcGraph.mem_watched hi
    rw [DcGraph.view_of_lt hi,← hid] at hbound
    unfold litSays
    rw [hbound]
    cases hlb : l.isLb
    · simpa [readBound,Variable.most] using hσ.most l.varId hw
    · simpa [readBound,Variable.least] using hσ.least l.varId hw
  · rw [hexp] at hlits
    exact hno σ htype hlits

def shortSum : DcGraph where
  rels := [⟨.sum,8,fun k => if k = 0 then 2 else if k = 1 then 0 else 1,0#64⟩,
    ⟨.le,0,fun k => if k = 0 then 2 else 0,-1#64⟩]
  nVars := 3
  ids := id
  within r hr k := by
    simp only [mem_cons,not_mem_nil,or_false] at hr
    rcases hr with rfl | rfl <;> (dsimp only; split_ifs <;> omega)

theorem fireDiffcycle_conflict_shortSum :
    ¬∃ σ, Inside [0,1,2] (holding fun _ => wideVar 1#64 5#64 8 false).ctx.vars σ ∧
      shortSum.Holds σ := fun ⟨σ,hin,hholds⟩ =>
  (fireDiffcycle_conflict (D:=shortSum) (s:=holding fun _ => wideVar 1#64 5#64 8 false)
    (fun _ _ => wideVar_ok (by decide) (by decide) (by decide) (by decide)) (by decide)).1
    σ hin hholds

end Propagator

end Solver
end DvSolve
