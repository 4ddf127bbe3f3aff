import DvSolve.SvMaskRoot

/-! Single masks as slices, and the roots of a problem rewritten. -/
namespace DvSolve
namespace Sv

open TwosComp BitRuns Validate
open List (Forall₂ mem_cons)
open Option (bind_eq_some_iff map_eq_some_iff)

variable {Q : ℕ → ℕ → Prop} {Γ : ℕ → Ty} {ρ : Env} {typeOf : Expr → Option Ty}
variable {x : Expr} {W : ℕ} {s : MrwSrc} {l r e : Expr} {op : BinOp} {ptr : Expr → Expr → Bool}

def Extends (Γ : ℕ → Ty) (x : Expr) : Prop :=
  ∀ ρ W, (ty Γ x).w ≤ W → eval Γ ρ x W false = wrap (eval Γ ρ x (ty Γ x).w (ty Γ x).s) W false

theorem extends_of_wrap
    (h : ∀ ρ, ∃ v, InTy v (ty Γ x).w (ty Γ x).s ∧ ∀ W S, eval Γ ρ x W S = wrap v W S) :
    Extends Γ x := by
  intro ρ W _
  obtain ⟨v,hv,heval⟩ := h ρ
  rw [heval,heval,wrap_of_inTy hv]

theorem extends_const {c : Expr} {m : ℕ} (h : mrwConst c W = some m) : Extends Γ c := by
  cases c with
  | const value width isSigned => exact extends_of_wrap fun ρ => ⟨_,wrap_inTy _ _ _,fun W S => rfl⟩
  | _ => simp [mrwConst] at h

theorem extends_source {n : ℕ} {o : MrwSrc} (hsized : Sized Q Γ x) (hex : Explicit Γ x)
    (h : mrwSrc typeOf n x W = some (some o)) : Extends Γ x := by
  induction n generalizing x W o with
  | zero => simp [mrwSrc] at h
  | succ n ih =>
    cases x with
    | var id => exact extends_of_wrap fun ρ => ⟨_,by rw [ty]; exact wrap_inTy _ _ _,fun W S => rfl⟩
    | extend | svCast | extract =>
      refine extends_of_wrap fun ρ => ⟨_,?_,fun W S => rfl⟩
      simp only [ty,Ty.fix_s]
      exact wrap_inTy _ _ _
    | binary op l r =>
      cases r with
      | const value width isSigned =>
        obtain ⟨hop,h1⟩ := ite_null_eq_some h
        obtain rfl := not_not.mp hop
        obtain ⟨t,-,h2⟩ := bind_eq_some_iff.mp h1
        obtain ⟨-,h3⟩ := ite_null_eq_some h2
        obtain ⟨r,hr,h4⟩ := map_eq_some_iff.mp h3
        obtain ⟨o',rfl,-⟩ := bind_eq_some_iff.mp h4
        have hl := ih hsized.1 hex.2.1 hr
        have hs : (ty Γ l).s = false := (hex.1 rfl).1
        have hty : ty Γ (.binary .rshift l (.const value width isSigned)) = ty Γ l := ty_shift rfl _ _
        intro ρ W hW
        rw [hty] at hW ⊢
        have hin := eval_inTy_own (Γ := Γ) (ρ := ρ) l
        have hsame := hl ρ W hW
        rw [hs] at hin hsame ⊢
        rw [wrap_wider hin hW] at hsame
        have hshift : ∀ w a n, Sv.shift .rshift ⟨w,false⟩ a n = wrap ((pat a w >>> n : ℕ) : ℤ) w false :=
          fun _ _ _ => rfl
        have hpat : pat (eval Γ ρ l (ty Γ l).w false) W = pat (eval Γ ρ l (ty Γ l).w false) (ty Γ l).w := by
          have h1 := pat_of_inTy hin hW
          have h2 := pat_of_inTy hin (le_refl _)
          exact_mod_cast h1.trans h2.symm
        rw [eval_shift rfl,eval_shift rfl,hshift,hshift,hsame,hpat]
        have hlt : pat (eval Γ ρ l (ty Γ l).w false) (ty Γ l).w < 2^(ty Γ l).w := pat_lt _ _
        rw [wrap_false,wrap_false,wrap_false,pat_natCast,pat_natCast,pat_natCast,
          Nat.mod_eq_of_lt ((Nat.shiftRight_le _ _).trans_lt hlt)]
      | _ => simp [mrwSrc] at h
    | _ => simp [mrwSrc] at h

theorem Extends.testBit (h : Extends Γ x) {i : ℕ} (hW : (ty Γ x).w ≤ W) (hi : i < W) (ρ : Env) :
    (pat (eval Γ ρ x W false) W).testBit i =
      if i < (ty Γ x).w then (pat (eval Γ ρ x (ty Γ x).w (ty Γ x).s) (ty Γ x).w).testBit i
      else (ty Γ x).s && (pat (eval Γ ρ x (ty Γ x).w (ty Γ x).s) (ty Γ x).w).testBit ((ty Γ x).w-1) := by
  have hown := wrap_of_inTy (eval_inTy_own (Γ := Γ) (ρ := ρ) x)
  rw [h ρ W hW,pat_wrap,← wrap_testBit _ _ _ hi,hown]

theorem eval_band_wider {y : Expr} (hx : Extends Γ x) (hy : Extends Γ y)
    (hs : ((ty Γ x).s && (ty Γ y).s) = false) (hW : max (ty Γ x).w (ty Γ y).w ≤ W) :
    eval Γ ρ (.binary .band x y) W false = eval Γ ρ (.binary .band x y) (max (ty Γ x).w (ty Γ y).w) false := by
  have hpos : 0 < max (ty Γ x).w (ty Γ y).w := lt_max_of_lt_left (ty_w_pos Γ x)
  have hlt : pat (eval Γ ρ (.binary .band x y) (max (ty Γ x).w (ty Γ y).w) false) (max (ty Γ x).w (ty Γ y).w) < 2^W :=
    (pat_lt _ _).trans_le (Nat.pow_le_pow_right (by decide) hW)
  rw [eval_eq_pat (e := .binary .band x y) (hpos.trans_le hW),
    eval_eq_pat (e := .binary .band x y) (W := max (ty Γ x).w (ty Γ y).w) hpos,Nat.cast_inj,
    eq_iff_testBit (pat_lt _ _) hlt]
  intro i hi
  rw [pat_band,pat_band,Nat.testBit_and,Nat.testBit_and,hx.testBit (by omega) hi,hy.testBit (by omega) hi]
  by_cases hin : i < max (ty Γ x).w (ty Γ y).w
  · rw [hx.testBit (le_max_left _ _) hin,hy.testBit (le_max_right _ _) hin]
  · -- above both widths one of them is zero
    rw [Nat.testBit_lt_two_pow (x := pat (eval Γ ρ x (max (ty Γ x).w (ty Γ y).w) false) _)
      ((pat_lt _ _).trans_le (Nat.pow_le_pow_right (by decide) (not_lt.mp hin))),if_neg (by omega),
      if_neg (by omega),Bool.false_and]
    rcases Bool.and_eq_false_iff.mp hs with h | h <;> simp [h]

theorem slice_in_place (hQ : Narrow Q) (hs : SrcSpec Γ x W s) {h lo : ℕ} (hlo : lo ≤ h)
    (hh : h < s.avail) (hno : ¬(lo = 0 ∧ h = s.avail-1)) {f : Expr}
    (hf : (if lo > 0 then (mkConst 0 false lo).map fun z => .concat (mrwField s h lo) z lo
      else some (mrwField s h lo)) = some f) :
    ty Γ f = ⟨h+1,false⟩ ∧ selfDetermined f = true ∧ Sized Q Γ f ∧
      ∀ ρ, eval Γ ρ f (h+1) false = ((fieldVal ρ s h lo*2^lo : ℕ) : ℤ) := by
  have hfits := hs.fits
  have hwf : h+s.off < s.vw := by omega
  have htf := ty_field hs.width hlo hwf
  have hlt : ∀ ρ, fieldVal ρ s h lo*2^lo < 2^(h+1) := fun ρ => by
    calc fieldVal ρ s h lo*2^lo < 2^(h+1-lo)*2^lo := by
          apply Nat.mul_lt_mul_of_pos_right (fieldVal_lt s h lo) (Nat.two_pow_pos lo)
      _ = 2^(h+1) := by rw [← pow_add,Nat.sub_add_cancel (by omega)]
  split_ifs at hf with hl0
  · obtain ⟨z,hz,rfl⟩ := map_eq_some_iff.mp hf
    obtain rfl := mkConst_eq hz
    have hty : ty Γ (.concat (mrwField s h lo) (.const 0 lo false) lo) = ⟨h+1,false⟩ := by
      rw [ty,htf,Nat.sub_add_cancel (by omega)]
      exact Ty.fix_eq (by simp)
    refine ⟨hty,rfl,⟨sized_field hQ hs.width_le hlo hwf,⟨by norm_num,by norm_num⟩,hl0⟩,fun ρ => ?_⟩
    have hz : pat (eval Γ ρ (.const 0 lo false) (ty Γ (.const 0 lo false)).w (ty Γ (.const 0 lo false)).s) lo = 0 := by
      simp [eval,constValue,wrap_of_inTy (inTy_zero _ _),pat_zero]
    have hfix : Ty.fix ⟨h+1-lo+lo,false⟩ = ⟨h+1,false⟩ := by
      rw [Nat.sub_add_cancel (by omega)]
      exact Ty.fix_eq (by simp)
    simp only [eval] at hz ⊢
    rw [hz,htf,hfix,pat_field hs.width hlo hwf,wrap_wrap (le_refl _),wrap_false,Nat.add_zero,pat_natCast,
      Nat.mod_eq_of_lt (hlt ρ)]
  · obtain rfl := Option.some.inj hf
    obtain rfl : lo = 0 := by omega
    -- it is not the whole variable
    have hsel : mrwField s h 0 = .extract (.var s.var) (h+s.off) (0+s.off) := by
      rw [mrwField,if_neg]
      omega
    have hty : ty Γ (mrwField s h 0) = ⟨h+1,false⟩ := by
      rw [hsel,ty,show h+s.off+1-(0+s.off) = h+1 by omega]
      exact Ty.fix_eq (by simp)
    refine ⟨hty,by rw [hsel]; rfl,sized_field hQ hs.width_le hlo hwf,fun ρ => ?_⟩
    have hp := pat_field (Γ := Γ) (ρ := ρ) hs.width hlo hwf false
    rw [Nat.sub_zero] at hp
    rw [eval_eq_pat (e := mrwField s h 0) (by omega),hp,pow_zero,mul_one]

def runTop (s : MrwSrc) (hi : ℕ) : ℕ := if hi < s.avail then hi else s.avail-1

theorem runTop_spec {lo hi : ℕ} (hlo : lo < s.avail) (hle : lo ≤ hi) :
    lo ≤ runTop s hi ∧ runTop s hi < s.avail ∧ runTop s hi ≤ hi ∧ (runTop s hi = hi ∨ runTop s hi = s.avail-1) := by
  unfold runTop
  split_ifs <;> omega

theorem eval_runmask {m w lo hi n : ℕ} (hT : ty Γ (.binary .band l r) = ⟨w,false⟩)
    (hx : Masked Q Γ .band (.binary .band l r) w x m) (hsrc : mrwSrc typeOf n x w = some (some s))
    (hrun : mrwRuns m w = some [(lo,hi)]) (hlo : lo < s.avail) (ρ : Env)
    (hbits : ∀ i, i ≤ hi → i < w → (pat (eval Γ ρ x w false) w).testBit i = srcBit ρ s i) {V : ℕ} (hV : w ≤ V) :
    eval Γ ρ (.binary .band l r) V false = ((fieldVal ρ s (runTop s hi) lo*2^lo : ℕ) : ℤ) := by
  have hrange := runs_set (mrwRuns_eq hrun ▸ List.mem_singleton_self (lo,hi))
  simp only at hrange
  obtain ⟨ht1,ht2,ht3,ht4⟩ := runTop_spec hlo hrange.2.1
  have hpos : 0 < w := by omega
  have hjoin : ty Γ (.binary .band l r) = (ty Γ l).join (ty Γ r) := ty_arith rfl _ _
  rw [hT] at hjoin
  have hw : w = max (ty Γ l).w (ty Γ r).w := congrArg Ty.w hjoin
  have hsg : ((ty Γ l).s && (ty Γ r).s) = false := (congrArg Ty.s hjoin).symm
  have hext : Extends Γ l ∧ Extends Γ r := by
    have h1 := extends_source hx.sized hx.shifts hsrc
    obtain ⟨y,hy,h | h⟩ := hx.other
    · obtain ⟨-,rfl,rfl⟩ := Expr.binary.inj h
      exact ⟨h1,extends_const hy⟩
    · obtain ⟨-,rfl,rfl⟩ := Expr.binary.inj h
      exact ⟨extends_const hy,h1⟩
  rw [eval_band_wider hext.1 hext.2 hsg (by omega),← hw,eval_eq_pat (e := .binary .band l r) hpos,hx.band,
    and_run hx.lt hrun]
  congr 2
  have hp := Nat.pow_le_pow_right (show 0 < 2 by decide) (show runTop s hi+1-lo ≤ hi+1-lo by omega)
  rw [eq_iff_testBit (Nat.mod_lt _ (Nat.two_pow_pos _)) ((fieldVal_lt s _ lo).trans_le hp)]
  intro i hin
  rw [Nat.testBit_mod_two_pow,Nat.testBit_shiftRight,hbits _ (by omega) (by omega),srcBit,
    decide_eq_true hin,Bool.true_and]
  by_cases hit : i < runTop s hi+1-lo
  · rw [fieldVal_testBit s hit,decide_eq_true (by omega),Bool.true_and,Nat.add_comm lo i]
  · rw [Nat.testBit_lt_two_pow ((fieldVal_lt s _ lo).trans_le
      (Nat.pow_le_pow_right (by decide) (not_lt.mp hit))),decide_eq_false (by omega),Bool.false_and]

theorem eval_zeroExtend {g : Expr} {n w : ℕ} (hg : ty Γ g = ⟨n,false⟩) (hn : 0 < n) (hw : n < w) :
    ty Γ (.extend g n w false) = ⟨w,false⟩ ∧
      ∀ ρ V, w ≤ V → eval Γ ρ (.extend g n w false) V false = eval Γ ρ g n false := by
  have hfix : Ty.fix ⟨w,false⟩ = ⟨w,false⟩ := Ty.fix_eq (by simp; omega)
  refine ⟨by rw [ty,hg]; exact hfix,fun ρ V hV => ?_⟩
  have hin : InTy (eval Γ ρ g n false) n false := eval_inTy hn (by simp)
  simp only [eval]
  rw [hg,hfix,wrap_of_inTy hin,wrap_wider hin hw.le,wrap_wider hin (by omega)]

theorem mrwRunmask_spec (ht : Typed Γ typeOf) (hQ : Narrow Q) {eq : Bool} {a c f : Expr}
    (ha : Operand Q Γ a) (hW : W ≤ 64) (hreads : RunReads Γ eq a c W) (hleft : eq = true → ¬EqTakes Γ a c W)
    (h : mrwRunmask typeOf a = some (some f)) :
    ty Γ f = ty Γ a ∧ (ty Γ a).s = false ∧ Sized Q Γ f ∧
      ∀ ρ V, (ty Γ a).w ≤ V → eval Γ ρ f V false = eval Γ ρ a V false := by
  cases a with
  | binary op l r =>
    obtain ⟨t,hty,h1⟩ := bind_eq_some_iff.mp h
    obtain rfl := ht _ _ hty
    obtain ⟨hno,h2⟩ := ite_null_eq_some h1
    simp only [not_or,Bool.not_eq_true,not_lt] at hno
    cases hm : mrwMasked (.binary op l r) (ty Γ (.binary op l r)).w false with
    | none => simp [hm] at h2
    | some p =>
      obtain ⟨x,m⟩ := p
      simp only [hm] at h2
      have hx := mrwMasked_spec ha.sized ha.shifts hm
      have hop : op = .band := by
        obtain ⟨y,-,h | h⟩ := hx.other <;> exact (Expr.binary.inj h).1
      subst hop
      split at h2
      · next lo hi hrun =>
        obtain ⟨o,hsrc,h3⟩ := bind_eq_some_iff.mp h2
        cases o with
        | none => simp at h3
        | some s =>
          obtain ⟨hkeep,h4⟩ := ite_null_eq_some h3
          obtain ⟨g,hg,h5⟩ := bind_eq_some_iff.mp h4
          simp only [not_or,not_le] at hkeep
          have hT : ty Γ (.binary .band l r) = ⟨(ty Γ (.binary .band l r)).w,false⟩ := by rw [← hno.1]
          obtain ⟨hs,hown⟩ := mrwSource_spec ht hx.sized hx.shifts hsrc
          have hrange := runs_set (mrwRuns_eq hrun ▸ List.mem_singleton_self (lo,hi))
          simp only at hrange
          have htop := runTop_spec hkeep.1 hrange.2.1
          have hbits : ∀ ρ i, i ≤ hi → i < (ty Γ (.binary .band l r)).w →
              (pat (eval Γ ρ x (ty Γ (.binary .band l r)).w false) (ty Γ (.binary .band l r)).w).testBit i =
                srcBit ρ s i := by
            intro ρ i hih hiw
            have hpart : ¬(lo = 0 ∧ s.avail ≤ hi+1) := by
              rintro ⟨h0,h1⟩
              exact hkeep.2 ⟨h0,by split_ifs <;> omega⟩
            rcases hreads x m lo hi s hW hno.1 hm hrun hown hkeep.1 hpart with hlt | hexact | ⟨heq,htakes⟩
            · exact hs.bit_below (by omega) hiw ρ false
            · rw [hs.bits_iff.mpr hexact ρ false i hiw,srcBit]
            · exact absurd htakes (hleft heq)
          have hval := fun ρ V hV => eval_runmask (V := V) hT hx hsrc hrun hkeep.1 ρ (hbits ρ) hV
          obtain ⟨htg,hself,hsized,hgv⟩ := slice_in_place hQ hs htop.1 htop.2.1 hkeep.2 hg
          change (if runTop s hi+1 < (ty Γ (.binary .band l r)).w then
            (mkExt g (runTop s hi+1) (ty Γ (.binary .band l r)).w false).map some else some (some g)) =
              some (some f) at h5
          split_ifs at h5 with hfull
          · obtain ⟨e,he,h6⟩ := map_eq_some_iff.mp h5
            obtain rfl := Option.some.inj h6
            obtain rfl := mkExt_eq he
            obtain ⟨hte,hev⟩ := eval_zeroExtend htg (Nat.succ_pos _) hfull
            refine ⟨hte.trans hT.symm,hno.1,⟨hsized,Nat.succ_pos _,ty_w_pos _ _⟩,fun ρ V hV => ?_⟩
            exact (hev ρ V hV).trans ((hgv ρ).trans (hval ρ V hV).symm)
          · obtain rfl := Option.some.inj (Option.some.inj h5)
            have hw : runTop s hi+1 = (ty Γ (.binary .band l r)).w := by omega
            refine ⟨by rw [htg,hw,← hT],hno.1,hsized,fun ρ V hV => ?_⟩
            rw [eval_selfDetermined hself (by rw [htg,hw]; exact hV) (by rw [htg]),htg,hgv,hval ρ V hV]
      · simp at h2
  | _ => simp [mrwRunmask] at h

theorem mrwFirst_cons {x : Option (Option Expr)} {xs : List (Option (Option Expr))}
    (h : mrwFirst (x :: xs) = some (some e)) :
    x = some (some e) ∨ x = some none ∧ mrwFirst xs = some (some e) := by
  obtain ⟨r,rfl,h1⟩ := bind_eq_some_iff.mp h
  cases r with
  | none => exact Or.inr ⟨rfl,h1⟩
  | some r => exact Or.inl h1

theorem mrwEqConst_takes (ht : Typed Γ typeOf) {a c : Expr} (h : mrwEqConst typeOf op a c W = some none) :
    ¬EqTakes Γ a c W := by
  rintro ⟨x,m,v,o,rs,hand,hc,hin,hown,hrs,hfree,r,hr,hlo⟩
  simp only [mrwEqConst,hand,hc,hin,ne_eq,not_true,if_false] at h
  obtain ⟨q,hq,h1⟩ := bind_eq_some_iff.mp h
  obtain rfl := Option.some.inj ((mrwSrc_own ht hq).symm.trans hown)
  have hany : ¬rs.any (mrwStuck o v) = true := by
    rw [List.any_eq_true]
    rintro ⟨r,hr,hb⟩
    rw [hfree r hr] at hb
    exact absurd hb (by decide)
  simp only [hrs,if_neg hany] at h1
  obtain ⟨ts,hts,hchain⟩ := map_eq_some_iff.mp h1
  have hmem : r ∈ rs.filter fun r => decide (r.1 < o.avail) := List.mem_filter.mpr ⟨hr,by simpa using hlo⟩
  cases ts with
  | nil =>
    rw [List.forall₂_nil_right_iff.mp (forall₂_of_mapM hts)] at hmem
    exact absurd hmem List.not_mem_nil
  | cons => simp [mrwChain] at hchain

theorem isCmp_flip (hop : op.isCmp = true) : (mrwFlip op).isCmp = true := by
  cases op <;> simp_all [mrwFlip,BinOp.isCmp]

theorem rel_flip (hop : op.isCmp = true) (a b : Expr) (ρ : Env) :
    rel Γ ρ (mrwFlip op) b a = rel Γ ρ op a b := by
  have hflip : mrwFlip op = flipCmp op := by cases op <;> rfl
  have hjoin : (ty Γ b).join (ty Γ a) = (ty Γ a).join (ty Γ b) := by
    rw [Ty.join,Ty.join,Nat.max_comm,Bool.and_comm]
  simp only [rel,hflip,hjoin]
  exact cmpVal_flip op hop _ _

theorem Rewrites.flip (hop : op.isCmp = true) {a b : Expr} (h : Rewrites Q Γ (mrwFlip op) b a e) :
    Rewrites Q Γ op a b e :=
  ⟨fun ρ => (h.1 ρ).trans (rel_flip hop a b ρ),h.2⟩

theorem runmask_operand (ht : Typed Γ typeOf) (hQ : Narrow Q) {eq : Bool} {a c : Expr} {a' : Option Expr}
    (ha : Operand Q Γ a) (hW : W ≤ 64) (hreads : RunReads Γ eq a c W) (hleft : eq = true → ¬EqTakes Γ a c W)
    (h : mrwRunmask typeOf a = some a') :
    ty Γ (a'.getD a) = ty Γ a ∧ Sized Q Γ (a'.getD a) ∧
      ∀ ρ V S, (ty Γ a).w ≤ V → (S = true → (ty Γ a).s = true) → eval Γ ρ (a'.getD a) V S = eval Γ ρ a V S := by
  cases a' with
  | none => exact ⟨rfl,ha.sized,fun _ _ _ _ _ => rfl⟩
  | some f =>
    obtain ⟨hty,hs,hsized,hval⟩ := mrwRunmask_spec ht hQ ha hW hreads hleft h
    refine ⟨hty,hsized,fun ρ V S hV hS => ?_⟩
    obtain rfl : S = false := by
      rw [Bool.eq_false_iff]
      intro h1
      rw [hS h1] at hs
      exact absurd hs (by decide)
    exact hval ρ V hV

theorem runmask_rewrites (ht : Typed Γ typeOf) (hQ : Narrow Q) (hop : op.isCmp = true)
    {l' r' : Option Expr} (hl : Operand Q Γ l) (hr : Operand Q Γ r) (hW : W ≤ 64)
    (hreads : RunReads Γ (isEq op) l r W ∧ RunReads Γ (isEq op) r l W)
    (hleft : isEq op = true → ¬EqTakes Γ l r W ∧ ¬EqTakes Γ r l W)
    (hl' : mrwRunmask typeOf l = some l') (hr' : mrwRunmask typeOf r = some r') :
    Rewrites Q Γ op l r (.binary op (l'.getD l) (r'.getD r)) := by
  obtain ⟨htl,hsl,hvl⟩ := runmask_operand ht hQ hl hW hreads.1 (fun h => (hleft h).1) hl'
  obtain ⟨htr,hsr,hvr⟩ := runmask_operand ht hQ hr hW hreads.2 (fun h => (hleft h).2) hr'
  refine ⟨fun ρ => ?_,hsl,hsr⟩
  rw [truth_cmp hop,rel,rel,htl,htr]
  rw [hvl ρ ((ty Γ l).join (ty Γ r)).w ((ty Γ l).join (ty Γ r)).s (le_max_left _ _)
      fun h => (Bool.and_eq_true_iff.mp h).1,
    hvr ρ ((ty Γ l).join (ty Γ r)).w ((ty Γ l).join (ty Γ r)).s (le_max_right _ _) fun h => (Bool.and_eq_true_iff.mp h).2]

theorem isEq_flip : isEq (mrwFlip op) = isEq op := by
  cases op <;> rfl

theorem mrwCmp_spec (ht : Typed Γ typeOf) (hQ : Narrow Q) (hptr : ∀ a b, ptr a b = true → a = b)
    (hop : op.isCmp = true) (hroot : Root Q Γ ptr (.binary op l r)) {bool : Expr → Option Expr}
    (hbool : ∀ x y, Root Q Γ ptr x → bool x = some y → (∀ ρ, truth Γ ρ y = truth Γ ρ x) ∧ Sized Q Γ y)
    (h : mrwCmp typeOf ptr bool op l r = some (some e)) : Rewrites Q Γ op l r e := by
  obtain ⟨hl,hr,hreads⟩ := hroot.operands hop
  have hmax : max (ty Γ r).w (ty Γ l).w = max (ty Γ l).w (ty Γ r).w := Nat.max_comm _ _
  obtain ⟨lt,hlt,h1⟩ := bind_eq_some_iff.mp h
  obtain ⟨rt,hrt,h2⟩ := bind_eq_some_iff.mp h1
  obtain rfl := ht _ _ hlt
  obtain rfl := ht _ _ hrt
  -- a comparison of a conditional is rewritten once more
  have hself : ∀ {op' : BinOp} {a b : Expr} {f : Option Expr → Option (Option Expr)},
      (mrwIteSelf typeOf ptr op' a b).bind f = some (some e) → f none = some none →
      (∀ r, f (some r) = (bool r).map some) → op'.isCmp = true → Operand Q Γ a → Operand Q Γ b →
      (∀ c x e', SelfIte Γ ptr a b c x e' → Reads Γ ptr (.root c) ∧ Reads Γ ptr (.cmp (isEq op') x e')) →
      Rewrites Q Γ op' a b e := by
    intro op' a b f hx hnone hsome hop' ha hb hr'
    obtain ⟨x,hx1,hx2⟩ := bind_eq_some_iff.mp hx
    cases x with
    | none => simp [hnone] at hx2
    | some x =>
      rw [hsome] at hx2
      obtain ⟨y,hy,he⟩ := map_eq_some_iff.mp hx2
      obtain rfl := Option.some.inj he
      obtain ⟨hr1,hr2⟩ := mrwIteSelf_spec ht hptr hop' ha hb hr' hx1
      obtain ⟨ht1,hs1⟩ := hbool x _ hr1 hy
      exact ⟨fun ρ => (ht1 ρ).trans (hr2 ρ),hs1⟩
  have hpass : ∀ {op' : BinOp} {a b : Expr} {f : Option Expr → Option (Option Expr)},
      (mrwIteSelf typeOf ptr op' a b).bind f = some none → (∀ r, f (some r) = (bool r).map some) →
      mrwIteSelf typeOf ptr op' a b = some none := by
    intro op' a b f hx hsome
    obtain ⟨x,hx1,hx2⟩ := bind_eq_some_iff.mp hx
    cases x with
    | none => exact hx1
    | some x =>
      rw [hsome] at hx2
      obtain ⟨y,-,he⟩ := map_eq_some_iff.mp hx2
      exact absurd he (Option.some_ne_none y)
  rcases mrwFirst_cons h2 with hm | ⟨hl0,h3⟩
  · exact hself hm rfl (fun _ => rfl) hop hl hr fun c x e' hs =>
      ⟨fun eq a b hm => hreads eq a b (.cond (Or.inl hs) hm),fun eq a b hm => hreads eq a b (.branch (Or.inl hs) hm)⟩
  rcases mrwFirst_cons h3 with hm | ⟨hr0,h4⟩
  · refine (hself hm rfl (fun _ => rfl) (isCmp_flip hop) hr hl fun c x e' hs => ?_).flip hop
    rw [isEq_flip]
    exact ⟨fun eq a b hm => hreads eq a b (.cond (Or.inr hs) hm),fun eq a b hm => hreads eq a b (.branch (Or.inr hs) hm)⟩
  rcases mrwFirst_cons h4 with hm | ⟨-,h5⟩
  swap
  · simp [mrwFirst] at h5
  have hl0 : ∀ c x e', ¬SelfIte Γ ptr l r c x e' := mrwIteSelf_none ht (hpass hl0 fun _ => rfl)
  have hr0 : ∀ c x e', ¬SelfIte Γ ptr r l c x e' := mrwIteSelf_none ht (hpass hr0 fun _ => rfl)
  have hhere := hreads _ _ _ (.here fun c x e' hs => hs.elim (hl0 c x e') (hr0 c x e'))
  obtain ⟨hW,hm⟩ := ite_null_eq_some hm
  have hrun : (isEq op = true → ¬EqTakes Γ l r (max (ty Γ l).w (ty Γ r).w) ∧
        ¬EqTakes Γ r l (max (ty Γ l).w (ty Γ r).w)) →
      mrwFirst [(mrwRunmask typeOf l).bind fun l' => (mrwRunmask typeOf r).map fun r' =>
        if l'.isNone && r'.isNone then none else some (.binary op (l'.getD l) (r'.getD r))] = some (some e) →
      Rewrites Q Γ op l r e := by
    intro hleft hx
    rcases mrwFirst_cons hx with hx | ⟨-,hx⟩
    · obtain ⟨l',hl',hx1⟩ := bind_eq_some_iff.mp hx
      obtain ⟨r',hr',hx2⟩ := map_eq_some_iff.mp hx1
      rw [Option.ite_none_left_eq_some] at hx2
      obtain rfl := Option.some.inj hx2.2
      exact runmask_rewrites ht hQ hop hl hr (not_lt.mp hW) hhere.runs hleft hl' hr'
    · simp [mrwFirst] at hx
  by_cases heq : op = .eq ∨ op = .neq
  · have hflip : mrwFlip op = op := by rcases heq with rfl | rfl <;> rfl
    have hback : ∀ {e}, Rewrites Q Γ op r l e → Rewrites Q Γ op l r e := fun h => by
      rw [← hflip] at h
      exact h.flip hop
    have heq' : isEq op = true := by rcases heq with rfl | rfl <;> rfl
    obtain ⟨hcl,hcr⟩ := hhere.eqs heq'
    obtain ⟨hal,har⟩ := hhere.aligns heq'
    rw [if_pos heq] at hm
    rcases mrwFirst_cons hm with h6 | ⟨h6,hm⟩
    · obtain ⟨hsized,hiff⟩ := mrwEqConst_spec ht hQ heq rfl hl h6
      exact ⟨hiff.mpr hcl,hsized⟩
    rcases mrwFirst_cons hm with h7 | ⟨h7,hm⟩
    · obtain ⟨hsized,hiff⟩ := mrwEqConst_spec ht hQ heq hmax hr h7
      exact hback ⟨hiff.mpr hcr,hsized⟩
    rcases mrwFirst_cons hm with h8 | ⟨-,hm⟩
    · exact mrwAlign_spec ht hQ heq rfl hl hal h8
    rcases mrwFirst_cons hm with h8 | ⟨-,hm⟩
    · exact hback (mrwAlign_spec ht hQ heq hmax hr har h8)
    rcases mrwFirst_cons hm with h8 | ⟨-,hm⟩
    · exact mrwEqMasked_spec ht hQ heq rfl hl hr h8
    exact hrun (fun _ => ⟨mrwEqConst_takes ht h6,mrwEqConst_takes ht h7⟩) hm
  · rw [if_neg heq] at hm
    rcases mrwFirst_cons hm with h6 | ⟨-,hm⟩
    · exact mrwOrder_spec ht hQ rfl hl h6
    rcases mrwFirst_cons hm with h6 | ⟨-,hm⟩
    · exact (mrwOrder_spec ht hQ hmax hr h6).flip hop
    exact hrun (fun h => absurd (by simpa [isEq] using h) heq) hm

theorem mrwBool_spec (hQ : Narrow Q) (hptr : ∀ a b, ptr a b = true → a = b) (vars : ℕ → Option Ty)
    {fuel : ℕ} {e' : Expr} (hroot : Root Q (declared vars) ptr e)
    (h : mrwBool ptr vars fuel e = some e') :
    (∀ ρ, truth (declared vars) ρ e' = truth (declared vars) ρ e) ∧ Sized Q (declared vars) e' := by
  induction fuel generalizing e e' with
  | zero => simp [mrwBool] at h
  | succ fuel ih =>
    have ht := typed_type vars fuel
    have hkeep : ∀ {x : Expr}, Root Q (declared vars) ptr x → some x = some e' →
        (∀ ρ, truth (declared vars) ρ e' = truth (declared vars) ρ x) ∧ Sized Q (declared vars) e' := by
      intro x hx he
      obtain rfl := Option.some.inj he
      exact ⟨fun _ => rfl,hx.sized⟩
    cases e with
    | binary op l r =>
      rw [mrwBool] at h
      split_ifs at h with hlog hcmp
      · obtain ⟨l',hl,h1⟩ := bind_eq_some_iff.mp h
        obtain ⟨r',hr,rfl⟩ := map_eq_some_iff.mp h1
        obtain ⟨hrl,hrr⟩ := hroot.parts hlog
        obtain ⟨htl,hsl⟩ := ih hrl hl
        obtain ⟨htr,hsr⟩ := ih hrr hr
        refine ⟨fun ρ => ?_,hsl,hsr⟩
        rcases hlog with rfl | rfl
        · rw [truth_and,truth_and,htl,htr]
        · rw [truth_or,truth_or,htl,htr]
      · obtain ⟨x,hx,rfl⟩ := map_eq_some_iff.mp h
        cases x with
        | none => exact ⟨fun _ => rfl,hroot.sized⟩
        | some x =>
          obtain ⟨htruth,hsized⟩ := mrwCmp_spec ht hQ hptr hcmp hroot (fun _ _ hx hy => ih hx hy) hx
          exact ⟨fun ρ => (htruth ρ).trans (truth_cmp hcmp l r).symm,hsized⟩
      · exact hkeep hroot h
    | unary op x =>
      rw [mrwBool] at h
      split_ifs at h with hop
      · subst hop
        have hx := hroot.operand
        cases hn : mrwNeg 65 x with
        | some n =>
          rw [hn] at h
          obtain ⟨hrn,htn⟩ := mrwNeg_spec hx hn
          obtain ⟨htruth,hsized⟩ := ih hrn h
          exact ⟨fun ρ => by rw [htruth,htn,truth_not],hsized⟩
        | none =>
          rw [hn] at h
          obtain ⟨x',hx',rfl⟩ := map_eq_some_iff.mp h
          obtain ⟨htruth,hsized⟩ := ih hx hx'
          exact ⟨fun ρ => by rw [truth_not,truth_not,htruth],hsized⟩
      · exact hkeep hroot h
    | _ => exact hkeep hroot h

/-- `root'` holds under every assignment exactly when `root` does, and the validator reports the
same of both where it evaluates both. -/
def Same (vars : ℕ → Option Ty) (root root' : Expr) : Prop :=
  (∀ ρ, truth (declared vars) ρ root' = truth (declared vars) ρ root) ∧
    (Sized sliceHeld (declared vars) root → ∀ ctx b b', Ctx.types ctx = declared vars →
      verdict ctx root = some b → verdict ctx root' = some b' → b' = b)

theorem narrow_any : Narrow anySlice := fun _ _ _ => trivial

theorem narrow_held : Narrow sliceHeld := fun hi w h => Or.inl (by unfold maxW; omega)

theorem mrwBool_same (hptr : ∀ a b, ptr a b = true → a = b) (vars : ℕ → Option Ty) (fuel : ℕ)
    {root : Expr} (hroot : Root anySlice (declared vars) ptr root) :
    Same vars root ((mrwBool ptr vars fuel root).getD root) := by
  cases h : mrwBool ptr vars fuel root with
  | none =>
    refine ⟨fun _ => rfl,fun _ ctx b b' _ hb hb' => ?_⟩
    exact Option.some.inj (hb'.symm.trans hb)
  | some root' =>
    refine ⟨(mrwBool_spec narrow_any hptr vars hroot h).1,fun hheld ctx b b' hctx hb hb' => ?_⟩
    obtain ⟨htruth,hheld'⟩ := mrwBool_spec narrow_held hptr vars ⟨hheld,hroot.shifts,hroot.reads⟩ h
    let ρ : Env := ⟨ctx.value,fun _ _ => 0,fun _ _ => 0,fun _ => false⟩
    have hρ : ctx.Reads ρ := rfl
    rw [← hctx] at hheld hheld' htruth
    exact (verdict_eq hheld' hρ hb').trans ((htruth ρ).trans (verdict_eq hheld hρ hb).symm)

/-- A source is what `_mrw_src` says it is exactly where no sign is repeated in it; a masked
operand compared with a constant is rewritten right exactly where such a sign does no harm; and
roots keep their truth where the comparisons met are read so. -/
theorem rewriteMasks_keeps (ptr : Expr → Expr → Bool) (vars : ℕ → Option Ty) (fuel : ℕ) (sp : Problem)
    (hptr : ∀ a b, ptr a b = true → a = b)
    (hroots : ∀ root ∈ sp.constraints++sp.softs, Sized anySlice (declared vars) root ∧
      Explicit (declared vars) root ∧ Reads (declared vars) ptr (.root root)) :
    (∀ n x W o, Sized anySlice (declared vars) x → Explicit (declared vars) x →
      mrwSrc (type vars fuel) n x W = some (some o) →
      (SrcBits (declared vars) x W o ↔ srcExact (declared vars) x W = true)) ∧
      (∀ op a c e, op = .eq ∨ op = .neq → Sized anySlice (declared vars) a → Explicit (declared vars) a →
        mrwEqConst (type vars fuel) op a c (max (ty (declared vars) a).w (ty (declared vars) c).w) = some (some e) →
        ((∀ ρ, truth (declared vars) ρ e = truth (declared vars) ρ (.binary op a c)) ↔
          EqConstReads (declared vars) a c (max (ty (declared vars) a).w (ty (declared vars) c).w))) ∧
      Forall₂ (Same vars) sp.constraints (rewriteMasks ptr vars fuel sp).constraints ∧
      Forall₂ (Same vars) sp.softs (rewriteMasks ptr vars fuel sp).softs := by
  have ht := typed_type vars fuel
  have hlist : ∀ roots : List Expr, (∀ root ∈ roots, Sized anySlice (declared vars) root ∧
      Explicit (declared vars) root ∧ Reads (declared vars) ptr (.root root)) →
      Forall₂ (Same vars) roots (roots.map fun root => (mrwBool ptr vars fuel root).getD root) := by
    intro roots hall
    rw [List.forall₂_map_right_iff,List.forall₂_same]
    intro root hr
    obtain ⟨hsized,hshifts,hreads⟩ := hall root hr
    exact mrwBool_same hptr vars fuel ⟨hsized,hshifts,hreads⟩
  refine ⟨fun n x W o hsized hex h => ?_,fun op a c e hop hsized hex h => ?_,hlist _ fun root hr => ?_,
    hlist _ fun root hr => ?_⟩
  · exact (mrwSrc_spec ht hsized hex h).1.bits_iff
  · have hcmp : op.isCmp = true := by rcases hop with rfl | rfl <;> rfl
    rw [← (mrwEqConst_spec ht narrow_any hop rfl ⟨hsized,hex⟩ h).2]
    simp only [truth_cmp hcmp]
  · exact hroots root (List.mem_append_left _ hr)
  · exact hroots root (List.mem_append_right _ hr)

def lowSigned : Expr := .svCast (.extract (.var 0) 3 0) 4 4 false true

theorem reads_masked {m k : ℤ} {b : Bool} {n v : ℕ} (hop : op.isCmp = true)
    (hW : (ty Γ (.binary .band x (.const m 8 b))).w = 8) (hm : mrwConst (.const m 8 b) 8 = some n)
    (hk : mrwConst (.const k 8 b) 8 = some v) (hv : v ≠ 0) (heq : EqReads Γ x n v 8)
    (hrun : (ty Γ (.binary .band x (.const m 8 b))).s = true ∨ (runs n 8 8 0).length ≠ 1) :
    Reads Γ ptr (.root (.binary op (.binary .band x (.const m 8 b)) (.const k 8 b))) := by
  rw [reads_cmp hop]
  intro eq a c hmet
  have hand : mrwMasked (.binary .band x (.const m 8 b)) 8 false = some (x,n) := by simp [mrwMasked,hm]
  have hno : ∀ p q e, ¬(SelfIte Γ ptr (.binary .band x (.const m 8 b)) (.const k 8 b) p q e ∨
      SelfIte Γ ptr (.const k 8 b) (.binary .band x (.const m 8 b)) p q e) := by
    rintro p q e (⟨t,f,hp,-⟩ | ⟨t,f,hp,-⟩) <;> simp [mrwPeel] at hp
  cases hmet with
  | cond h => exact absurd h (hno _ _ _)
  | branch h => exact absurd h (hno _ _ _)
  | here =>
    have hmax : max (ty Γ (.binary .band x (.const m 8 b))).w (ty Γ (.const k 8 b)).w = 8 := by
      rw [hW]
      rfl
    rw [hmax]
    refine ⟨fun _ => ⟨⟨fun y p q h1 h2 _ => ?_,fun y p q h1 => ?_⟩,⟨fun y p q h1 => ?_,fun y p q h1 => ?_⟩⟩,
      fun _ => ⟨fun h0 => ?_,fun h0 => ?_⟩,fun y p lo hi o _ hs h1 hr => ?_,fun y p lo hi o _ _ h1 => ?_⟩
    · obtain ⟨rfl,rfl⟩ := Prod.mk.inj (Option.some.inj (hand.symm.trans h1))
      obtain rfl := Option.some.inj (hk.symm.trans h2)
      exact heq
    · rw [mrwMasked_or hand] at h1
      exact absurd h1.symm (Option.some_ne_none _)
    · exact absurd h1.symm (Option.some_ne_none _)
    · exact absurd h1.symm (Option.some_ne_none _)
    · exact absurd (Option.some.inj (hk.symm.trans h0)) hv
    · exact absurd h0.symm (Option.some_ne_none _)
    · rw [hW] at h1 hr
      obtain ⟨rfl,rfl⟩ := Prod.mk.inj (Option.some.inj (hand.symm.trans h1))
      rcases hrun with hrun | hrun
      · rw [hs] at hrun
        exact absurd hrun (by decide)
      · rw [← mrwRuns_eq hr] at hrun
        exact absurd rfl hrun
    · exact absurd h1.symm (Option.some_ne_none _)

/-- A mask of two runs, a mask that leaves a repeated sign out, and an order of signed numbers. -/
theorem rewriteMasks_keeps_runs :
    (SrcBits (declared trialVars) (.extract (.var 0) 6 2) 8 ⟨0,8,2,5⟩ ↔
        srcExact (declared trialVars) (.extract (.var 0) 6 2) 8 = true) ∧
      ((∀ ρ, truth (declared trialVars) ρ (.binary .eq (.extract (.var 0) 3 3) (.const 1 1 false)) =
          truth (declared trialVars) ρ
            (.binary .eq (.binary .band lowSigned (.const (-8) 8 true)) (.const 8 8 true))) ↔
        EqConstReads (declared trialVars) (.binary .band lowSigned (.const (-8) 8 true)) (.const 8 8 true) 8) ∧
      Forall₂ (Same trialVars)
        [.binary .eq (.binary .band (.var 0) (.const 243 8 false)) (.const 81 8 false),
          .binary .eq (.binary .band lowSigned (.const 7 8 true)) (.const 5 8 true)]
        [.binary .and (.binary .eq (.extract (.var 0) 1 0) (.const 1 2 false))
            (.binary .eq (.extract (.var 0) 7 4) (.const 5 4 false)),
          .binary .eq (.extract (.var 0) 2 0) (.const 5 3 false)] ∧
      Forall₂ (Same trialVars) [.binary .lt (.binary .band lowSigned (.const 7 8 true)) (.const 5 8 true)]
        [.binary .lt (.binary .band lowSigned (.const 7 8 true)) (.const 5 8 true)] := by
  have hlow : EqReads (declared trialVars) lowSigned 7 5 8 := by
    intro o rs ho _
    obtain rfl := Option.some.inj (Option.some.inj (show some (some (⟨0,8,0,4⟩ : MrwSrc)) = some (some o) from ho))
    exact Or.inr (Or.inr (Or.inl (by decide)))
  have hall : EqReads (declared trialVars) (.var 0) 243 81 8 := by
    intro o rs ho _
    obtain rfl := Option.some.inj (Option.some.inj (show some (some (⟨0,8,0,8⟩ : MrwSrc)) = some (some o) from ho))
    exact Or.inr (Or.inr (Or.inl fun i hi _ => Or.inl hi))
  have h := rewriteMasks_keeps (fun _ _ => false) trialVars 20
    ⟨[.binary .eq (.binary .band (.var 0) (.const 243 8 false)) (.const 81 8 false),
        .binary .eq (.binary .band lowSigned (.const 7 8 true)) (.const 5 8 true)],
      [.binary .lt (.binary .band lowSigned (.const 7 8 true)) (.const 5 8 true)],true⟩
    (fun _ _ h => absurd h (by decide))
    (by
      have hno : BinOp.band ≠ .rshift ∧ BinOp.eq ≠ .rshift ∧ BinOp.lt ≠ .rshift := by decide
      intro root hroot
      simp only [List.cons_append,List.nil_append,List.mem_cons,List.not_mem_nil,or_false] at hroot
      rcases hroot with rfl | rfl | rfl
      · exact ⟨⟨⟨trivial,by decide,by decide⟩,by decide,by decide⟩,
          ⟨fun h => absurd h hno.2.1,⟨fun h => absurd h hno.1,trivial,trivial⟩,trivial⟩,
          reads_masked rfl (by decide) (by decide) (by decide) (by decide) hall (Or.inr (by decide))⟩
      · exact ⟨⟨⟨⟨⟨trivial,by decide,trivial⟩,by decide,by decide⟩,by decide,by decide⟩,by decide,by decide⟩,
          ⟨fun h => absurd h hno.2.1,⟨fun h => absurd h hno.1,trivial,trivial⟩,trivial⟩,
          reads_masked rfl (by decide) (by decide) (by decide) (by decide) hlow (Or.inl (by decide))⟩
      · exact ⟨⟨⟨⟨⟨trivial,by decide,trivial⟩,by decide,by decide⟩,by decide,by decide⟩,by decide,by decide⟩,
          ⟨fun h => absurd h hno.2.2,⟨fun h => absurd h hno.1,trivial,trivial⟩,trivial⟩,
          reads_masked rfl (by decide) (by decide) (by decide) (by decide) hlow (Or.inl (by decide))⟩)
  refine ⟨h.1 9 _ 8 ⟨0,8,2,5⟩ ⟨trivial,by decide,trivial⟩ trivial rfl,?_,h.2.2.1,h.2.2.2⟩
  exact h.2.1 .eq _ _ _ (Or.inl rfl) ⟨⟨⟨trivial,by decide,trivial⟩,by decide,by decide⟩,by decide,by decide⟩
    ⟨fun h => absurd h (by decide),trivial,trivial⟩ rfl

/-- The truth of an elaborated root and of what it is rewritten to. -/
def maskTrial (root : Expr) (values : List ℤ) : Option (List Bool × List Bool) :=
  let ρ : Env := ⟨fun id => values.getD id 0,fun _ _ => 0,fun _ a => a,fun _ => false⟩
  (elaborate trialVars 20 ⟨[root],[],false⟩).map fun sp =>
    (sp.constraints.map (truth (declared trialVars) ρ),
      (rewriteMasks (fun _ _ => false) trialVars 20 sp).constraints.map (truth (declared trialVars) ρ))

/-- Four bits cast to a signed number and read at eight: the sign is taken for zeros. -/
theorem rewriteMasks_changes :
    maskTrial (.binary .eq (.binary .band (.svCast (.extract (.var 0) 3 0) 4 4 false true) (.const (-8) 8 true))
      (.const 8 8 true)) [8] = some ([false],[true]) := by
  decide +kernel

end Sv
end DvSolve
