import DvSolve.SvMaskSem

/-! Alignments, conditionals and negations rewritten, and whole roots. -/
namespace DvSolve
namespace Sv

open TwosComp BitRuns Validate
open Bool (and_eq_true)
open Nat (mod_eq_of_lt)
open Option (bind_eq_some_iff ite_none_left_eq_some map_eq_some_iff)

variable {Q : ℕ → ℕ → Prop} {Γ : ℕ → Ty} {ρ : Env} {typeOf : Expr → Option Ty}
variable {x r l : Expr} {W vw : ℕ} {ptr : Expr → Expr → Bool}
variable {f id n : ℕ} {a c e m t x' : Expr} {op : BinOp}

theorem mrwShiftVar_spec (ht : Typed Γ typeOf) {s : Expr} (hsized : Sized Q Γ s)
    (hex : Explicit Γ s) (hreads : (ty Γ s).s = false →
      ∀ o, mrwSource (own Γ) s (ty Γ s).w = some (some o) → o.off = 0 → o.avail = o.vw →
        (Γ o.var).fix.s = false → o.vw = vw → srcExact Γ s (ty Γ s).w = true)
    (h : mrwShiftVar typeOf s = some (some (id,vw))) :
    vw = (Γ id).fix.w ∧ (ty Γ (.var id)).s = false ∧
      ∀ ρ, pat (eval Γ ρ s (ty Γ s).w (ty Γ s).s) (ty Γ s).w = pat (ρ.value id) vw := by
  obtain ⟨t,hty,h1⟩ := bind_eq_some_iff.mp h
  obtain rfl := ht _ _ hty
  obtain ⟨hs,h2⟩ := ite_null_eq_some h1
  obtain ⟨o,hsrc,h3⟩ := bind_eq_some_iff.mp h2
  cases o with
  | none => simp at h3
  | some o =>
    obtain ⟨hno,h4⟩ := ite_null_eq_some h3
    obtain ⟨vt,hvt,h5⟩ := map_eq_some_iff.mp h4
    obtain rfl := ht _ _ hvt
    rw [ite_none_left_eq_some] at h5
    obtain ⟨hv,h5⟩ := h5
    obtain ⟨rfl,rfl⟩ := Prod.mk.inj (Option.some.inj h5)
    obtain ⟨hspec,hown⟩ := mrwSource_spec ht hsized hex hsrc
    have hbits := hspec.bits_iff.mpr
      (hreads (by simpa using hs) o hown (by omega) (by omega) ((Bool.not_eq_true _).mp hv) rfl)
    refine ⟨hspec.width,by simpa using hv,fun ρ => ?_⟩
    have hown := hspec.own
    have hvlt : pat (ρ.value o.var) o.vw < 2^(ty Γ s).w :=
      (pat_lt _ _).trans_le (Nat.pow_le_pow_right (by decide) (by omega))
    rw [eq_iff_testBit (pat_lt _ _) hvlt]
    intro i hi
    rw [hbits ρ _ i hi,show o.off = 0 by omega,Nat.add_zero,show o.avail = o.vw by omega]
    by_cases hiv : i < o.vw
    · simp [hiv]
    · rw [Nat.testBit_lt_two_pow ((pat_lt _ _).trans_le (Nat.pow_le_pow_right (by decide) (not_lt.mp hiv)))]
      simp

/-- A constant of pattern 1 in its context is the number 1. -/
theorem eval_one {w : ℕ} (hw : 1 < w) (hc : mrwConst c w = some 1) (hle : (ty Γ c).w ≤ w)
    (hW : w ≤ W) : eval Γ ρ c W false = 1 := by
  cases c with
  | const value width isSigned =>
    obtain ⟨-,-,hpat⟩ := mrwConst_spec hc
    have h := hpat Γ ρ false
    simp only [eval,ty] at hle h ⊢
    rw [pat_wrap] at h
    have hin : InTy (constValue value (constType value width isSigned)) w
        (constType value width isSigned).s := (wrap_inTy _ _ _).mono hle
    have hbit : InTy 1 1 false := inTy_bit (b := true) Nat.one_pos
    have hone : constValue value (constType value width isSigned) = 1 := by
      apply hin.eq_of_emod
      · cases (constType value width isSigned).s with
        | false => exact hbit.mono hw.le
        | true => exact hbit.toSigned hw
      · apply emod_of_pat
        rw [h,show (1 : ℤ) = ((1 : ℕ) : ℤ) from rfl,pat_natCast,mod_eq_of_lt (Nat.one_lt_two_pow (by omega))]
    rw [hone]
    exact wrap_wider hbit (by omega)
  | _ => simp [mrwConst] at hc

theorem mrwPow2_spec (ht : Typed Γ typeOf) (hsized : Sized Q Γ a)
    (hex : Explicit Γ a) (hreads : PowReads Γ a) (hmax : vw ≤ mrwMaxShiftVw)
    (h : mrwPow2 typeOf a = some (some (id,vw))) :
    vw = (Γ id).fix.w ∧ (ty Γ (.var id)).s = false ∧ vw ≤ 6 ∧ 2^vw-1 < (ty Γ a).w ∧ (ty Γ a).s = false ∧
      ∀ ρ W, (ty Γ a).w ≤ W → eval Γ ρ a W false = ((2^pat (ρ.value id) vw : ℕ) : ℤ) := by
  cases a with
  | binary op l r =>
    obtain ⟨t,hty,h1⟩ := bind_eq_some_iff.mp h
    obtain rfl := ht _ _ hty
    obtain ⟨hno,h2⟩ := ite_null_eq_some h1
    simp only [not_or,not_not] at hno
    obtain ⟨rfl,hts,-,hone⟩ := hno
    obtain ⟨v,hv,h3⟩ := map_eq_some_iff.mp h2
    obtain ⟨v',rfl,h4⟩ := bind_eq_some_iff.mp h3
    rw [ite_none_left_eq_some] at h4
    obtain ⟨hsmall,h4⟩ := h4
    obtain rfl := Option.some.inj h4
    simp only at hsmall
    have hsmall' : 2^vw-1 < (ty Γ (.binary .lshift l r)).w := by omega
    obtain ⟨hw,hvs,hval⟩ := mrwShiftVar_spec ht hsized.2 hex.2.2 (fun hrs o hown ho ha hvs hvw =>
      hreads (by simpa using hts) hone hrs o hown ho ha hvs (hvw ▸ hmax) (hvw ▸ hsmall')) hv
    have htl : ty Γ (.binary .lshift l r) = ty Γ l := ty_shift rfl l r
    have hvw : 0 < vw := by
      rw [hw]
      exact Ty.fix_w_pos _
    have htwo : 2 ≤ 2^vw := by
      calc 2 = 2^1 := rfl
        _ ≤ 2^vw := Nat.pow_le_pow_right (by decide) hvw
    refine ⟨hw,hvs,by omega,by omega,by simpa using hts,fun ρ W hW => ?_⟩
    have hl : eval Γ ρ l W false = 1 := eval_one (by omega) hone (by rw [htl]) hW
    have hshift : Sv.shift .lshift ⟨W,false⟩ 1 (pat (ρ.value id) vw) = wrap (1*2^pat (ρ.value id) vw) W false := rfl
    have hlt := pat_lt (ρ.value id) vw
    have hpow : 2^pat (ρ.value id) vw < 2^W := Nat.pow_lt_pow_right (by decide) (by omega)
    rw [eval_shift rfl,hl,hval,hshift,one_mul,wrap_false,show (2 : ℤ)^pat (ρ.value id) vw =
      ((2^pat (ρ.value id) vw : ℕ) : ℤ) by push_cast; rfl,pat_natCast,mod_eq_of_lt hpow]
  | _ => simp [mrwPow2] at h

theorem mrwPow2_shape {v : ℕ × ℕ} (h : mrwPow2 typeOf a = some (some v)) :
    ∃ l r, a = .binary .lshift l r := by
  cases a with
  | binary op l r =>
    obtain ⟨t,-,h1⟩ := bind_eq_some_iff.mp h
    obtain ⟨hno,-⟩ := ite_null_eq_some h1
    simp only [not_or,not_not] at hno
    exact ⟨l,r,by rw [hno.1]⟩
  | _ => simp [mrwPow2] at h

structure Modulo (Q : ℕ → ℕ → Prop) (Γ : ℕ → Ty) (a : Expr) (W : ℕ) (x : Expr) (id vw : ℕ) : Prop where
  width : vw = (Γ id).fix.w
  le : vw ≤ 6
  lt : 2^vw-1 < W
  sized : Sized Q Γ x
  shifts : Explicit Γ x
  value : ∀ ρ, pat (eval Γ ρ a W false) W = pat (eval Γ ρ x W false) W % 2^pat (ρ.value id) vw

theorem mrwLowMask_operand {v : ℕ × ℕ} (h : mrwLowMask typeOf x m = some (some (x',v))) :
    x' = x := by
  cases m with
  | binary op l r =>
    obtain ⟨-,h1⟩ := ite_null_eq_some h
    obtain ⟨t,-,h2⟩ := bind_eq_some_iff.mp h1
    obtain ⟨-,h3⟩ := ite_null_eq_some h2
    obtain ⟨v,-,h4⟩ := map_eq_some_iff.mp h3
    obtain ⟨v',-,he⟩ := map_eq_some_iff.mp h4
    exact (Prod.mk.inj he).1.symm
  | _ => simp [mrwLowMask] at h

/-- `(1 << s) - 1` in every context that holds it. -/
theorem mrwLowMask_spec (ht : Typed Γ typeOf) (hsized : Sized Q Γ m)
    (hex : Explicit Γ m) (hreads : LowReads Γ m) (hmax : vw ≤ mrwMaxShiftVw)
    (h : mrwLowMask typeOf x m = some (some (x',id,vw))) :
    vw = (Γ id).fix.w ∧ vw ≤ 6 ∧ 2^vw-1 < (ty Γ m).w ∧
      ∀ ρ W, (ty Γ m).w ≤ W → pat (eval Γ ρ m W false) W = 2^pat (ρ.value id) vw-1 := by
  cases m with
  | binary op l r =>
    obtain ⟨hop,h1⟩ := ite_null_eq_some h
    obtain rfl := not_not.mp hop
    obtain ⟨t,hty,h2⟩ := bind_eq_some_iff.mp h1
    obtain rfl := ht _ _ hty
    obtain ⟨hone,h3⟩ := ite_null_eq_some h2
    obtain ⟨v,hv,h4⟩ := map_eq_some_iff.mp h3
    obtain ⟨v',rfl,he⟩ := map_eq_some_iff.mp h4
    obtain ⟨rfl,rfl⟩ := Prod.mk.inj he
    obtain ⟨p,q,rfl⟩ := mrwPow2_shape hv
    obtain ⟨hw,-,hle,hlt,-,hval⟩ := mrwPow2_spec ht hsized.1 hex.2.1 (hreads (not_not.mp hone)) hmax hv
    have hjoin : ty Γ (.binary .sub (.binary .lshift p q) r) = (ty Γ (.binary .lshift p q)).join (ty Γ r) :=
      ty_arith rfl _ _
    have hmax : (ty Γ (.binary .lshift p q)).w ≤ (ty Γ (.binary .sub (.binary .lshift p q) r)).w := by
      rw [hjoin]
      exact le_max_left _ _
    have htwo : 2 ≤ 2^vw := by
      calc 2 = 2^1 := rfl
        _ ≤ 2^vw := Nat.pow_le_pow_right (by decide) (by rw [hw]; exact Ty.fix_w_pos _)
    refine ⟨hw,hle,by omega,fun ρ W hW => ?_⟩
    have hr : eval Γ ρ r W false = 1 :=
      eval_one (by omega) (not_not.mp hone) (by rw [hjoin]; exact le_max_right _ _) hW
    have hlt := pat_lt (ρ.value id) vw
    have hpow : 2^pat (ρ.value id) vw < 2^W := Nat.pow_lt_pow_right (by decide) (by omega)
    have h1 : 1 ≤ 2^pat (ρ.value id) vw := Nat.one_le_two_pow
    rw [eval_arith rfl,hval ρ W (by omega),hr,arith,pat_wrap,
      show ((2^pat (ρ.value id) vw : ℕ) : ℤ)-1 = ((2^pat (ρ.value id) vw-1 : ℕ) : ℤ) by push_cast [h1]; rfl,
      pat_natCast,mod_eq_of_lt ((Nat.sub_le _ 1).trans_lt hpow)]
  | _ => simp [mrwLowMask] at h

theorem mrwAligned_spec (ht : Typed Γ typeOf)
    (ha : Operand Q Γ (.binary op l r)) (hW : (ty Γ (.binary op l r)).w ≤ W)
    (hreads : AlignReads Γ W (.binary op l r)) (hsl : Sliced Γ x W) (hmax : vw ≤ mrwMaxShiftVw)
    (h : mrwAligned typeOf op l r = some (some (x,id,vw))) :
    Modulo Q Γ (.binary op l r) W x id vw := by
  have hpos : 0 < W := (ty_w_pos _ _).trans_le hW
  cases op with
  | mod =>
    obtain ⟨v,hv,h1⟩ := map_eq_some_iff.mp h
    obtain ⟨v',rfl,he⟩ := map_eq_some_iff.mp h1
    obtain ⟨rfl,rfl⟩ := Prod.mk.inj he
    obtain ⟨hw,-,hle,hlt,-,hval⟩ := mrwPow2_spec ht ha.sized.2 ha.shifts.2.2 (hreads hsl) hmax hv
    rw [ty_arith rfl,Ty.join_w] at hW
    refine ⟨hw,hle,by omega,ha.sized.1,ha.shifts.2.1,fun ρ => ?_⟩
    have hp : 0 < 2^pat (ρ.value id) vw := Nat.two_pow_pos _
    rw [eval_arith rfl,hval ρ W (by omega),arith,if_neg (by exact_mod_cast hp.ne'),
      eval_eq_pat (e := l) hpos,← Int.ofNat_tmod,pat_wrap,pat_natCast,pat_natCast,
      mod_eq_of_lt (pat_lt _ _),mod_eq_of_lt ((Nat.mod_le _ _).trans_lt (pat_lt _ _))]
  | band =>
    rw [ty_arith rfl,Ty.join_w] at hW
    obtain ⟨v,hv,h1⟩ := bind_eq_some_iff.mp h
    split_ifs at h1 with hsome
    · obtain rfl := Option.some.inj h1
      obtain rfl := mrwLowMask_operand hv
      obtain ⟨hw,hle,hlt,hval⟩ := mrwLowMask_spec ht ha.sized.2 ha.shifts.2.2 (hreads.1 hsl) hmax hv
      refine ⟨hw,hle,by omega,ha.sized.1,ha.shifts.2.1,fun ρ => ?_⟩
      rw [pat_band,hval ρ W (by omega),Nat.and_two_pow_sub_one_eq_mod]
    · obtain rfl := mrwLowMask_operand h1
      obtain ⟨hw,hle,hlt,hval⟩ := mrwLowMask_spec ht ha.sized.1 ha.shifts.2.1 (hreads.2 hsl) hmax h1
      refine ⟨hw,hle,by omega,ha.sized.2,ha.shifts.2.2,fun ρ => ?_⟩
      rw [pat_band,hval ρ W (by omega),Nat.and_comm,Nat.and_two_pow_sub_one_eq_mod]
  | _ => simp [mrwAligned] at h

/-- One size: the bits below it are zero, or it is another. -/
theorem mrwSlice_spec (hQ : Narrow Q) (hop : op = .eq ∨ op = .neq) {s : MrwSrc}
    (hs : SrcSpec Γ x W s) {sv k : ℕ} (hvw : vw = (Γ sv).fix.w) (hle : vw ≤ 6)
    (hk : 0 < k) (hkv : k < 2^vw) (h : mrwSlice op s sv vw k = some t) :
    (∀ ρ, truth Γ ρ t = true ↔ (op = .eq ↔ (pat (ρ.value sv) vw = k → ∀ i, i < k → srcBit ρ s i = false))) ∧
      Sized Q Γ t := by
  have hpos := hs.pos
  have hfits := hs.fits
  have hv0 : 0 < vw := by
    rw [hvw]
    exact Ty.fix_w_pos _
  rw [mrwSlice] at h
  set hi := if k ≤ s.avail then k-1 else s.avail-1 with hhi
  have hhi' : hi < s.avail ∧ hi < k ∧ (hi+1 = k ∨ hi+1 = s.avail) := by
    rw [hhi]
    split_ifs <;> omega
  obtain ⟨kc,hkc,h1⟩ := bind_eq_some_iff.mp h
  obtain ⟨z,hz,rfl⟩ := map_eq_some_iff.mp h1
  obtain rfl := mkConst_eq hkc
  obtain rfl := mkConst_eq hz
  have hk64 : 2^vw ≤ 2^6 := Nat.pow_le_pow_right (by decide) hle
  have hck : ((k : ℕ) : ℤ) = int64 k := (int64_of_lt (by omega)).symm
  have hcz : (0 : ℤ) = int64 0 := (int64_of_lt (by decide)).symm
  -- the size is a field of its own variable
  let size : MrwSrc := ⟨sv,vw,0,vw⟩
  have hvar : Expr.var sv = mrwField size (vw-1) 0 := by simp [mrwField,size]
  have hw1 : vw-1+1-0 = vw := by omega
  have hsize : ∀ ρ op', op' = .eq ∨ op' = .neq →
      (truth Γ ρ (.binary op' (.var sv) (.const (int64 k) vw false)) = true ↔
        (op' = .eq ↔ pat (ρ.value sv) vw = k)) := by
    intro ρ op' hop'
    have htf := truth_field (Γ := Γ) (ρ := ρ) hop' (s := size) (h := vw-1) (l := 0) (b := k) hvw (by simp [size]; omega)
      (by omega) (by simp [size]; omega) (by rwa [hw1])
    rw [hw1,← hvar] at htf
    rw [htf,fieldVal,hw1]
    simp only [size,Nat.add_zero,Nat.shiftRight_zero,mod_eq_of_lt (pat_lt _ _)]
  have hfield : ∀ ρ, truth Γ ρ (.binary op (mrwField s hi 0) (.const (int64 0) (hi+1) false)) = true ↔
      (op = .eq ↔ ∀ i, i < k → srcBit ρ s i = false) := by
    intro ρ
    have htf := truth_field (Γ := Γ) (ρ := ρ) hop (h := hi) (l := 0) (b := 0) hs.width hs.width_le (by omega)
      (by omega) (Nat.two_pow_pos _)
    rw [Nat.sub_zero] at htf
    rw [htf,eq_iff_testBit (fieldVal_lt _ _ _) (Nat.two_pow_pos _)]
    apply iff_congr Iff.rfl
    constructor
    · intro hall i hik
      rw [srcBit]
      by_cases hia : i < s.avail
      · have := hall i (by omega)
        rw [fieldVal_testBit s (by omega),Nat.zero_testBit] at this
        rw [← Nat.add_zero i,this]
        simp
      · simp [hia]
    · intro hall i hin
      have := hall i (by omega)
      rw [srcBit,decide_eq_true (by omega),Bool.true_and] at this
      rw [fieldVal_testBit s hin,Nat.zero_testBit,Nat.add_zero,this]
  refine ⟨fun ρ => ?_,?_⟩
  · rw [hck,hcz]
    rcases hop with rfl | rfl
    · rw [if_pos rfl,if_pos rfl,truth,decide_eq_true_eq,eval_or,ofBool_ne_zero,Bool.or_eq_true,
        hsize ρ _ (Or.inr rfl),hfield ρ]
      simp
      tauto
    · rw [if_neg (by decide),if_neg (by decide),truth,decide_eq_true_eq,eval_and,ofBool_ne_zero,
        and_eq_true,hsize ρ _ (Or.inl rfl),hfield ρ]
      simp
  · rw [hck,hcz]
    exact ⟨⟨trivial,sized_int64 _ _ _⟩,sized_field hQ hs.width_le (by omega) (by omega),sized_int64 _ _ _⟩

theorem mod_two_pow_eq_zero_iff {P : ℕ} : P % 2^n = 0 ↔ ∀ i, i < n → P.testBit i = false := by
  rw [eq_iff_testBit (Nat.mod_lt _ (Nat.two_pow_pos n)) (Nat.two_pow_pos n)]
  apply forall₂_congr
  intro i hi
  rw [Nat.testBit_mod_two_pow,decide_eq_true hi,Bool.true_and,Nat.zero_testBit]

theorem mrwAlign_spec (ht : Typed Γ typeOf) (hQ : Narrow Q)
    (hop : op = .eq ∨ op = .neq) (hW : max (ty Γ a).w (ty Γ c).w = W)
    (ha : Operand Q Γ a) (hreads : mrwConst c W = some 0 → (ty Γ a).s = false → AlignReads Γ W a)
    (h : mrwAlign typeOf op a c W = some (some e)) :
    Rewrites Q Γ op a c e := by
  obtain ⟨hz,h⟩ := ite_null_eq_some h
  obtain ⟨-,-,hcv⟩ := mrwConst_spec (not_not.mp hz)
  cases a with
  | binary bop l r =>
    obtain ⟨ta,hta,h1⟩ := bind_eq_some_iff.mp h
    obtain rfl := ht _ _ hta
    obtain ⟨hsa,h2⟩ := ite_null_eq_some h1
    obtain ⟨v,hv,h3⟩ := bind_eq_some_iff.mp h2
    cases v with
    | none => simp at h3
    | some v =>
      obtain ⟨x,sv,vw⟩ := v
      obtain ⟨hmax,h4⟩ := ite_null_eq_some h3
      obtain ⟨tx,htx,h5⟩ := bind_eq_some_iff.mp h4
      obtain rfl := ht _ _ htx
      obtain ⟨hsx,h6⟩ := ite_null_eq_some h5
      obtain ⟨o,hsrc,h7⟩ := bind_eq_some_iff.mp h6
      cases o with
      | none => simp at h7
      | some s =>
        have hmod := mrwAligned_spec ht ha (by omega) (hreads (not_not.mp hz) (by simpa using hsa))
          ⟨by simpa using hsx,s,mrwSrc_own ht hsrc⟩ (by omega) hv
        have hs := (mrwSource_spec ht hmod.sized hmod.shifts hsrc).1
        obtain ⟨ts,hts,hchain⟩ := map_eq_some_iff.mp h7
        have hin : ∀ k ∈ List.range' 1 (2^vw-1), 0 < k ∧ k < 2^vw := fun k hk => by
          have := List.mem_range'_1.mp hk
          omega
        have hrel := (List.forall₂_and_left _ ts).mpr ⟨hin,forall₂_of_mapM hts⟩
        have hspec := hrel.imp fun k t hkt =>
          mrwSlice_spec hQ hop hs hmod.width hmod.le hkt.1.1 hkt.1.2 hkt.2
        refine ⟨fun ρ => ?_,sized_chain (forall₂_right hspec fun _ _ hkt => hkt.2) hchain⟩
        have hS : ((ty Γ (.binary bop l r)).s && (ty Γ c).s) = false := by
          simp only [Bool.not_eq_true] at hsa
          rw [hsa,Bool.false_and]
        have hn := pat_lt (ρ.value sv) vw
        rw [Bool.eq_iff_iff,truth_chain hop (hspec.imp fun k t hkt => hkt.1 ρ) hchain,rel_iff_pat hop hW hS,
          hmod.value,hcv,mod_two_pow_eq_zero_iff]
        apply iff_congr Iff.rfl
        have hlt := hmod.lt
        constructor
        · intro hall i hi
          have hbit := hall _ (List.mem_range'_1.mpr (by omega)) rfl
          rcases lt_or_ge i s.avail with hlt | hge
          · rw [hs.bit_below hlt (by omega)]
            exact hbit i hi
          · -- a repeated bit is the last of those the size leaves zero
            rw [hs.bit_above hge (by omega),hbit (s.avail-1) (by omega),Bool.and_false]
        · intro hall k hk hkn i hi
          rcases lt_or_ge i s.avail with hlt | hge
          · rw [← hs.bit_below hlt (by omega) ρ false]
            exact hall i (by omega)
          · rw [srcBit,decide_eq_false (by omega),Bool.false_and]
  | _ => simp at h

/-- A node in a Boolean position, with what is assumed of it. -/
structure Root (Q : ℕ → ℕ → Prop) (Γ : ℕ → Ty) (ptr : Expr → Expr → Bool) (e : Expr) : Prop where
  sized : Sized Q Γ e
  shifts : Explicit Γ e
  reads : Reads Γ ptr (.root e)

theorem truth_and (l r : Expr) : truth Γ ρ (.binary .and l r) = (truth Γ ρ l && truth Γ ρ r) := by
  rw [Bool.eq_iff_iff,truth,decide_eq_true_eq,eval_and,ofBool_ne_zero]

theorem truth_or (l r : Expr) : truth Γ ρ (.binary .or l r) = (truth Γ ρ l || truth Γ ρ r) := by
  rw [Bool.eq_iff_iff,truth,decide_eq_true_eq,eval_or,ofBool_ne_zero]

theorem truth_not (x : Expr) : truth Γ ρ (.unary .not x) = !truth Γ ρ x := by
  rw [Bool.eq_iff_iff,truth,decide_eq_true_eq,eval_not,ofBool_ne_zero]

theorem reads_part (hop : op = .and ∨ op = .or) :
    Reads Γ ptr (.root (.binary op l r)) ↔ Reads Γ ptr (.root l) ∧ Reads Γ ptr (.root r) := by
  constructor
  · intro h
    exact ⟨fun eq a b hm => h eq a b (.part hop (Or.inl rfl) hm),fun eq a b hm => h eq a b (.part hop (Or.inr rfl) hm)⟩
  · rintro ⟨hl,hr⟩ eq a b hm
    cases hm with
    | part _ hx hm =>
      rcases hx with rfl | rfl
      · exact hl eq a b hm
      · exact hr eq a b hm
    | cmp hcmp => rcases hop with rfl | rfl <;> simp [BinOp.isCmp] at hcmp

theorem reads_not : Reads Γ ptr (.root (.unary .not x)) ↔ Reads Γ ptr (.root x) := by
  constructor
  · exact fun h eq a b hm => h eq a b (.not hm)
  · intro h eq a b hm
    cases hm with
    | not hm => exact h eq a b hm

theorem reads_cmp (hop : op.isCmp = true) :
    Reads Γ ptr (.root (.binary op l r)) ↔ Reads Γ ptr (.cmp (isEq op) l r) := by
  constructor
  · exact fun h eq a b hm => h eq a b (.cmp hop hm)
  · intro h eq a b hm
    cases hm with
    | part hlog => rcases hlog with rfl | rfl <;> simp [BinOp.isCmp] at hop
    | cmp _ hm => exact h eq a b hm

theorem isCmp_ne_rshift (hop : op.isCmp = true) : op ≠ .rshift := by
  rintro rfl
  simp [BinOp.isCmp] at hop

theorem Root.and (hl : Root Q Γ ptr l) (hr : Root Q Γ ptr r) : Root Q Γ ptr (.binary .and l r) :=
  ⟨⟨hl.sized,hr.sized⟩,⟨fun h => by simp at h,hl.shifts,hr.shifts⟩,(reads_part (Or.inl rfl)).mpr ⟨hl.reads,hr.reads⟩⟩

theorem Root.or (hl : Root Q Γ ptr l) (hr : Root Q Γ ptr r) : Root Q Γ ptr (.binary .or l r) :=
  ⟨⟨hl.sized,hr.sized⟩,⟨fun h => by simp at h,hl.shifts,hr.shifts⟩,(reads_part (Or.inr rfl)).mpr ⟨hl.reads,hr.reads⟩⟩

theorem Root.not (hx : Root Q Γ ptr x) : Root Q Γ ptr (.unary .not x) :=
  ⟨hx.sized,hx.shifts,reads_not.mpr hx.reads⟩

theorem Root.cmp (hop : op.isCmp = true) (hl : Operand Q Γ l) (hr : Operand Q Γ r)
    (hreads : Reads Γ ptr (.cmp (isEq op) l r)) : Root Q Γ ptr (.binary op l r) :=
  ⟨⟨hl.sized,hr.sized⟩,⟨fun h => absurd h (isCmp_ne_rshift hop),hl.shifts,hr.shifts⟩,(reads_cmp hop).mpr hreads⟩

theorem Root.operands (hop : op.isCmp = true) (h : Root Q Γ ptr (.binary op l r)) :
    Operand Q Γ l ∧ Operand Q Γ r ∧ Reads Γ ptr (.cmp (isEq op) l r) :=
  ⟨⟨h.sized.1,h.shifts.2.1⟩,⟨h.sized.2,h.shifts.2.2⟩,(reads_cmp hop).mp h.reads⟩

theorem Root.parts (hop : op = .and ∨ op = .or) (h : Root Q Γ ptr (.binary op l r)) :
    Root Q Γ ptr l ∧ Root Q Γ ptr r := by
  obtain ⟨hl,hr⟩ := (reads_part hop).mp h.reads
  exact ⟨⟨h.sized.1,h.shifts.2.1,hl⟩,⟨h.sized.2,h.shifts.2.2,hr⟩⟩

theorem Root.operand (h : Root Q Γ ptr (.unary .not x)) : Root Q Γ ptr x :=
  ⟨h.sized,h.shifts,reads_not.mp h.reads⟩

theorem truth_negated {op' : BinOp} (hop : op.isCmp = true) (hop' : op'.isCmp = true)
    (h : ∀ x y : ℤ, cmpVal op' x y = !cmpVal op x y) (l r : Expr) :
    truth Γ ρ (.binary op' l r) = !truth Γ ρ (.binary op l r) := by
  rw [truth_cmp hop',truth_cmp hop]
  exact h _ _

theorem mrwNeg_spec {ref : Expr} (hroot : Root Q Γ ptr ref) (h : mrwNeg n ref = some e) :
    Root Q Γ ptr e ∧ ∀ ρ, truth Γ ρ e = !truth Γ ρ ref := by
  induction n generalizing ref e with
  | zero => simp [mrwNeg] at h
  | succ n ih =>
    unfold mrwNeg at h
    rw [ite_none_left_eq_some] at h
    obtain ⟨hbool,hn⟩ := h
    have hneg : ∀ x, Root Q Γ ptr x → Root Q Γ ptr ((mrwNeg n x).getD (.unary .not x)) ∧
        ∀ ρ, truth Γ ρ ((mrwNeg n x).getD (.unary .not x)) = !truth Γ ρ x := by
      intro x hx
      cases hx' : mrwNeg n x with
      | none => exact ⟨hx.not,fun ρ => truth_not x⟩
      | some y => exact ih hx hx'
    cases ref with
    | unary op x =>
      have hop : op = .not := by simpa [mrwIsBool] using hbool
      subst hop
      simp only at hn
      split_ifs at hn with hx
      obtain rfl := Option.some.inj hn
      exact ⟨hroot.operand,fun ρ => by rw [truth_not,Bool.not_not]⟩
    | binary op l r =>
      have hcmp : ∀ op', op.isCmp = true → op'.isCmp = true → isEq op' = isEq op →
          (∀ x y : ℤ, cmpVal op' x y = !cmpVal op x y) →
          Root Q Γ ptr (.binary op' l r) ∧ ∀ ρ, truth Γ ρ (.binary op' l r) = !truth Γ ρ (.binary op l r) := by
        intro op' hop hop' heq hval
        obtain ⟨hl,hr,hreads⟩ := hroot.operands hop
        exact ⟨Root.cmp hop' hl hr (heq ▸ hreads),fun ρ => truth_negated hop hop' hval l r⟩
      cases op with
      | and =>
        obtain rfl := Option.some.inj hn
        obtain ⟨hl,hr⟩ := hroot.parts (Or.inl rfl)
        refine ⟨(hneg l hl).1.or (hneg r hr).1,fun ρ => ?_⟩
        rw [truth_or,truth_and,(hneg l hl).2,(hneg r hr).2,Bool.not_and]
      | or =>
        obtain rfl := Option.some.inj hn
        obtain ⟨hl,hr⟩ := hroot.parts (Or.inr rfl)
        refine ⟨(hneg l hl).1.and (hneg r hr).1,fun ρ => ?_⟩
        rw [truth_or,truth_and,(hneg l hl).2,(hneg r hr).2,Bool.not_or]
      | eq =>
        obtain rfl := Option.some.inj hn
        exact hcmp _ rfl rfl rfl fun x y => by simp [cmpVal]
      | neq =>
        obtain rfl := Option.some.inj hn
        exact hcmp _ rfl rfl rfl fun x y => by simp [cmpVal]
      | lt | lte | gt | gte =>
        obtain rfl := Option.some.inj hn
        exact hcmp _ rfl rfl rfl fun x y => by simp [cmpVal,← decide_not]
      | _ => simp at hn
    | _ => simp at hn

theorem mrwSame_eq (hptr : ∀ a b, ptr a b = true → a = b) {b : Expr}
    (h : mrwSame ptr n a b = true) : a = b := by
  induction n generalizing a b with
  | zero => exact hptr a b h
  | succ n ih =>
    unfold mrwSame at h
    rw [Bool.or_eq_true] at h
    rcases h with h | h
    · exact hptr a b h
    · split at h
      · simpa using h
      · simpa [and_assoc] using h
      · simp only [and_eq_true,decide_eq_true_eq] at h
        rw [h.1.1,ih h.1.2,ih h.2]
      · simp only [and_eq_true,decide_eq_true_eq] at h
        rw [h.1,ih h.2]
      · simp only [and_eq_true,decide_eq_true_eq] at h
        rw [h.1.1.1,h.1.1.2,h.1.2,ih h.2]
      · simp only [and_eq_true,decide_eq_true_eq] at h
        rw [h.1.1.1.1,h.1.1.1.2,h.1.1.2,h.1.2,ih h.2]
      · simp only [and_eq_true,decide_eq_true_eq] at h
        rw [h.1.1,h.1.2,ih h.2]
      · simp at h

theorem eval_extended {t : ℕ} {s : Bool} (hx : ty Γ x = ⟨f,s⟩) (hft : f ≤ t)
    (he : ∀ ρ W S, eval Γ ρ e W S = wrap (wrap (wrap (eval Γ ρ x (ty Γ x).w (ty Γ x).s) f s) t s) W S)
    (ρ : Env) :
    eval Γ ρ e t s = eval Γ ρ x f s := by
  have hin : InTy (eval Γ ρ x f s) f s := by
    have := eval_inTy_own (Γ := Γ) (ρ := ρ) x
    rwa [hx] at this
  rw [he,hx,wrap_of_inTy hin,wrap_wider hin hft,wrap_wider hin hft]

theorem rel_extended {y : Expr} {t : ℕ} {s : Bool} (hx : ty Γ x = ⟨f,s⟩)
    (hy : ty Γ y = ⟨f,s⟩) (hft : f ≤ t) (ha : ty Γ a = ⟨t,s⟩) (he : ty Γ e = ⟨t,s⟩)
    (hea : ∀ ρ W S, eval Γ ρ a W S = wrap (wrap (wrap (eval Γ ρ x (ty Γ x).w (ty Γ x).s) f s) t s) W S)
    (hee : ∀ ρ W S, eval Γ ρ e W S = wrap (wrap (wrap (eval Γ ρ y (ty Γ y).w (ty Γ y).s) f s) t s) W S)
    (ρ : Env) : rel Γ ρ op a e = rel Γ ρ op x y := by
  simp only [rel,ha,he,hx,hy,Ty.join_w,Ty.join_s,max_self,Bool.and_self]
  rw [eval_extended hx hft hea,eval_extended hy hft hee]

/-- Taking extensions off both sides keeps the comparison. -/
theorem mrwPeel_spec (ht : Typed Γ typeOf) {n : ℕ} {op : BinOp} {a e a' e' : Expr}
    (ha : Operand Q Γ a) (he : Operand Q Γ e) (h : mrwPeel typeOf n a e = some (a',e')) :
    Operand Q Γ a' ∧ Operand Q Γ e' ∧ ∀ ρ, rel Γ ρ op a' e' = rel Γ ρ op a e := by
  have hstop : ∀ {a e : Expr}, Operand Q Γ a → Operand Q Γ e → some (a,e) = some (a',e') →
      Operand Q Γ a' ∧ Operand Q Γ e' ∧ ∀ ρ, rel Γ ρ op a' e' = rel Γ ρ op a e := by
    intro a e ha he h
    obtain ⟨rfl,rfl⟩ := Prod.mk.inj (Option.some.inj h)
    exact ⟨ha,he,fun _ => rfl⟩
  induction n generalizing a e with
  | zero => exact hstop ha he h
  | succ n ih =>
    unfold mrwPeel at h
    split at h
    · next x f t s y f' t' s' =>
      split_ifs at h with hno
      · exact hstop ha he h
      · simp only [not_or,not_not,not_lt] at hno
        obtain ⟨rfl,rfl,rfl,hft⟩ := hno
        obtain ⟨ix,hix,h1⟩ := bind_eq_some_iff.mp h
        obtain ⟨iy,hiy,h2⟩ := bind_eq_some_iff.mp h1
        obtain ⟨ox,hox,h3⟩ := bind_eq_some_iff.mp h2
        obtain rfl := ht _ _ hix
        obtain rfl := ht _ _ hiy
        split_ifs at h3 with hty
        · exact hstop ha he h3
        · simp only [not_or,not_not] at hty
          obtain ⟨hxw,hyw,hxy,-,hsx⟩ := hty
          have hx : ty Γ x = ⟨f,s⟩ := by rw [← hxw,hsx]
          have hy : ty Γ y = ⟨f,s⟩ := by rw [← hyw,hsx,hxy]
          have hown : ∀ z, ty Γ z = ⟨f,s⟩ → ty Γ (.extend z f t s) = ⟨t,s⟩ := fun z hz => by
            rw [ty,hz]
            exact Ty.fix_eq (by have := ty_w_pos Γ z; rw [hz] at this; simp only at this ⊢; omega)
          have heval : ∀ z, ty Γ z = ⟨f,s⟩ → ∀ ρ W S, eval Γ ρ (.extend z f t s) W S =
              wrap (wrap (wrap (eval Γ ρ z (ty Γ z).w (ty Γ z).s) f s) t s) W S := fun z hz ρ W S => by
            have := hown z hz
            rw [ty,hz] at this
            simp only [eval,hz,this]
          obtain ⟨h1,h2,hrel⟩ := ih ⟨ha.sized.1,ha.shifts⟩ ⟨he.sized.1,he.shifts⟩ h3
          refine ⟨h1,h2,fun ρ => (hrel ρ).trans ?_⟩
          exact (rel_extended hx hy hft (hown x hx) (hown y hy) (heval x hx) (heval y hy) ρ).symm
    · next x f t s d y f' t' s' d' =>
      split_ifs at h with hno
      · exact hstop ha he h
      · simp only [not_or,not_not,not_lt] at hno
        obtain ⟨rfl,rfl,rfl,rfl,hft⟩ := hno
        obtain ⟨ix,hix,h1⟩ := bind_eq_some_iff.mp h
        obtain ⟨iy,hiy,h2⟩ := bind_eq_some_iff.mp h1
        obtain rfl := ht _ _ hix
        obtain rfl := ht _ _ hiy
        split_ifs at h2 with hty
        · exact hstop ha he h2
        · simp only [not_or,not_not] at hty
          obtain ⟨hxw,hyw,hxy,hdx,hsx⟩ := hty
          obtain rfl : d = s := hdx.trans hsx.symm
          have hx : ty Γ x = ⟨f,d⟩ := by rw [← hxw,hsx]
          have hy : ty Γ y = ⟨f,d⟩ := by rw [← hyw,hsx,hxy]
          have hfix : Ty.fix ⟨t,d⟩ = ⟨t,d⟩ :=
            Ty.fix_eq (by have := ty_w_pos Γ x; rw [hx] at this; simp only at this ⊢; omega)
          have heval : ∀ z, ∀ ρ W S, eval Γ ρ (.svCast z f t d d) W S =
              wrap (wrap (wrap (eval Γ ρ z (ty Γ z).w (ty Γ z).s) f d) t d) W S := fun z ρ W S => by
            simp only [eval,hfix]
          obtain ⟨h1,h2,hrel⟩ := ih ⟨ha.sized.1,ha.shifts⟩ ⟨he.sized.1,he.shifts⟩ h2
          refine ⟨h1,h2,fun ρ => (hrel ρ).trans ?_⟩
          exact (rel_extended (a := .svCast x f t d d) (e := .svCast y f t d d) hx hy hft hfix hfix (heval x)
            (heval y) ρ).symm
    · exact hstop ha he h

theorem mrwPeel_own (ht : Typed Γ typeOf) {p : Expr × Expr}
    (h : mrwPeel typeOf n a e = some p) : mrwPeel (own Γ) n a e = some p := by
  induction n generalizing a e with
  | zero => exact h
  | succ n ih =>
    unfold mrwPeel at h ⊢
    split at h
    · split_ifs at h ⊢ with hno
      · exact h
      · obtain ⟨ix,hix,h1⟩ := bind_eq_some_iff.mp h
        obtain ⟨iy,hiy,h2⟩ := bind_eq_some_iff.mp h1
        obtain ⟨ox,hox,h3⟩ := bind_eq_some_iff.mp h2
        obtain rfl := ht _ _ hix
        obtain rfl := ht _ _ hiy
        obtain rfl := ht _ _ hox
        simp only [own,Option.bind_some]
        split_ifs at h3 ⊢ with hty
        · exact h3
        · exact ih h3
    · split_ifs at h ⊢ with hno
      · exact h
      · obtain ⟨ix,hix,h1⟩ := bind_eq_some_iff.mp h
        obtain ⟨iy,hiy,h2⟩ := bind_eq_some_iff.mp h1
        obtain rfl := ht _ _ hix
        obtain rfl := ht _ _ hiy
        simp only [own,Option.bind_some]
        split_ifs at h2 ⊢ with hty
        · exact h2
        · exact ih h2
    · exact h

theorem rel_ite {f : Expr} (htt : ty Γ t = ty Γ e) (htf : ty Γ f = ty Γ e) (ρ : Env) :
    rel Γ ρ op (.ite c t f) e = if truth Γ ρ c then rel Γ ρ op t e else rel Γ ρ op f e := by
  have hti : ty Γ (.ite c t f) = ty Γ e := by
    rw [ty,htt,htf]
    simp [Ty.join]
  simp only [rel,hti,htt,htf,eval_ite]
  split_ifs <;> rfl

theorem rel_self (hop : op.isCmp = true) (e : Expr) (ρ : Env) :
    rel Γ ρ op e e = decide (op = .eq ∨ op = .lte ∨ op = .gte) := by
  cases op <;> simp_all [rel,cmpVal,BinOp.isCmp]

/-- What is left alone is no conditional compared with its own branch. -/
theorem mrwIteSelf_none (ht : Typed Γ typeOf)
    (h : mrwIteSelf typeOf ptr op a e = some none) (c x e' : Expr) : ¬SelfIte Γ ptr a e c x e' := by
  rintro ⟨t,f,hown,⟨hat,haf,hae⟩,hbranch⟩
  obtain ⟨p,hpeel,h1⟩ := bind_eq_some_iff.mp h
  obtain rfl := Option.some.inj ((mrwPeel_own ht hpeel).symm.trans hown)
  obtain ⟨ta,hta,h2⟩ := bind_eq_some_iff.mp h1
  obtain ⟨tt,htt,h3⟩ := bind_eq_some_iff.mp h2
  obtain ⟨tf,htf,h4⟩ := bind_eq_some_iff.mp h3
  obtain ⟨te,hte,h5⟩ := map_eq_some_iff.mp h4
  obtain rfl := ht _ _ hta
  obtain rfl := ht _ _ htt
  obtain rfl := ht _ _ htf
  obtain rfl := ht _ _ hte
  rw [if_neg (by simp [hat.symm,haf.symm,hae.symm])] at h5
  rcases hbranch with ⟨hts,-⟩ | ⟨hts,hfs,-⟩
  · simp only [hts,Bool.not_true,Bool.false_and,Bool.false_eq_true,if_false] at h5
    split_ifs at h5
  · simp only [hts,hfs,Bool.not_true,Bool.and_false,Bool.false_eq_true,if_false] at h5
    split_ifs at h5

theorem mrwIteSelf_spec (ht : Typed Γ typeOf) (hptr : ∀ a b, ptr a b = true → a = b)
    (hop : op.isCmp = true) (ha : Operand Q Γ a) (he : Operand Q Γ e)
    (hreads : ∀ c x e', SelfIte Γ ptr a e c x e' →
      Reads Γ ptr (.root c) ∧ Reads Γ ptr (.cmp (isEq op) x e'))
    (h : mrwIteSelf typeOf ptr op a e = some (some r)) :
    Root Q Γ ptr r ∧ ∀ ρ, truth Γ ρ r = rel Γ ρ op a e := by
  obtain ⟨⟨a',e'⟩,hpeel,h1⟩ := bind_eq_some_iff.mp h
  obtain ⟨ha',he',hrel⟩ := @mrwPeel_spec Q Γ typeOf ht 2 op a e a' e' ha he hpeel
  cases a' with
  | ite c t f =>
    obtain ⟨ta,hta,h2⟩ := bind_eq_some_iff.mp h1
    obtain ⟨tt,htt,h3⟩ := bind_eq_some_iff.mp h2
    obtain ⟨tf,htf,h4⟩ := bind_eq_some_iff.mp h3
    obtain ⟨te,hte,h5⟩ := map_eq_some_iff.mp h4
    obtain rfl := ht _ _ hta
    obtain rfl := ht _ _ htt
    obtain rfl := ht _ _ htf
    obtain rfl := ht _ _ hte
    rw [ite_none_left_eq_some] at h5
    obtain ⟨htys,h5⟩ := h5
    simp only [not_or,not_not] at htys
    obtain ⟨hat,haf,hae⟩ := htys
    have hte : ty Γ t = ty Γ e' := hat.symm.trans hae
    have hfe : ty Γ f = ty Γ e' := haf.symm.trans hae
    simp only [ite_none_left_eq_some] at h5
    obtain ⟨hself,h6⟩ := h5
    have hself' : ∀ x, (mrwSame ptr 17 t e' = true ∧ x = f ∨
        mrwSame ptr 17 t e' = false ∧ mrwSame ptr 17 f e' = true ∧ x = t) →
        Reads Γ ptr (.root c) ∧ Reads Γ ptr (.cmp (isEq op) x e') :=
      fun x hx => hreads c x e' ⟨t,f,mrwPeel_own ht hpeel,⟨hat,haf,hae⟩,hx⟩
    have hc : Root Q Γ ptr c := by
      refine ⟨ha'.sized.1,ha'.shifts.1,?_⟩
      cases hts : mrwSame ptr 17 t e' with
      | true => exact (hself' f (Or.inl ⟨hts,rfl⟩)).1
      | false => exact (hself' t (Or.inr ⟨hts,by simpa [hts] using hself,rfl⟩)).1
    have htop : Operand Q Γ t := ⟨ha'.sized.2.1,ha'.shifts.2.1⟩
    have hfop : Operand Q Γ f := ⟨ha'.sized.2.2,ha'.shifts.2.2⟩
    have hnc : Root Q Γ ptr ((mrwNeg 65 c).getD (.unary .not c)) ∧
        ∀ ρ, truth Γ ρ ((mrwNeg 65 c).getD (.unary .not c)) = !truth Γ ρ c := by
      cases hn : mrwNeg 65 c with
      | none => exact ⟨hc.not,fun ρ => truth_not c⟩
      | some y => exact mrwNeg_spec hc hn
    generalize (mrwNeg 65 c).getD (.unary .not c) = nc at h6 hnc
    obtain ⟨hncr,hnct⟩ := hnc
    have hrefl := rel_self (Γ := Γ) hop e'
    cases hts : mrwSame ptr 17 t e' with
    | true =>
      have hteq := mrwSame_eq hptr hts
      have hcmp := Root.cmp hop hfop he' (hself' f (Or.inl ⟨hts,rfl⟩)).2
      split_ifs at h6 with hre
      · obtain rfl := Option.some.inj h6
        refine ⟨hc.or hcmp,fun ρ => ?_⟩
        rw [← hrel,rel_ite hte hfe,truth_or,truth_cmp hop,hteq,hrefl,decide_eq_true hre]
        cases truth Γ ρ c <;> rfl
      · obtain rfl := Option.some.inj h6
        refine ⟨hncr.and hcmp,fun ρ => ?_⟩
        rw [← hrel,rel_ite hte hfe,truth_and,truth_cmp hop,hteq,hrefl,decide_eq_false hre,hnct]
        cases truth Γ ρ c <;> rfl
    | false =>
      have hfs : mrwSame ptr 17 f e' = true := by simpa [hts] using hself
      have hfeq := mrwSame_eq hptr hfs
      simp only [hts,Bool.false_eq_true,if_false] at h6
      have hcmp := Root.cmp hop htop he' (hself' t (Or.inr ⟨hts,hfs,rfl⟩)).2
      split_ifs at h6 with hre
      · obtain rfl := Option.some.inj h6
        refine ⟨hncr.or hcmp,fun ρ => ?_⟩
        rw [← hrel,rel_ite hte hfe,truth_or,truth_cmp hop,hfeq,hrefl,decide_eq_true hre,hnct]
        cases truth Γ ρ c <;> simp
      · obtain rfl := Option.some.inj h6
        refine ⟨hc.and hcmp,fun ρ => ?_⟩
        rw [← hrel,rel_ite hte hfe,truth_and,truth_cmp hop,hfeq,hrefl,decide_eq_false hre]
        cases truth Γ ρ c <;> simp
  | _ => simp at h1

end Sv
end DvSolve
