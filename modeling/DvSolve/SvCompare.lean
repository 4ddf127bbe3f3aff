import DvSolve.SvConvert

/-! The comparisons elaboration emits hold when those of the rules do. -/
namespace DvSolve
namespace Sv

open TwosComp Validate
open Bool (false_eq_true)
open Option (bind_eq_some_iff map_eq_some_iff)

variable {Q : ℕ → ℕ → Prop} {Γ : ℕ → Ty} {ρ : Env} {typeOf : Expr → Option Ty}
variable {op : BinOp} {n : Expr} {b : Env → Bool} {v a : Expr} {t : Bool} {bits : ℕ} {cv : ℤ}
  {id : ℕ}

theorem Decides.holds {e e' : Expr} (h : Decides Q Γ b e') (hb : ∀ ρ, b ρ = Sv.truth Γ ρ e) :
    Holds Q Γ e e' :=
  ⟨fun ρ W S hW => by rw [eval_ne_zero_iff h.self S hW,h.truth,hb],h.sized⟩

theorem Decides.congr {b' : Env → Bool} {e' : Expr} (h : Decides Q Γ b e') (hb : ∀ ρ, b ρ = b' ρ) :
    Decides Q Γ b' e' :=
  ⟨h.self,h.type,fun ρ => (h.truth ρ).trans (hb ρ),h.plain,h.sized⟩

theorem Decides.const {e' : Expr} (h : mkConst (ofBool t) false 1 = some e') :
    Decides Q Γ (fun _ => t) e' := by
  obtain rfl := mkConst_eq h
  refine ⟨rfl,rfl,fun ρ => ?_,?_,?_⟩
  · cases t <;> rfl
  · cases t <;> exact ⟨Nat.one_pos,by decide⟩
  · cases t <;> exact ⟨by decide,by decide⟩

theorem Spells.cmp (hop : op.isCmp = true) {b l r : Expr} {W : ℕ} {S : Bool}
    (hl : Spells Q Γ a W S l) (hr : Spells Q Γ b W S r) :
    Decides Q Γ (fun ρ => cmpVal op (eval Γ ρ a W S) (eval Γ ρ b W S)) (.binary op l r) := by
  have ha : op.isArith = false := by cases op <;> simp_all [BinOp.isCmp,BinOp.isArith]
  have hs : op.isShift = false := by cases op <;> simp_all [BinOp.isCmp,BinOp.isShift]
  have hty : ty Γ (.binary op l r) = boolTy := ty_bool ha hs l r
  have hjoin : (ty Γ l).join (ty Γ r) = ⟨max (ty Γ l).w (ty Γ r).w,S⟩ := by
    rw [Ty.join,hl.sign,hr.sign,Bool.and_self]
  refine ⟨by simp [selfDetermined,ha,hs],hty,fun ρ => ?_,trivial,hl.sized,hr.sized⟩
  rw [truth,eval_cmp hop,hjoin]
  simp only [ofBool_ne_zero,Bool.decide_eq_true]
  rw [hl.value ρ _ (le_max_left _ _) (max_le hl.width hr.width),
    hr.value ρ _ (le_max_right _ _) (max_le hl.width hr.width)]

theorem cmpVal_flip (op : BinOp) (hop : op.isCmp = true) (x y : ℤ) :
    cmpVal (flipCmp op) y x = cmpVal op x y := by
  cases op <;> simp_all [BinOp.isCmp,flipCmp,cmpVal,eq_comm]

theorem inTy_iff_range {t : Ty} (hpos : 0 < t.w) (hle : t.w ≤ 64) (x : ℤ) :
    InTy x t.w t.s ↔ vmin t ≤ x ∧ x ≤ vmax t := by
  obtain ⟨w,s⟩ := t
  obtain ⟨k,rfl⟩ : ∃ k, w = k+1 := ⟨w-1,(Nat.sub_add_cancel hpos).symm⟩
  have hsucc : (2^(k+1) : ℤ) = 2*2^k := by rw [pow_succ]; ring
  unfold InTy vmin vmax
  simp only [Nat.add_sub_cancel]
  cases s with
  | false =>
    simp only [false_eq_true,if_false]
    split_ifs with h
    · obtain rfl : k = 63 := by simp only at hle; omega
      omega
    · omega
  | true =>
    simp only [if_true]
    rw [hsucc]
    split_ifs with h
    · obtain rfl : k = 63 := by simp only at hle; omega
      omega
    · omega

theorem rangeTruth_some {vop : BinOp} (hop : vop.isCmp = true) {vt : Ty} {x : ℤ} (hpos : 0 < vt.w)
    (hle : vt.w ≤ 64) (hx : InTy x vt.w vt.s) (h : rangeTruth vop vt cv = some t) :
    cmpVal vop x cv = t := by
  obtain ⟨hlo,hhi⟩ := (inTy_iff_range hpos hle x).mp hx
  unfold rangeTruth at h
  cases vop <;> simp only [BinOp.isCmp,false_eq_true] at hop <;> dsimp only at h <;>
    split_ifs at h <;> rw [← Option.some.inj h] <;>
    simp only [cmpVal,decide_eq_true_eq,decide_eq_false_iff_not] <;> omega

theorem rangeTruth_none {vop : BinOp} (hop : vop.isCmp = true) {vt : Ty} (hpos : 0 < vt.w)
    (hle : vt.w ≤ 64) (h : rangeTruth vop vt cv = none) : InTy cv vt.w vt.s := by
  rw [inTy_iff_range hpos hle]
  unfold rangeTruth at h
  cases vop <;> simp only [BinOp.isCmp,false_eq_true] at hop <;> dsimp only at h <;>
    split_ifs at h <;> constructor <;> omega

theorem bits_all_iff {low W : ℕ} {b : Bool} (hle : low ≤ W) :
    ((List.range' low (W-low)).all fun i => bits.testBit i == b) = true ↔
      ∀ i, low ≤ i → i < W → bits.testBit i = b := by
  rw [List.all_eq_true]
  constructor
  · intro h i h1 h2
    simpa using h i (List.mem_range'_1.mpr (by omega))
  · intro h i hi
    have := List.mem_range'_1.mp hi
    simpa using h i (by omega) (by omega)

theorem top_iff {W : ℕ} (hW : 0 < W) : bits.testBit (W-1) = true ↔ 2^W ≤ 2*(bits % 2^W) := by
  have hpow : 2^W = 2*2^(W-1) := by
    rw [← pow_succ']
    congr 1
    omega
  have hone := high_one_iff (n := bits) (show W-1 ≤ W by omega)
  constructor
  · intro h
    have := hone.mp fun i h1 h2 => by rwa [show i = W-1 by omega]
    omega
  · intro h
    exact hone.mpr (by omega) (W-1) (le_refl _) (by omega)

/-- The number of a wide constant, in the three ways `_cmp_var_wide` reads it: beyond 64 bits
by its sign alone, or by its sign, within 64 bits when the higher bits are all its sign. -/
theorem wide_cases {W : ℕ} {s S : Bool} (hW : 64 < W) (hS : S = true → s = true) :
    (s && bits.testBit (W-1)) = true ∧ S = false ∧ 2^64 ≤ wrap bits W S ∨
    (s && bits.testBit (W-1)) = true ∧ S = true ∧ wrap bits W S < 0 ∧
      ((∀ i, 63 ≤ i → i < W → bits.testBit i = true) ↔ -2^63 ≤ wrap bits W S) ∨
    (s && bits.testBit (W-1)) = false ∧ 0 ≤ wrap bits W S ∧
      ((∀ i, 64 ≤ i → i < W → bits.testBit i = false) ↔ wrap bits W S < 2^64) := by
  have htop := @top_iff bits W (by omega)
  have hbig : 2^65 ≤ 2^W := Nat.pow_le_pow_right (by decide) hW
  have hcast : ((2^W : ℕ) : ℤ) = 2^W := by push_cast; rfl
  have hfalse : wrap bits W false = ((bits % 2^W : ℕ) : ℤ) := by rw [wrap_false,pat_natCast]
  have htrue := wrap_true_natCast bits W
  cases hneg : s && bits.testBit (W-1) with
  | true =>
    have h2 := htop.mp (Bool.and_eq_true_iff.mp hneg).2
    cases S with
    | false =>
      left
      refine ⟨rfl,rfl,?_⟩
      rw [hfalse]
      omega
    | true =>
      right; left
      rw [if_pos h2] at htrue
      refine ⟨rfl,rfl,by rw [htrue]; omega,?_⟩
      rw [high_one_iff (show 63 ≤ W by omega),htrue]
      omega
  | false =>
    right; right
    have hval : wrap bits W S = ((bits % 2^W : ℕ) : ℤ) := by
      cases S with
      | false => exact hfalse
      | true =>
        rw [hS rfl,Bool.true_and] at hneg
        have h2 : ¬2^W ≤ 2*(bits % 2^W) := by rw [← htop,hneg]; simp
        rw [htrue,if_neg h2]
    refine ⟨rfl,by rw [hval]; omega,?_⟩
    rw [high_zero_iff,hval]
    omega

theorem decided_eq (h : decided t = some (some n)) :
    mkConst (ofBool t) false 1 = some n := by
  obtain ⟨n',hn,he⟩ := map_eq_some_iff.mp h
  rwa [← Option.some.inj he]

theorem beyond_decides (hop : op.isCmp = true) (neg : Bool) {k : ℤ}
    (hk : if neg then k < -2^63 else 2^64 ≤ k) (h : beyond op neg = some (some n)) {x : Env → ℤ}
    (hx : ∀ ρ, -2^63 ≤ x ρ ∧ x ρ < 2^64) : Decides Q Γ (fun ρ => cmpVal op (x ρ) k) n := by
  obtain ⟨t,ht,hval⟩ : ∃ t, decided t = some (some n) ∧ ∀ ρ, t = cmpVal op (x ρ) k := by
    cases op <;> simp only [BinOp.isCmp,false_eq_true] at hop <;>
      refine ⟨_,h,fun ρ => ?_⟩ <;> have hxρ := hx ρ <;> cases neg <;>
      simp only [false_eq_true,if_false,if_true] at hk <;> simp [cmpVal] <;> omega
  exact (Decides.const (decided_eq ht)).congr hval

theorem inTy_64 {x : ℤ} {t : Ty} (h : InTy x t.w t.s) (hle : t.w ≤ 64) : -2^63 ≤ x ∧ x < 2^64 := by
  have h' := h.mono hle
  unfold InTy at h'
  cases hs : t.s <;> rw [hs] at h' <;> simp only [false_eq_true,if_false,if_true] at h' <;> omega

theorem eval_const_of_inTy {kv : ℤ} {t : Ty} (hpos : 0 < t.w) (hle : t.w ≤ 64)
    (hcv : InTy cv t.w t.s) (hmod : kv % 2^64 = cv % 2^64) :
    eval Γ ρ (.const kv t.w t.s) t.w t.s = cv := by
  have hct : constType kv t.w t.s = t := ty_const_sized (Γ := Γ) hpos t.s
  rw [eval,hct]
  apply (wrap_inTy _ _ _).eq_of_emod hcv
  rw [wrap_emod,constValue_emod kv hle (le_refl _)]
  exact emod_of_le hle hmod

/-- The int64 spelling of a number that lies in the range of its type is the number. -/
theorem plain_of_inTy {kv : ℤ} {t : Ty} (hpos : 0 < t.w) (hle : t.w ≤ 64) (hcv : InTy cv t.w t.s)
    (hkv : -2^63 ≤ kv ∧ kv < 2^63) (hmod : kv % 2^64 = cv % 2^64) : Plain (.const kv t.w t.s) := by
  have hvalue : constValue kv t = cv := by
    apply (wrap_inTy _ _ _).eq_of_emod hcv
    rw [← constValue,constValue_emod kv hle (le_refl _)]
    exact emod_of_le hle hmod
  have h64 := hcv.mono hle
  refine ⟨hpos,hvalue.trans ?_⟩
  cases hs : t.s with
  | true =>
    rw [hs] at h64
    exact h64.eq_of_emod (int64_inTy hkv) hmod.symm
  | false =>
    rw [hs] at h64
    have := wrap_of_inTy h64
    simp only [false_eq_true,if_false]
    rw [hmod,← this,wrap_emod]
    simp [wrap]

/-- The operator read with the variable on the left. -/
theorem vop_spec (hop : op.isCmp = true) (varLeft : Bool) :
    (if varLeft then op else flipCmp op).isCmp = true ∧
      ∀ x k, cmpVal (if varLeft then op else flipCmp op) x k =
        if varLeft then cmpVal op x k else cmpVal op k x := by
  cases varLeft with
  | true => exact ⟨hop,fun _ _ => rfl⟩
  | false =>
    refine ⟨?_,fun x k => cmpVal_flip op hop k x⟩
    cases op <;> simp_all [flipCmp,BinOp.isCmp]

theorem cmpVarNarrow_decides (hop : op.isCmp = true) {varLeft : Bool}
    (hle : (ty Γ (.var id)).w ≤ 64) {kv : ℤ} (hkv : -2^63 ≤ kv ∧ kv < 2^63)
    (hmod : kv % 2^64 = cv % 2^64)
    (h : cmpVarNarrow op varLeft (.var id) (ty Γ (.var id)) kv cv = some (some n)) :
    Decides Q Γ (fun ρ =>
      let x := eval Γ ρ (.var id) (ty Γ (.var id)).w (ty Γ (.var id)).s
      if varLeft then cmpVal op x cv else cmpVal op cv x) n := by
  have hpos := ty_w_pos Γ (.var id)
  obtain ⟨hvop,hflip⟩ := vop_spec hop varLeft
  unfold cmpVarNarrow at h
  cases hr : rangeTruth (if varLeft then op else flipCmp op) (ty Γ (.var id)) cv with
  | some t =>
    rw [hr] at h
    refine (Decides.const (decided_eq h)).congr fun ρ => ?_
    rw [← rangeTruth_some hvop hpos hle (eval_inTy_own (Γ := Γ) (ρ := ρ) (.var id)) hr,hflip]
  | none =>
    rw [hr] at h
    have hcv := rangeTruth_none hvop hpos hle hr
    obtain ⟨kc,hkc,hn⟩ := map_eq_some_iff.mp h
    obtain rfl := mkConst_eq hkc
    have hconst := fun ρ => eval_const_of_inTy (Γ := Γ) (ρ := ρ) hpos hle hcv hmod
    have hty := ty_const_sized (Γ := Γ) (v := kv) hpos (ty Γ (.var id)).s
    have hv := Spells.refl (Q := Q) (Γ := Γ) (e := .var id) rfl trivial trivial
    have hk : Spells Q Γ (.const kv (ty Γ (.var id)).w (ty Γ (.var id)).s) (ty Γ (.var id)).w
        (ty Γ (.var id)).s (.const kv (ty Γ (.var id)).w (ty Γ (.var id)).s) := by
      have hrefl := Spells.refl (Q := Q) (Γ := Γ) (e := .const kv (ty Γ (.var id)).w (ty Γ (.var id)).s) rfl
        (plain_of_inTy hpos hle hcv hkv hmod) hkv
      rwa [hty] at hrefl
    rw [← Option.some.inj hn]
    cases varLeft with
    | true => exact (hv.cmp hop hk).congr fun ρ => by simp only [hconst ρ]; rfl
    | false => exact (hk.cmp hop hv).congr fun ρ => by simp only [hconst ρ]; rfl

/-- The shortcut is taken where the variable has the value it has by itself. -/
theorem cmpVarWide_applies (ht : Typed Γ typeOf) {varLeft : Bool} {W : ℕ} {s : Bool}
    (h : cmpVarWide typeOf op varLeft (.var id) bits W s ((ty Γ (.var id)).s && s) = some (some n)) :
    (ty Γ (.var id)).w ≤ 64 ∧ ((ty Γ (.var id)).s = true → s = true) := by
  obtain ⟨vt,hvt,h⟩ := bind_eq_some_iff.mp h
  obtain rfl := ht _ vt hvt
  by_cases hno : (ty Γ (.var id)).w > 64 ∨
      ((ty Γ (.var id)).s = true ∧ (!((ty Γ (.var id)).s && s)) = true)
  · rw [if_pos hno] at h
    exact absurd h (by simp)
  · refine ⟨by omega,fun hvs => ?_⟩
    by_contra hs
    exact hno (Or.inr ⟨hvs,by simp [hs]⟩)

theorem and_eq_left {a b : Bool} (h : a = true → b = true) : (a && b) = a := by
  cases a with
  | false => rfl
  | true => exact h rfl

theorem cmpVarWide_decides (ht : Typed Γ typeOf) (hop : op.isCmp = true) {varLeft : Bool} {W : ℕ}
    {s : Bool} (hW : 64 < W)
    (h : cmpVarWide typeOf op varLeft (.var id) bits W s ((ty Γ (.var id)).s && s) = some (some n)) :
    Decides Q Γ (fun ρ =>
      let x := eval Γ ρ (.var id) (ty Γ (.var id)).w (ty Γ (.var id)).s
      let k := wrap bits W (ty Γ (.var id)).s
      if varLeft then cmpVal op x k else cmpVal op k x) n := by
  obtain ⟨hle,hS⟩ := cmpVarWide_applies ht h
  obtain ⟨vt,hvt,h⟩ := bind_eq_some_iff.mp h
  obtain rfl := ht _ vt hvt
  obtain ⟨hvop,hflip⟩ := vop_spec hop varLeft
  have hsame := and_eq_left hS
  rw [hsame,if_neg (by rintro (hw | ⟨hs,hn⟩); omega; simp [hs] at hn)] at h
  have hx64 := fun ρ => inTy_64 (eval_inTy_own (Γ := Γ) (ρ := ρ) (.var id)) hle
  have hkv : InTy (wrap (bits : ℤ) 64 true) 64 true := wrap_inTy _ _ _
  have hkvb := hkv
  unfold InTy at hkvb
  simp only [if_true] at hkvb
  rcases @wide_cases bits _ _ _ hW hS with ⟨hneg,hS0,hk⟩ | ⟨hneg,hS1,hk0,hfits⟩ | ⟨hneg,hk0,hfits⟩
  · rw [hneg,hS0] at h
    exact (beyond_decides hvop false hk h hx64).congr fun ρ => hflip _ _
  · rw [hneg,hS1] at h
    simp only [Bool.not_true,false_eq_true,and_false,if_false,if_true] at h
    rw [← bits_all_iff (by omega)] at hfits
    by_cases hall : ((List.range' 63 (W-63)).all fun i => bits.testBit i == true) = true
    · rw [hall] at h
      have hk : wrap (bits : ℤ) 64 true = wrap (bits : ℤ) W (ty Γ (.var id)).s := by
        apply hkv.eq_of_emod (int64_inTy ⟨hfits.mp hall,by omega⟩)
        rw [wrap_emod,emod_of_le (by omega) (wrap_emod _ W _)]
      rw [hk] at h
      exact cmpVarNarrow_decides hop hle ⟨hfits.mp hall,by omega⟩ rfl h
    · have hlt : wrap (bits : ℤ) W (ty Γ (.var id)).s < -2^63 := by rwa [← not_le,← hfits]
      rw [Bool.not_eq_true] at hall
      rw [hall] at h
      exact (beyond_decides hvop true hlt h hx64).congr fun ρ => hflip _ _
  · rw [hneg] at h
    simp only [false_eq_true,false_and,if_false] at h
    rw [← bits_all_iff (by omega)] at hfits
    by_cases hall : ((List.range' 64 (W-64)).all fun i => bits.testBit i == false) = true
    · rw [hall] at h
      have hk : wrap (bits : ℤ) 64 true % 2^64 = wrap (bits : ℤ) W (ty Γ (.var id)).s := by
        have hmod := emod_of_le (w := 64) (by omega) (wrap_emod (bits : ℤ) W (ty Γ (.var id)).s)
        rw [wrap_emod,← hmod,Int.emod_eq_of_lt hk0 (hfits.mp hall)]
      rw [← hk]
      exact cmpVarNarrow_decides hop hle (by omega) (Int.emod_emod_of_dvd _ (dvd_refl _)).symm h
    · have hge : 2^64 ≤ wrap (bits : ℤ) W (ty Γ (.var id)).s := by rwa [← not_lt,← hfits]
      rw [Bool.not_eq_true] at hall
      rw [hall] at h
      exact (beyond_decides hvop false hge h hx64).congr fun ρ => hflip _ _

theorem eval_constWide {width : ℕ} {s : Bool} (hw : 0 < width) (S : Bool) :
    eval Γ ρ (.constWide bits width s) width S = wrap bits width S := by
  simp only [eval]
  rw [Ty.fix_w (by exact hw),wrap_wrap (le_refl _)]

/-- A comparison of two nodes in its own context. -/
def rel (Γ : ℕ → Ty) (ρ : Env) (op : BinOp) (a b : Expr) : Bool :=
  let t := (ty Γ a).join (ty Γ b)
  cmpVal op (eval Γ ρ a t.w t.s) (eval Γ ρ b t.w t.s)

/-- A variable of 64 bits and a wider constant are compared at the width of the constant and
the signedness of the variable, where the variable has the value it has by itself. -/
theorem join_wide {width : ℕ} {s : Bool} (hle : (ty Γ (.var id)).w ≤ 64)
    (hS : (ty Γ (.var id)).s = true → s = true)
    (hW : 64 < max (ty Γ (.var id)).w (ty Γ (.constWide bits width s)).w) :
    64 < width ∧ (ty Γ (.var id)).join (ty Γ (.constWide bits width s)) = ⟨width,(ty Γ (.var id)).s⟩ := by
  have hpos : 0 < width := by
    by_contra h0
    obtain rfl : width = 0 := by omega
    simp [ty,Ty.fix] at hW hle
    omega
  have hty : ty Γ (.constWide bits width s) = ⟨width,s⟩ := Ty.fix_eq hpos
  rw [hty] at hW ⊢
  simp only at hW
  refine ⟨by omega,?_⟩
  rw [Ty.join,and_eq_left hS]
  simp only [Ty.mk.injEq,and_true]
  omega

theorem cmpWide_decides (ht : Typed Γ typeOf) (hop : op.isCmp = true) {l0 r0 : Expr}
    (hW : 64 < max (ty Γ l0).w (ty Γ r0).w)
    (h : cmpWide typeOf op l0 r0 ((ty Γ l0).s && (ty Γ r0).s) = some (some n)) :
    Decides Q Γ (fun ρ => rel Γ ρ op l0 r0) n := by
  have hsign : ∀ bits width s, (ty Γ (.constWide bits width s)).s = s := fun _ _ _ => Ty.fix_s _
  unfold cmpWide at h
  split at h
  · rename_i id bits width s
    rw [hsign] at h
    obtain ⟨hle,hS⟩ := cmpVarWide_applies ht h
    obtain ⟨hwidth,hjoin⟩ := join_wide hle hS hW
    refine (cmpVarWide_decides ht hop hwidth h).congr fun ρ => ?_
    rw [rel,hjoin]
    simp only [if_true]
    rw [eval_constWide (by omega),eval_selfDetermined (W := width) (e := .var id) rfl (by omega) rfl]
  · rename_i bits width s id
    rw [hsign,Bool.and_comm] at h
    obtain ⟨hle,hS⟩ := cmpVarWide_applies ht h
    obtain ⟨hwidth,hjoin⟩ := join_wide hle hS (by rwa [max_comm])
    refine (cmpVarWide_decides ht hop hwidth h).congr fun ρ => ?_
    have hcomm : ∀ a b : Ty, a.join b = b.join a := fun a b => by
      rw [Ty.join,Ty.join,max_comm,Bool.and_comm]
    rw [rel,hcomm,hjoin]
    simp only [false_eq_true,if_false]
    rw [eval_constWide (by omega),eval_selfDetermined (W := width) (e := .var id) rfl (by omega) rfl]
  · exact absurd h (by simp)

theorem cmpHuge_spells (ht : Typed Γ typeOf) {b l r l' r' : Expr} {W : ℕ} {S : Bool}
    (hl : Spells Q Γ a W S l) (hr : Spells Q Γ b W S r) (h : cmpHuge typeOf W S l r = some (l',r')) :
    Spells Q Γ a W S l' ∧ Spells Q Γ b W S r' := by
  have hwiden : ∀ {e x x' : Expr} {huge : Bool}, W = 64 → Spells Q Γ e W S x →
      (if huge then widen typeOf x 64 else some x) = some x' → Spells Q Γ e W S x' := by
    intro e x x' huge hW hx h
    split_ifs at h
    · rw [← hW] at h
      exact (hx.widen ht (by omega) h).1
    · rwa [← Option.some.inj h]
  unfold cmpHuge at h
  split_ifs at h with hc
  · obtain ⟨hugeR,_,h⟩ := bind_eq_some_iff.mp h
    obtain ⟨l1,hl1,h⟩ := bind_eq_some_iff.mp h
    obtain ⟨hugeL,_,h⟩ := bind_eq_some_iff.mp h
    obtain ⟨r1,hr1,h⟩ := map_eq_some_iff.mp h
    obtain ⟨rfl,rfl⟩ := Prod.mk.inj h
    exact ⟨hwiden hc.1 hl hl1,hwiden hc.1 hr hr1⟩
  · obtain ⟨rfl,rfl⟩ := Prod.mk.inj (Option.some.inj h)
    exact ⟨hl,hr⟩

theorem Spells.var_value {W : ℕ} {S : Bool} (h : Spells Q Γ a W S (.var id)) :
    eval Γ ρ (.var id) (ty Γ (.var id)).w (ty Γ (.var id)).s = eval Γ ρ a W S := by
  rw [← h.value ρ _ (le_refl _) h.width,h.sign]

theorem Spells.const_value {W w : ℕ} {v : ℤ} {S s : Bool} (h : Spells Q Γ a W S (.const v w s)) :
    (if s then v else v % 2^64) = eval Γ ρ a W S := by
  obtain ⟨hw,hplain⟩ := h.plain
  have hty := ty_const_sized (Γ := Γ) (v := v) hw s
  have hval := h.value ρ _ (le_refl _) h.width
  have hsign := h.sign
  rw [hty] at hval hsign
  rw [← hval,← hsign,eval,constType,if_pos hw.ne',← hplain]
  exact (wrap_of_inTy (wrap_inTy _ _ _)).symm

theorem cmpFold_spec (ht : Typed Γ typeOf) (hop : op.isCmp = true) {b l r : Expr} {W : ℕ} {S : Bool}
    (hl : Spells Q Γ a W S l) (hr : Spells Q Γ b W S r)
    (h : cmpFold typeOf W op l r = some (some t)) :
    ∀ ρ, cmpVal op (eval Γ ρ a W S) (eval Γ ρ b W S) = t := by
  -- a variable compared with a number that its range decides
  have hfold : ∀ {id : ℕ} {vop : BinOp} {cv : ℤ}, vop.isCmp = true → ((typeOf (.var id)).map fun vt =>
      if vt.w ≤ 64 then rangeTruth vop vt cv else none) = some (some t) →
      ∀ ρ, cmpVal vop (eval Γ ρ (.var id) (ty Γ (.var id)).w (ty Γ (.var id)).s) cv = t := by
    intro id vop cv hvop h ρ
    obtain ⟨vt,hvt,h⟩ := map_eq_some_iff.mp h
    obtain rfl := ht _ vt hvt
    split_ifs at h with hle
    exact rangeTruth_some hvop (ty_w_pos Γ _) hle (eval_inTy_own _) h
  unfold cmpFold at h
  split_ifs at h with hW
  · split at h
    · intro ρ
      rw [← hl.var_value,← hr.const_value]
      exact hfold hop h ρ
    · intro ρ
      rw [← hr.var_value,← hl.const_value,← cmpVal_flip op hop]
      exact hfold (vop_spec hop false).1 h ρ
    · exact absurd h (by simp)
  · exact absurd h (by simp)

variable {val : Expr → ℕ → Bool → Option Expr}

/-- What the elaboration of a node for the target `t` has to satisfy. -/
def ValAt (Q : ℕ → ℕ → Prop) (Γ : ℕ → Ty) (val : Expr → ℕ → Bool → Option Expr) (e : Expr) (t : Ty) : Prop :=
  ∀ e', val e t.w t.s = some e' → Spells Q Γ e t.w t.s e'

theorem cmp_decides (ht : Typed Γ typeOf) (hop : op.isCmp = true) {l0 r0 : Expr}
    (hl : ValAt Q Γ val l0 ((ty Γ l0).join (ty Γ r0)))
    (hr : ValAt Q Γ val r0 ((ty Γ l0).join (ty Γ r0))) (h : cmp typeOf val op l0 r0 = some n) :
    Decides Q Γ (fun ρ => rel Γ ρ op l0 r0) n := by
  obtain ⟨lt,hlt,h⟩ := bind_eq_some_iff.mp h
  obtain ⟨rt,hrt,h⟩ := bind_eq_some_iff.mp h
  obtain rfl := ht _ lt hlt
  obtain rfl := ht _ rt hrt
  obtain ⟨short,hshort,h⟩ := bind_eq_some_iff.mp h
  cases short with
  | some n' =>
    obtain rfl := Option.some.inj h
    split_ifs at hshort with hW
    · exact cmpWide_decides ht hop hW hshort
    · exact absurd hshort (by simp)
  | none =>
    obtain ⟨l,hl',h⟩ := bind_eq_some_iff.mp h
    obtain ⟨r,hr',h⟩ := bind_eq_some_iff.mp h
    obtain ⟨⟨l1,r1⟩,hhuge,h⟩ := bind_eq_some_iff.mp h
    obtain ⟨hl1,hr1⟩ := cmpHuge_spells ht (hl l hl') (hr r hr') hhuge
    obtain ⟨t,hfold,h⟩ := bind_eq_some_iff.mp h
    cases t with
    | some t => exact (Decides.const h).congr fun ρ => (cmpFold_spec ht hop hl1 hr1 hfold ρ).symm
    | none =>
      obtain rfl := Option.some.inj h
      exact hl1.cmp hop hr1

theorem nonzero_decides (ht : Typed Γ typeOf) {e : Expr} (he : ValAt Q Γ val e (ty Γ e))
    (hz : ∀ t, 0 < t.w → ValAt Q Γ val (.const 0 t.w t.s) t) (h : nonzero typeOf val e = some n) :
    Decides Q Γ (fun ρ => truth Γ ρ e) n := by
  obtain ⟨t,hte,h⟩ := bind_eq_some_iff.mp h
  obtain rfl := ht _ t hte
  obtain ⟨z,hzc,h⟩ := bind_eq_some_iff.mp h
  obtain rfl := mkConst_eq hzc
  have hpos := ty_w_pos Γ e
  have hty := ty_const_sized (Γ := Γ) (v := 0) hpos (ty Γ e).s
  have hjoin : (ty Γ e).join (ty Γ (.const 0 (ty Γ e).w (ty Γ e).s)) = ty Γ e := by
    rw [hty,Ty.join,max_self,Bool.and_self]
  have hcmp := cmp_decides ht (by decide) (by rwa [hjoin]) (by rw [hjoin]; exact hz _ hpos) h
  refine hcmp.congr fun ρ => ?_
  have hzero : eval Γ ρ (.const 0 (ty Γ e).w (ty Γ e).s) (ty Γ e).w (ty Γ e).s = 0 := by
    have h0 : ∀ w s, wrap 0 w s = 0 := fun w s => wrap_of_inTy (inTy_zero w s)
    simp [eval,constValue,h0]
  simp only [rel,hjoin,hzero]
  rfl

theorem Decides.and {c : Env → Bool} {x y : Expr} (hx : Decides Q Γ b x) (hy : Decides Q Γ c y) :
    Decides Q Γ (fun ρ => b ρ && c ρ) (.binary .and x y) := by
  refine ⟨rfl,rfl,fun ρ => ?_,trivial,hx.sized,hy.sized⟩
  rw [Sv.truth,eval_and,hx.truth,hy.truth]
  simp

theorem Decides.or {c : Env → Bool} {x y : Expr} (hx : Decides Q Γ b x) (hy : Decides Q Γ c y) :
    Decides Q Γ (fun ρ => b ρ || c ρ) (.binary .or x y) := by
  refine ⟨rfl,rfl,fun ρ => ?_,trivial,hx.sized,hy.sized⟩
  rw [Sv.truth,eval_or,hx.truth,hy.truth]
  simp

theorem orChain_decides {ι : Type} {f : ι → Expr} {b : ι → Env → Bool}
    (hf : ∀ i, Decides Q Γ (b i) (f i)) {is : List ι} (h : orChain (is.map f) = some n) :
    Decides Q Γ (fun ρ => is.any fun i => b i ρ) n := by
  have hfold : ∀ (is : List ι) {c : Env → Bool} {a : Expr}, Decides Q Γ c a →
      Decides Q Γ (fun ρ => c ρ || is.any fun i => b i ρ)
        ((is.map f).foldl (fun out a => .binary .or out a) a) := by
    intro is
    induction is with
    | nil => exact fun ha => ha.congr fun ρ => by simp
    | cons i is ih => exact fun ha => (ih (ha.or (hf i))).congr fun ρ => by simp [Bool.or_assoc]
  cases is with
  | nil => exact absurd h (by simp [orChain])
  | cons i is =>
    rw [← Option.some.inj h]
    exact (hfold is (hf i)).congr fun ρ => by simp

theorem cmpRange_decides (ht : Typed Γ typeOf) {lo hi : Expr}
    (hlo : ValAt Q Γ val v ((ty Γ v).join (ty Γ lo)) ∧ ValAt Q Γ val lo ((ty Γ v).join (ty Γ lo)))
    (hhi : ValAt Q Γ val v ((ty Γ v).join (ty Γ hi)) ∧ ValAt Q Γ val hi ((ty Γ v).join (ty Γ hi)))
    (h : cmpRange typeOf val v lo hi = some n) :
    Decides Q Γ (fun ρ => rel Γ ρ .gte v lo && rel Γ ρ .lte v hi) n := by
  obtain ⟨ge,hge,h⟩ := bind_eq_some_iff.mp h
  obtain ⟨le,hle,rfl⟩ := map_eq_some_iff.mp h
  exact (cmp_decides ht rfl hlo.1 hlo.2 hge).and (cmp_decides ht rfl hhi.1 hhi.2 hle)

theorem inKeepable_spec (ht : Typed Γ typeOf) {items : List Expr}
    (h : inKeepable typeOf v items = some true) :
    selfDetermined v = true ∧ ∀ item ∈ items, ((ty Γ v).s && (ty Γ item).s) = (ty Γ v).s := by
  unfold inKeepable at h
  split at h
  · rename_i id
    rw [bind_eq_some_iff] at h
    obtain ⟨vt,hvt,h⟩ := h
    obtain rfl := ht _ vt hvt
    refine ⟨rfl,?_⟩
    induction items with
    | nil => simp
    | cons item items ih =>
      obtain ⟨it,hit,h⟩ := bind_eq_some_iff.mp h
      obtain rfl := ht _ it hit
      split_ifs at h with h1 h2
      · exact absurd h (by simp)
      · exact absurd h (by simp)
      · intro x hx
        rcases List.mem_cons.mp hx with rfl | hx
        · simpa using h1
        · exact ih h x hx
  · exact absurd h (by simp)

theorem valItem_rel (ht : Typed Γ typeOf) {item item' : Expr} (hself : selfDetermined v = true)
    (hkeep : ((ty Γ v).s && (ty Γ item).s) = (ty Γ v).s)
    (hitem : ValAt Q Γ val item ((ty Γ v).join (ty Γ item)))
    (h : valItem typeOf val v item = some item') :
    (∀ ρ op, rel Γ ρ op v item' = rel Γ ρ op v item) ∧ Sized Q Γ item' := by
  obtain ⟨vt,hvt,h⟩ := bind_eq_some_iff.mp h
  obtain ⟨it,hit,h⟩ := bind_eq_some_iff.mp h
  obtain rfl := ht _ vt hvt
  obtain rfl := ht _ it hit
  have hjoin : (ty Γ v).join (ty Γ item) = ⟨max (ty Γ item).w (ty Γ v).w,(ty Γ v).s⟩ := by
    rw [Ty.join,hkeep,max_comm]
  rw [hjoin] at hitem
  have hs := hitem item' h
  refine ⟨fun ρ op => ?_,hs.sized⟩
  have hjoin' : (ty Γ v).join (ty Γ item') = ⟨max (ty Γ v).w (ty Γ item').w,(ty Γ v).s⟩ := by
    rw [Ty.join,hs.sign,Bool.and_self]
  have hw := hs.width
  simp only at hw
  simp only [rel,hjoin,hjoin']
  rw [hs.value ρ _ (le_max_right _ _) (by simp only; omega),
    eval_selfDetermined hself (le_max_left _ _) rfl,eval_selfDetermined hself (le_max_right _ _) rfl]

theorem collect_eq {n : ℕ} {α : Type} {f : Fin n → Option α} {g : Fin n → α} (h : collect f = some g)
    (i : Fin n) : f i = some (g i) := by
  unfold collect at h
  split_ifs at h with hall
  rw [← Option.some.inj h,Option.some_get]

theorem truth_inRange (v lo hi : Expr) :
    truth Γ ρ (.inRange v lo hi) = (rel Γ ρ .gte v lo && rel Γ ρ .lte v hi) := by
  rw [truth,eval,Bool.eq_iff_iff,decide_eq_true_eq,ofBool_ne_zero,Bool.and_eq_true]
  exact decide_eq_true_iff

theorem truth_inSet (v : Expr) {n : ℕ} (elems : Fin n → Expr) :
    truth Γ ρ (.inSet v n elems) = (List.finRange n).any fun i => rel Γ ρ .eq v (elems i) := by
  rw [truth,eval,Bool.eq_iff_iff,decide_eq_true_eq,ofBool_ne_zero]
  rfl

theorem truth_inRanges (v : Expr) {n : ℕ} (los his : Fin n → Expr) :
    truth Γ ρ (.inRanges v n los his) =
      (List.finRange n).any fun i => rel Γ ρ .gte v (los i) && rel Γ ρ .lte v (his i) := by
  rw [truth,eval,Bool.eq_iff_iff,decide_eq_true_eq,ofBool_ne_zero]
  rfl

/-- Both sides of a comparison come out spelled in its context. -/
def PairAt (Q : ℕ → ℕ → Prop) (Γ : ℕ → Ty) (val : Expr → ℕ → Bool → Option Expr) (v item : Expr) : Prop :=
  ValAt Q Γ val v ((ty Γ v).join (ty Γ item)) ∧ ValAt Q Γ val item ((ty Γ v).join (ty Γ item))

theorem inRange_decides (ht : Typed Γ typeOf) {lo hi : Expr} (hv : Sized Q Γ v)
    (hlo : PairAt Q Γ val v lo) (hhi : PairAt Q Γ val v hi)
    (h : inE typeOf val (.inRange v lo hi) = some n) :
    Decides Q Γ (fun ρ => truth Γ ρ (.inRange v lo hi)) n := by
  obtain ⟨keep,hkeep,h⟩ := bind_eq_some_iff.mp h
  split_ifs at h with hk
  · rw [hk] at hkeep
    obtain ⟨hself,hsign⟩ := inKeepable_spec ht hkeep
    obtain ⟨lo',hlo',h⟩ := bind_eq_some_iff.mp h
    obtain ⟨hi',hhi',rfl⟩ := map_eq_some_iff.mp h
    obtain ⟨hrlo,hslo⟩ := valItem_rel ht hself (hsign lo (by simp)) hlo.2 hlo'
    obtain ⟨hrhi,hshi⟩ := valItem_rel ht hself (hsign hi (by simp)) hhi.2 hhi'
    refine ⟨rfl,rfl,fun ρ => ?_,trivial,hv,hslo,hshi⟩
    rw [truth_inRange,truth_inRange,hrlo,hrhi]
  · exact (cmpRange_decides ht hlo hhi h).congr fun ρ => (truth_inRange v lo hi).symm

theorem inSet_decides (ht : Typed Γ typeOf) {n' : Expr} {n : ℕ} {elems : Fin n → Expr}
    (hv : Sized Q Γ v) (he : ∀ i, PairAt Q Γ val v (elems i))
    (h : inE typeOf val (.inSet v n elems) = some n') :
    Decides Q Γ (fun ρ => truth Γ ρ (.inSet v n elems)) n' := by
  rw [inE] at h
  by_cases hn : n = 0
  · subst hn
    obtain rfl := Option.some.inj h
    exact ⟨rfl,rfl,fun _ => rfl,trivial,hv,fun i => i.elim0⟩
  rw [if_neg hn] at h
  obtain ⟨keep,hkeep,h⟩ := bind_eq_some_iff.mp h
  split_ifs at h with hk
  · rw [hk] at hkeep
    obtain ⟨hself,hsign⟩ := inKeepable_spec ht hkeep
    obtain ⟨nw,hnw,rfl⟩ := map_eq_some_iff.mp h
    have hrel := fun i => valItem_rel ht hself (hsign (elems i) (List.mem_ofFn.mpr ⟨i,rfl⟩)) (he i).2
      (collect_eq hnw i)
    refine ⟨rfl,rfl,fun ρ => ?_,trivial,hv,fun i => (hrel i).2⟩
    simp only [truth_inSet,(hrel _).1]
  · obtain ⟨eqs,heqs,h⟩ := bind_eq_some_iff.mp h
    rw [List.ofFn_eq_map] at h
    have hdec := fun i => cmp_decides ht (show BinOp.isCmp .eq = true from rfl) (he i).1 (he i).2 (collect_eq heqs i)
    exact (orChain_decides hdec h).congr fun ρ => (truth_inSet v elems).symm

theorem inRanges_decides (ht : Typed Γ typeOf) {n' : Expr} {n : ℕ} {los his : Fin n → Expr}
    (hv : Sized Q Γ v) (hlo : ∀ i, PairAt Q Γ val v (los i)) (hhi : ∀ i, PairAt Q Γ val v (his i))
    (h : inE typeOf val (.inRanges v n los his) = some n') :
    Decides Q Γ (fun ρ => truth Γ ρ (.inRanges v n los his)) n' := by
  rw [inE] at h
  by_cases hn : n = 0
  · subst hn
    obtain rfl := Option.some.inj h
    exact ⟨rfl,rfl,fun _ => rfl,trivial,hv,fun i => i.elim0,fun i => i.elim0⟩
  rw [if_neg hn] at h
  obtain ⟨keep,hkeep,h⟩ := bind_eq_some_iff.mp h
  split_ifs at h with hk
  · rw [hk] at hkeep
    obtain ⟨hself,hsign⟩ := inKeepable_spec ht hkeep
    obtain ⟨nlo,hnlo,h⟩ := bind_eq_some_iff.mp h
    obtain ⟨nhi,hnhi,rfl⟩ := map_eq_some_iff.mp h
    have hrlo := fun i => valItem_rel ht hself (hsign (los i) (by simp)) (hlo i).2 (collect_eq hnlo i)
    have hrhi := fun i => valItem_rel ht hself (hsign (his i) (by simp)) (hhi i).2 (collect_eq hnhi i)
    refine ⟨rfl,rfl,fun ρ => ?_,trivial,hv,fun i => (hrlo i).2,fun i => (hrhi i).2⟩
    simp only [truth_inRanges,(hrlo _).1,(hrhi _).1]
  · obtain ⟨ins,hins,h⟩ := bind_eq_some_iff.mp h
    rw [List.ofFn_eq_map] at h
    have hdec := fun i => cmpRange_decides ht (hlo i) (hhi i) (collect_eq hins i)
    exact (orChain_decides hdec h).congr fun ρ => (truth_inRanges v los his).symm

end Sv
end DvSolve
