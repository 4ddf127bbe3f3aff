import DvSolve.SvCompare

/-! Elaboration keeps the meaning of the expressions that meet its conditions. -/
namespace DvSolve
namespace Sv

open TwosComp Validate
open Bool (and_eq_true false_eq_true)
open List (Forall₂)
open Option (bind_eq_some_iff getD_none getD_some map_eq_some_iff)

variable {Q : ℕ → ℕ → Prop} {Γ : ℕ → Ty} {ρ : Env} {typeOf : Expr → Option Ty}
variable {e e' l r r' : Expr}
variable {c l' t : Expr} {fromBits loWidth : ℕ}

structure Slices (P Q : ℕ → ℕ → Prop) : Prop where
  keep : ∀ hi w w', P hi w → w' ≤ w → Q hi w'
  cut : ∀ hi w, hi < w → Q hi w

theorem Slices.imp {P : ℕ → ℕ → Prop} (h : Slices P Q) (hi w : ℕ) (hp : P hi w) : Q hi w :=
  h.keep hi w w hp (le_refl _)

theorem sized_imp {P : ℕ → ℕ → Prop} (himp : ∀ hi w, P hi w → Q hi w) (h : Sized P Γ e) :
    Sized Q Γ e := by
  induction e with
  | const | constWide | var | other => exact h
  | binary op l r ihl ihr => exact ⟨ihl h.1,ihr h.2⟩
  | unary op x ih => exact ih h
  | ite c t e ihc iht ihe => exact ⟨ihc h.1,iht h.2.1,ihe h.2.2⟩
  | inRange v lo hi ihv ihlo ihhi => exact ⟨ihv h.1,ihlo h.2.1,ihhi h.2.2⟩
  | inSet v n es ihv ihe => exact ⟨ihv h.1,fun i => ihe i (h.2 i)⟩
  | inRanges v n los his ihv ihl ihh => exact ⟨ihv h.1,fun i => ihl i (h.2.1 i),fun i => ihh i (h.2.2 i)⟩
  | extend x _ _ _ ih | svCast x _ _ _ _ ih | cast x _ _ ih => exact ⟨ih h.1,h.2⟩
  | extract x _ _ ih => exact ⟨ih h.1,h.2.1,himp _ _ h.2.2⟩
  | concat hi lo _ ihh ihl => exact ⟨ihh h.1,ihl h.2.1,h.2.2⟩

/-- What a node comes out as in a context of its own signedness. -/
def Shape (Γ : ℕ → Ty) (e : Expr) (W : ℕ) (S : Bool) (e' : Expr) : Prop :=
  S = (ty Γ e).s → match leaf Γ e W with
    | none => (ty Γ e').w = W
    | some w => selfDetermined e' = true ∧ (S = true → (ty Γ e').w = w)

/-- The comparisons, the connectives and the memberships. -/
def isBool : Expr → Bool
  | .binary op _ _ => !op.isArith && !op.isShift
  | .unary op _ => op = .not
  | .inRange .. | .inSet .. | .inRanges .. => true
  | _ => false

theorem ty_of_isBool (h : isBool e = true) : ty Γ e = boolTy := by
  cases e with
  | binary op l r =>
    simp only [isBool,and_eq_true,Bool.not_eq_true'] at h
    exact ty_bool h.1 h.2 l r
  | unary op x =>
    obtain rfl : op = .not := by simpa [isBool] using h
    rfl
  | inRange | inSet | inRanges => rfl
  | _ => simp [isBool] at h

theorem eval_of_isBool (h : isBool e = true) (W : ℕ) (S : Bool) :
    eval Γ ρ e W S = ofBool (truth Γ ρ e) := by
  have hbit : ∀ b : Bool, ofBool b = ofBool (decide (ofBool b ≠ 0)) := by decide
  rw [truth]
  cases e with
  | binary op l r =>
    simp only [isBool,and_eq_true,Bool.not_eq_true'] at h
    simp only [Sv.eval,h.1,h.2,false_eq_true,if_false]
    split_ifs <;> exact hbit _
  | unary op x =>
    obtain rfl : op = .not := by simpa [isBool] using h
    rw [eval_not,eval_not]
    exact hbit _
  | inRange | inSet | inRanges =>
    simp only [Sv.eval]
    exact hbit _
  | _ => simp [isBool] at h

theorem meets_of_isBool (h : isBool e = true) (g g' : Option Ty) : meets Γ e g = meets Γ e g' := by
  cases e with
  | binary op l r =>
    simp only [isBool,and_eq_true,Bool.not_eq_true'] at h
    simp [Sv.meets,h.1,h.2]
  | unary op x =>
    obtain rfl : op = .not := by simpa [isBool] using h
    rfl
  | inRange | inSet | inRanges => rfl
  | _ => simp [isBool] at h

theorem Decides.value {b : Env → Bool} {x : Expr} (h : Decides Q Γ b x) (ρ : Env) :
    eval Γ ρ x (ty Γ x).w (ty Γ x).s = ofBool (b ρ) := by
  have hin := eval_inTy_own (Γ := Γ) (ρ := ρ) x
  have htruth : eval Γ ρ x (ty Γ x).w (ty Γ x).s ≠ 0 ↔ b ρ = true := by
    rw [← h.truth ρ,Sv.truth,decide_eq_true_eq]
  rw [h.type] at hin htruth ⊢
  simp only [boolTy,InTy,false_eq_true,if_false] at hin htruth ⊢
  cases hb : b ρ with
  | true =>
    have := htruth.mpr hb
    simp only [ofBool,if_true]
    omega
  | false =>
    have : ¬eval Γ ρ x 1 false ≠ 0 := by rw [htruth,hb]; simp
    simpa [ofBool] using this

theorem Decides.conv (ht : Typed Γ typeOf) {x x' : Expr} (he : isBool e = true)
    (h : Decides Q Γ (fun ρ => Sv.truth Γ ρ e) x) {W : ℕ} {S : Bool} (hW : 0 < W)
    (hS : S = true → (ty Γ e).s = true) (hx : conv typeOf x W S = some x') :
    Spells Q Γ e W S x' ∧ selfDetermined x' = true := by
  obtain rfl : S = false := by
    cases S with
    | false => rfl
    | true => exact absurd (hS rfl) (by rw [ty_of_isBool he]; simp [boolTy])
  apply conv_spells ht h.self h.plain h.sized hW (fun ρ => ?_) hx
  rw [eval_of_isBool he,h.value ρ]
  exact (wrap_of_inTy (inTy_bit hW)).symm

theorem Spells.own {W : ℕ} {S : Bool} (h : Spells Q Γ e W S e') (ρ : Env) :
    eval Γ ρ e' (ty Γ e').w (ty Γ e').s = eval Γ ρ e W S := by
  rw [h.sign]
  exact h.value ρ _ (le_refl _) h.width

theorem Spells.arith {op : BinOp} (hop : op.isArith = true) {W : ℕ} {S : Bool}
    (hl : Spells Q Γ l W S l') (hr : Spells Q Γ r W S r') (hw : max (ty Γ l').w (ty Γ r').w = W) :
    Spells Q Γ (.binary op l r) W S (.binary op l' r') := by
  have hty : ty Γ (.binary op l' r') = ⟨W,S⟩ := by
    rw [ty_arith hop,Ty.join,hl.sign,hr.sign,Bool.and_self,hw]
  refine ⟨by rw [hty],by rw [hty],?_,fun ρ W' h1 h2 => ?_,trivial,hl.sized,hr.sized⟩
  · rw [atWidth,if_pos hop]
    exact ⟨hw,hl.exact,hr.exact⟩
  · rw [hty] at h1
    obtain rfl : W' = W := le_antisymm h2 h1
    rw [eval_arith hop,eval_arith hop,hl.value ρ _ hl.width (le_refl _),hr.value ρ _ hr.width (le_refl _)]

theorem Spells.amount (hr : Spells Q Γ r (ty Γ r).w false r')
    (hsign : (!(ty Γ r).s || signFree r) = true) (ρ : Env) :
    pat (eval Γ ρ r' (ty Γ r').w (ty Γ r').s) (ty Γ r').w =
      pat (eval Γ ρ r (ty Γ r).w (ty Γ r).s) (ty Γ r).w := by
  have hin : InTy (eval Γ ρ r' (ty Γ r').w false) (ty Γ r').w false :=
    eval_inTy (ty_w_pos Γ r') (by simp)
  have hpat : pat (eval Γ ρ r (ty Γ r).w (ty Γ r).s) (ty Γ r).w = pat (eval Γ ρ r (ty Γ r).w false) (ty Γ r).w := by
    cases hs : (ty Γ r).s with
    | false => rfl
    | true =>
      rw [hs] at hsign
      exact pat_congr (signFree.emod hsign _ _ _)
  have hown := hr.own ρ
  rw [hr.sign] at hown ⊢
  rw [hpat,← hown]
  have h1 := pat_of_inTy hin (le_refl _)
  have h2 := pat_of_inTy hin hr.width
  omega

theorem Spells.shift {op op' : BinOp} (hop : op.isShift = true) (hop' : op'.isShift = true)
    {W : ℕ} {S : Bool} (hl : Spells Q Γ l W S l') (hw : (ty Γ l').w = W)
    (hr : Spells Q Γ r (ty Γ r).w false r') (hsign : (!(ty Γ r).s || signFree r) = true)
    (hsame : ∀ a n, Sv.shift op' ⟨W,S⟩ a n = Sv.shift op ⟨W,S⟩ a n) :
    Spells Q Γ (.binary op l r) W S (.binary op' l' r') := by
  have hty : ty Γ (.binary op' l' r') = ⟨W,S⟩ := by
    rw [ty_shift hop',← hw,← hl.sign]
  have ha : op'.isArith = false := by cases op' <;> simp_all [BinOp.isArith,BinOp.isShift]
  refine ⟨by rw [hty],by rw [hty],?_,fun ρ W' h1 h2 => ?_,trivial,hl.sized,hr.sized⟩
  · rw [atWidth,if_neg (by simp [ha]),if_pos hop']
    exact ⟨hw,hl.exact⟩
  · rw [hty] at h1
    obtain rfl : W' = W := le_antisymm h2 h1
    rw [eval_shift hop,eval_shift hop',hl.value ρ _ hl.width (le_refl _),hr.amount hsign,hsame]

theorem Spells.rshift {W : ℕ} (hW : 0 < W) (hl : Spells Q Γ l W true l')
    (hr : Spells Q Γ r (ty Γ r).w false r') (hsign : (!(ty Γ r).s || signFree r) = true) :
    Spells Q Γ (.binary .rshift l r) W true
      (.svCast (.binary .rshift (.svCast l' (ty Γ l').w W true false) r') W W false true) := by
  have hlu : ty Γ (.svCast l' (ty Γ l').w W true false) = ⟨W,false⟩ := Ty.fix_eq hW
  have hsh : ty Γ (.binary .rshift (.svCast l' (ty Γ l').w W true false) r') = ⟨W,false⟩ := by
    rw [ty_shift rfl,hlu]
  have hty : ty Γ (.svCast (.binary .rshift (.svCast l' (ty Γ l').w W true false) r') W W false true) =
      ⟨W,true⟩ := Ty.fix_eq hW
  refine ⟨by rw [hty],by rw [hty],trivial,fun ρ W' h1 h2 => ?_,trivial,
    ⟨⟨⟨hl.sized,ty_w_pos Γ l',hW⟩,hr.sized⟩,hW,hW⟩⟩
  rw [hty] at h1
  obtain rfl : W' = W := le_antisymm h2 h1
  have hcast := eval_svCast_own (Γ := Γ) (ρ := ρ) l' hW false W' false
  rw [hl.sign] at hcast
  have hshift := @eval_shift Γ ρ .rshift rfl
    (.svCast l' (ty Γ l').w W' true false) r' W' false
  have hown := hl.own ρ
  rw [hl.sign] at hown
  rw [hcast,hown,hr.amount hsign] at hshift
  have hback := eval_svCast_own (Γ := Γ) (ρ := ρ)
    (.binary .rshift (.svCast l' (ty Γ l').w W' true false) r') hW true W' true
  rw [hsh] at hback
  rw [hback,hshift,eval_shift rfl]
  simp only [Sv.shift,pat_wrap]
  rw [wrap_wrap (le_refl _),wrap_wrap (le_refl _)]

theorem Spells.neg {x x' z : Expr} {W : ℕ} {S : Bool} (hW : 0 < W) (hx : Spells Q Γ x W S x')
    (hz : mkConst 0 S W = some z) : Spells Q Γ (.unary .neg x) W S (.binary .sub z x') := by
  obtain rfl := mkConst_eq hz
  have hzt := ty_const_sized (Γ := Γ) (v := 0) hW S
  have hw : max (ty Γ (.const 0 W S)).w (ty Γ x').w = W := by
    rw [hzt]
    exact max_eq_left hx.width
  have hty : ty Γ (.binary .sub (.const 0 W S) x') = ⟨W,S⟩ := by
    rw [ty_arith rfl,Ty.join,hw,hx.sign,hzt,Bool.and_self]
  refine ⟨by rw [hty],by rw [hty],⟨hw,trivial,hx.exact⟩,fun ρ W' h1 h2 => ?_,trivial,
    ⟨by decide,by decide⟩,hx.sized⟩
  rw [hty] at h1
  obtain rfl : W' = W := le_antisymm h2 h1
  have hzero : ∀ w s, wrap 0 w s = 0 := fun w s => wrap_of_inTy (inTy_zero w s)
  have hz0 : eval Γ ρ (.const 0 W' S) W' S = 0 := by simp [eval,constValue,hzero]
  rw [eval_arith rfl,hz0,hx.value ρ _ hx.width (le_refl _),eval,Sv.arith,zero_sub]

theorem Spells.invert {x x' : Expr} {W : ℕ} {S : Bool} (hx : Spells Q Γ x W S x') (hw : (ty Γ x').w = W) :
    Spells Q Γ (.unary .invert x) W S (.unary .invert x') := by
  have hty : ty Γ (.unary .invert x') = ⟨W,S⟩ := by
    rw [← hw,← hx.sign]
    rfl
  refine ⟨by rw [hty],by rw [hty],fun _ => ⟨hw,hx.exact⟩,fun ρ W' h1 h2 => ?_,trivial,hx.sized⟩
  rw [hty] at h1
  obtain rfl : W' = W := le_antisymm h2 h1
  simp only [eval]
  rw [hx.value ρ _ hx.width (le_refl _)]

theorem Holds.own (h : Holds Q Γ e e') (ρ : Env) :
    Sv.truth Γ ρ e' = Sv.truth Γ ρ e := by
  rw [Bool.eq_iff_iff,← h.truth ρ _ (ty Γ e').s (le_refl _),Sv.truth,decide_eq_true_eq]

theorem Spells.ite {c' t' : Expr} {W : ℕ} {S : Bool} (hc : Holds Q Γ c c')
    (ht : Spells Q Γ t W S t') (he : Spells Q Γ e W S e') (hw : max (ty Γ t').w (ty Γ e').w = W) :
    Spells Q Γ (.ite c t e) W S (.ite c' t' e') := by
  have hty : ty Γ (.ite c' t' e') = ⟨W,S⟩ := by
    rw [ty,Ty.join,hw,ht.sign,he.sign,Bool.and_self]
  refine ⟨by rw [hty],by rw [hty],⟨hw,ht.exact,he.exact⟩,fun ρ W' h1 h2 => ?_,trivial,hc.sized,ht.sized,
    he.sized⟩
  rw [hty] at h1
  obtain rfl : W' = W := le_antisymm h2 h1
  rw [eval_ite,eval_ite,hc.own,ht.value ρ _ ht.width (le_refl _),he.value ρ _ he.width (le_refl _)]

section Leaves

variable {x o : Expr} (hx : Spells Q Γ x (ty Γ x).w (ty Γ x).s o)

include hx

theorem Spells.extend_own (fromBits toBits : ℕ) (signExtend : Bool) (W : ℕ) (S : Bool) (ρ : Env) :
    eval Γ ρ (.extend x fromBits toBits signExtend) W S =
      let n := Expr.extend o fromBits toBits signExtend
      wrap (eval Γ ρ n (ty Γ n).w (ty Γ n).s) W S := by
  simp only [eval,ty,Ty.fix_s]
  rw [hx.own ρ,hx.sign,wrap_wrap (s := (ty Γ x).s) (le_refl _)]

theorem Spells.svCast_own (fromBits toBits : ℕ) (signExtend dstSigned : Bool) (W : ℕ) (S : Bool) (ρ : Env) :
    eval Γ ρ (.svCast x fromBits toBits signExtend dstSigned) W S =
      let n := Expr.svCast o fromBits toBits signExtend dstSigned
      wrap (eval Γ ρ n (ty Γ n).w (ty Γ n).s) W S := by
  simp only [eval,ty,Ty.fix_s]
  rw [hx.own ρ,wrap_wrap (s := dstSigned) (le_refl _)]

theorem Spells.extract_own (hiBit loBit W : ℕ) (S : Bool) (ρ : Env) :
    eval Γ ρ (.extract x hiBit loBit) W S = let n := Expr.extract o hiBit loBit
      wrap (eval Γ ρ n (ty Γ n).w (ty Γ n).s) W S := by
  simp only [eval,ty,Ty.fix_s]
  rw [hx.own ρ,wrap_wrap (s := false) (le_refl _)]

/-- The upper part of a concatenation keeps its pattern unless it is spelled in fewer bits as a
signed number; the lower part is cut to its width. -/
theorem Spells.concat_own {y p : Expr} (hy : Spells Q Γ y (ty Γ y).w (ty Γ y).s p)
    (hfull : (ty Γ x).s = true → (ty Γ o).w = (ty Γ x).w) (W : ℕ) (S : Bool)
    (ρ : Env) :
    eval Γ ρ (.concat x y loWidth) W S = let n := Expr.concat o p loWidth
      wrap (eval Γ ρ n (ty Γ n).w (ty Γ n).s) W S := by
  have hpat : pat (eval Γ ρ o (ty Γ o).w (ty Γ o).s) (ty Γ o).w =
      pat (eval Γ ρ x (ty Γ x).w (ty Γ x).s) (ty Γ x).w := by
    rw [hx.own ρ]
    cases hs : (ty Γ x).s with
    | true => rw [hfull hs]
    | false =>
      have hin := eval_inTy_own (Γ := Γ) (ρ := ρ) o
      rw [hx.own ρ,hx.sign,hs] at hin
      have h1 := pat_of_inTy hin (le_refl _)
      have h2 := pat_of_inTy hin hx.width
      omega
  have hlt : ∀ a b : ℕ, a < 2^(ty Γ o).w → b < 2^loWidth →
      InTy ((a*2^loWidth+b : ℕ) : ℤ) ((ty Γ o).w+loWidth) false := by
    intro a b ha hb
    have hnat : a*2^loWidth+b < 2^((ty Γ o).w+loWidth) := by
      rw [pow_add]
      calc a*2^loWidth+b < a*2^loWidth+2^loWidth := by omega
        _ = (a+1)*2^loWidth := by ring
        _ ≤ 2^(ty Γ o).w*2^loWidth := Nat.mul_le_mul_right _ ha
    unfold InTy
    simp only [false_eq_true,if_false]
    exact ⟨Int.natCast_nonneg _,by exact_mod_cast hnat⟩
  have hin := hlt _ _ (pat_lt (eval Γ ρ o (ty Γ o).w (ty Γ o).s) (ty Γ o).w)
    (pat_lt (eval Γ ρ p (ty Γ p).w (ty Γ p).s) loWidth)
  have hxw := hx.width
  have hpos := ty_w_pos Γ o
  simp only [eval,ty,Ty.fix_s]
  rw [← hpat,← hy.own ρ,Ty.fix_w (t := ⟨(ty Γ x).w+loWidth,false⟩) (by simp only; omega),
    Ty.fix_w (t := ⟨(ty Γ o).w+loWidth,false⟩) (by simp only; omega)]
  simp only
  rw [wrap_wider hin (by omega),wrap_of_inTy hin,wrap_of_inTy hin]

end Leaves

/-- A node of its own width stays a leaf of that width where its signedness is asked for. -/
theorem conv_shape (ht : Typed Γ typeOf) {n x' : Expr} {W : ℕ} {S : Bool}
    (hself : selfDetermined n = true) (hty : ty Γ n = ty Γ e) (hw : (ty Γ e).w ≤ W)
    (hleaf : leaf Γ e W = some (ty Γ e).w) (h : conv typeOf n W S = some x') :
    Shape Γ e W S x' := by
  intro hS
  rw [hleaf]
  rcases conv_cases ht h with ⟨rfl,_⟩ | ⟨_,hno⟩
  · exact ⟨hself,fun _ => by rw [hty]⟩
  · rw [hty] at hno
    exact absurd ⟨hS.symm,hw⟩ hno

theorem eval_cast (x : Expr) {toBits : ℕ} (hto : 0 < toBits) (toSigned : Bool) (W : ℕ) (S : Bool) :
    eval Γ ρ (.cast x toBits toSigned) W S =
      wrap (wrap (eval Γ ρ x (max (ty Γ x).w toBits) (ty Γ x).s) toBits toSigned) W S := by
  simp only [eval,Ty.fix_s]
  rw [Ty.fix_w (t := ⟨toBits,toSigned⟩) hto]

section Cast

variable (ht : Typed Γ typeOf) {x o n x' : Expr} {toBits W : ℕ} {toSigned S : Bool} (hto : 0 < toBits)
  (hx : Spells Q Γ x (max (ty Γ x).w toBits) (ty Γ x).s o)
  (hshape : Shape Γ x (max (ty Γ x).w toBits) (ty Γ x).s o)
  (hw : toBits ≤ W)

include ht hto hx hw

theorem cast_leaf (hself : selfDetermined n = true) (hplain : Plain n) (hsized : Sized Q Γ n)
    (htn : ty Γ n = ⟨toBits,toSigned⟩)
    (hv : ∀ ρ, eval Γ ρ n toBits toSigned = wrap (eval Γ ρ o (ty Γ o).w (ty Γ o).s) toBits toSigned)
    (hleaf : S = toSigned → ∃ w, leaf Γ (.cast x toBits toSigned) W = some w ∧ (S = true → w = toBits))
    (h : conv typeOf n W S = some x') :
    Spells Q Γ (.cast x toBits toSigned) W S x' ∧ Shape Γ (.cast x toBits toSigned) W S x' := by
  have hspells := conv_spells (e := .cast x toBits toSigned) ht hself hplain hsized (by omega)
    (fun ρ => by rw [eval_cast x hto,htn,hv ρ,hx.own ρ]) h
  refine ⟨hspells.1,fun hS => ?_⟩
  have hS' : S = toSigned := hS.trans (Ty.fix_s _)
  obtain ⟨w,hlw,hww⟩ := hleaf hS'
  rw [hlw]
  refine ⟨hspells.2,fun hS1 => ?_⟩
  rcases conv_cases ht h with ⟨rfl,_⟩ | ⟨_,hno⟩
  · rw [htn,hww hS1]
  · rw [htn] at hno
    exact absurd ⟨hS'.symm,hw⟩ hno

include hshape

theorem cast_same (hle : (ty Γ o).w ≤ toBits) (hs : (ty Γ o).s = toSigned)
    (hctx : leaf Γ (.cast x toBits toSigned) toBits = none → S ≠ toSigned ∨ W ≤ toBits)
    (h : conv typeOf o W S = some x') :
    Spells Q Γ (.cast x toBits toSigned) W S x' ∧ Shape Γ (.cast x toBits toSigned) W S x' := by
  have hsx : (ty Γ x).s = toSigned := hx.sign.symm.trans hs
  have hshape := hshape rfl
  have hin : ∀ ρ, InTy (eval Γ ρ o (ty Γ o).w (ty Γ o).s) toBits toSigned := by
    intro ρ
    rw [← hs]
    exact (eval_inTy_own o).mono hle
  have hv : ∀ ρ, eval Γ ρ (.cast x toBits toSigned) W S =
      wrap (eval Γ ρ o (ty Γ o).w (ty Γ o).s) W S := by
    intro ρ
    rw [eval_cast x hto,← hx.own ρ,wrap_of_inTy (hin ρ)]
  rcases conv_cases ht h with ⟨rfl,hS,hwW⟩ | ⟨rfl,hno⟩
  · have hSts : S = toSigned := hS.symm.trans hs
    have hown : ∀ ρ, wrap (eval Γ ρ x' (ty Γ x').w (ty Γ x').s) W S =
        eval Γ ρ x' (ty Γ x').w (ty Γ x').s := by
      intro ρ
      rw [hSts]
      exact wrap_wider (hin ρ) hw
    cases hlx : leaf Γ x (max (ty Γ x).w toBits) with
    | none =>
      -- an operator stands in a context no wider than the cast
      rw [hlx] at hshape
      simp only at hshape
      have hxw : (ty Γ x).w ≤ toBits := by omega
      have hlc : ∀ w, leaf Γ (.cast x toBits toSigned) w = none := by
        intro w
        rw [max_eq_right hxw] at hlx
        simp [leaf,hsx,hlx,hxw]
      have hWt : W ≤ toBits := (hctx (hlc _)).resolve_left fun hne => hne hSts
      have hWe : W = max (ty Γ x).w toBits := by omega
      refine ⟨⟨hS,hwW,?_,fun ρ W' h1 h2 => ?_,hx.plain,hx.sized⟩,fun _ => ?_⟩
      · rw [hWe]
        exact hx.exact
      · rw [hv ρ,hown ρ,← hS,hx.sign,hx.value ρ W' h1 (by omega)]
        have := hx.own ρ
        rw [hx.sign] at this
        exact this.symm
      · rw [hlc]
        simp only
        omega
    | some w =>
      rw [hlx] at hshape
      obtain ⟨hself,hwidth⟩ := hshape
      refine ⟨⟨hS,hwW,selfDetermined.atWidth hself W,fun ρ W' h1 h2 => ?_,hx.plain,hx.sized⟩,fun _ => ?_⟩
      · rw [hv ρ,hown ρ]
        exact eval_selfDetermined hself h1 hS.symm
      · have hlc : leaf Γ (.cast x toBits toSigned) W = some (min w toBits) := by
          simp [leaf,hsx,hlx]
        rw [hlc]
        refine ⟨hself,fun hS1 => ?_⟩
        have := hwidth (by rw [hsx,← hSts,hS1])
        omega
  · refine ⟨svCast_spells hx.sized (by omega) hv,fun hS => ?_⟩
    have hS' : S = toSigned := hS.trans (Ty.fix_s _)
    exact absurd ⟨hs.trans hS'.symm,hle.trans hw⟩ hno

end Cast

theorem val_leaf {W : ℕ} {S : Bool} (hself : selfDetermined e = true) (hplain : Plain e)
    (hsized : Sized Q Γ e) (hw : (ty Γ e).w ≤ W) (hleaf : leaf Γ e W = some (ty Γ e).w)
    (hv : ∀ ρ, eval Γ ρ e W S = wrap (eval Γ ρ e (ty Γ e).w (ty Γ e).s) W S) (ht : Typed Γ typeOf)
    (h : conv typeOf e W S = some e') : Spells Q Γ e W S e' ∧ Shape Γ e W S e' :=
  ⟨(conv_spells ht hself hplain hsized ((ty_w_pos _ _).trans_le hw) hv h).1,
    conv_shape ht hself rfl hw hleaf h⟩

theorem holds_self (hself : selfDetermined e = true) (hsized : Sized Q Γ e) :
    Holds Q Γ e e :=
  ⟨fun _ _ S hW => eval_ne_zero_iff hself S hW,hsized⟩

section Pass

variable {P : ℕ → ℕ → Prop} {vars : ℕ → Option Ty} {fuel : ℕ}

def ValOk (P Q : ℕ → ℕ → Prop) (vars : ℕ → Option Ty) (fuel : ℕ) : Prop :=
  ∀ e W S e', Sized P (declared vars) e → meets (declared vars) e (some ⟨W,S⟩) = true →
    (ty (declared vars) e).w ≤ W → (S = true → (ty (declared vars) e).s = true) →
    val vars fuel e W S = some e' →
    Spells Q (declared vars) e W S e' ∧ Shape (declared vars) e W S e'

def BoolOk (P Q : ℕ → ℕ → Prop) (vars : ℕ → Option Ty) (fuel : ℕ) : Prop :=
  ∀ e e', Sized P (declared vars) e → meets (declared vars) e none = true → bool vars fuel e = some e' →
    Holds Q (declared vars) e e' ∧
      (isBool e = true → Decides Q (declared vars) (fun ρ => truth (declared vars) ρ e) e')

theorem ValOk.at (ih : ValOk P Q vars fuel) (hsized : Sized P (declared vars) e) {t : Ty}
    (hm : meets (declared vars) e (some t) = true) (hw : (ty (declared vars) e).w ≤ t.w)
    (hS : t.s = true → (ty (declared vars) e).s = true) :
    ValAt Q (declared vars) (val vars fuel) e t :=
  fun e' h => (ih e t.w t.s e' hsized hm hw hS h).1

theorem ValOk.pair (ih : ValOk P Q vars fuel) {a b : Expr} (ha : Sized P (declared vars) a)
    (hb : Sized P (declared vars) b)
    (hma : meets (declared vars) a (some ((ty (declared vars) a).join (ty (declared vars) b))) = true)
    (hmb : meets (declared vars) b (some ((ty (declared vars) a).join (ty (declared vars) b))) = true) :
    PairAt Q (declared vars) (val vars fuel) a b :=
  ⟨ih.at ha hma (le_max_left _ _) fun h => (Bool.and_eq_true_iff.mp h).1,
    ih.at hb hmb (le_max_right _ _) fun h => (Bool.and_eq_true_iff.mp h).2⟩

theorem ValOk.nonzero (ih : ValOk P Q vars fuel) {n : Expr} (he : Sized P (declared vars) e)
    (hm : meets (declared vars) e (some (ty (declared vars) e)) = true)
    (h : nonzero (type vars fuel) (val vars fuel) e = some n) :
    Decides Q (declared vars) (fun ρ => truth (declared vars) ρ e) n := by
  apply nonzero_decides (typed_type vars fuel) (ih.at he hm (le_refl _) id) _ h
  intro t ht
  have hty := ty_const_sized (Γ := declared vars) (v := 0) ht t.s
  exact ih.at (by exact ⟨by decide,by decide⟩) rfl (by rw [hty]) (by rw [hty]; exact id)

variable (ihv : ValOk P Q vars fuel) (ihb : BoolOk P Q vars fuel)

include ihv ihb

omit ihv in
theorem val_bool {x : Expr} {W : ℕ} {S : Bool} (hb : isBool e = true)
    (hsized : Sized P (declared vars) e) (hm : meets (declared vars) e (some ⟨W,S⟩) = true)
    (hw : (ty (declared vars) e).w ≤ W) (hS : S = true → (ty (declared vars) e).s = true)
    (hleaf : leaf (declared vars) e W = some 1) (hx : bool vars fuel e = some x)
    (h : conv (type vars fuel) x W S = some e') :
    Spells Q (declared vars) e W S e' ∧ Shape (declared vars) e W S e' := by
  have hpos : 0 < W := (ty_w_pos _ _).trans_le hw
  rw [meets_of_isBool hb _ none] at hm
  obtain ⟨hspells,hself⟩ := ((ihb _ x hsized hm hx).2 hb).conv (typed_type vars fuel) hb hpos hS h
  refine ⟨hspells,fun hS' => ?_⟩
  rw [hleaf]
  rw [ty_of_isBool hb] at hS'
  exact ⟨hself,fun h1 => by rw [h1] at hS'; simp [boolTy] at hS'⟩

theorem val_binary {op : BinOp} {W : ℕ} {S : Bool}
    (hsized : Sized P (declared vars) (.binary op l r))
    (hm : meets (declared vars) (.binary op l r) (some ⟨W,S⟩) = true)
    (hw : (ty (declared vars) (.binary op l r)).w ≤ W)
    (hS : S = true → (ty (declared vars) (.binary op l r)).s = true)
    (h : val vars (fuel+1) (.binary op l r) W S = some e') :
    Spells Q (declared vars) (.binary op l r) W S e' ∧ Shape (declared vars) (.binary op l r) W S e' := by
  have ht := typed_type vars fuel
  have hpos : 0 < W := (ty_w_pos _ _).trans_le hw
  by_cases ha : op.isArith = true
  · rw [ty_arith ha] at hw hS
    simp only [Ty.join_w,max_le_iff] at hw
    simp only [Ty.join_s,and_eq_true] at hS
    simp only [meets,ha,if_true,getD_some,and_eq_true] at hm
    simp only [val,ha,if_true] at h
    obtain ⟨l',hl,h⟩ := bind_eq_some_iff.mp h
    obtain ⟨r',hr,h⟩ := bind_eq_some_iff.mp h
    obtain ⟨l'',hpair,rfl⟩ := map_eq_some_iff.mp h
    have hsl := (ihv l W S l' hsized.1 hm.1 hw.1 (fun h => (hS h).1) hl).1
    have hsr := (ihv r W S r' hsized.2 hm.2 hw.2 (fun h => (hS h).2) hr).1
    obtain ⟨hsl,hmax⟩ := hsl.widenPair ht hpos hsr hpair
    refine ⟨hsl.arith ha hsr hmax,fun _ => ?_⟩
    simp only [leaf,ha,if_true]
    rw [ty_arith ha]
    exact hmax
  · by_cases hs : op.isShift = true
    · rw [ty_shift hs] at hw hS
      simp only [meets,ha,hs,false_eq_true,if_false,if_true,getD_some,and_eq_true] at hm
      obtain ⟨⟨hml,hmr⟩,hsign⟩ := hm
      simp only [val,ha,hs,false_eq_true,if_false,if_true] at h
      rw [bind_eq_some_iff] at h
      obtain ⟨rt,hrt,h⟩ := h
      obtain rfl := ht r rt hrt
      rw [bind_eq_some_iff] at h
      obtain ⟨r',hr,h⟩ := h
      have hsr := (ihv r _ false r' hsized.2 hmr (le_refl _) (by simp) hr).1
      -- the shapes of a shift that stays one
      have hop : ∀ {op' : BinOp}, op'.isShift = true →
          (∀ a n, shift op' ⟨W,S⟩ a n = shift op ⟨W,S⟩ a n) → (S = true → op ≠ .rshift) →
          (((val vars fuel l W S).bind fun l' => (widen (type vars fuel) l' W).map fun l' =>
            Expr.binary op' l' r') = some e') →
          Spells Q (declared vars) (.binary op l r) W S e' ∧ Shape (declared vars) (.binary op l r) W S e' := by
        intro op' hs' hsame hne h
        obtain ⟨l',hl,h⟩ := bind_eq_some_iff.mp h
        obtain ⟨l'',hwide,rfl⟩ := map_eq_some_iff.mp h
        obtain ⟨hsl,hlw⟩ := (ihv l W S l' hsized.1 hml hw hS hl).1.widen ht hpos hwide
        refine ⟨hsl.shift hs hs' hlw hsr hsign hsame,fun hS' => ?_⟩
        rw [ty_shift hs] at hS'
        have hleaf : leaf (declared vars) (.binary op l r) W = none := by
          simp only [leaf,ha,hs,false_eq_true,if_false,if_true,and_eq_true,decide_eq_true_eq]
          rw [if_neg]
          rintro ⟨hr,hls⟩
          exact hne (hS'.trans hls) hr
        rw [hleaf]
        simp only
        rw [ty_shift hs',hlw]
      by_cases hashr : op = .ashr
      · subst hashr
        cases S with
        | true => exact hop (show BinOp.isShift .ashr = true from rfl) (fun _ _ => rfl) (by simp) h
        | false => exact hop (show BinOp.isShift .rshift = true from rfl) (fun _ _ => rfl) (by simp) h
      · rw [if_neg hashr] at h
        by_cases hlog : op = .lshift ∨ (!S) = true
        · rw [if_pos hlog] at h
          apply hop hs (fun _ _ => rfl) _ h
          rintro rfl rfl
          simp at hlog
        · rw [if_neg hlog] at h
          obtain rfl : op = .rshift := by cases op <;> simp_all [BinOp.isShift]
          obtain rfl : S = true := by simpa using hlog
          obtain ⟨l',hl,h⟩ := bind_eq_some_iff.mp h
          obtain ⟨lt,hlt,h⟩ := bind_eq_some_iff.mp h
          obtain rfl := ht l' lt hlt
          obtain ⟨lu,hlu,h⟩ := bind_eq_some_iff.mp h
          obtain rfl := mkCast_eq hlu
          obtain rfl := mkCast_eq h
          have hsl := (ihv l W true l' hsized.1 hml hw hS hl).1
          refine ⟨hsl.rshift hpos hsr hsign,fun hS' => ?_⟩
          have hls : (ty (declared vars) l).s = true := hS rfl
          have hleaf : leaf (declared vars) (.binary .rshift l r) W = some W := by
            simp [leaf,hls,BinOp.isArith,BinOp.isShift]
          rw [hleaf]
          exact ⟨rfl,fun _ => Ty.fix_w hpos⟩
    · have hb : isBool (.binary op l r) = true := by simp [isBool,ha,hs]
      simp only [val,ha,hs,false_eq_true,if_false] at h
      obtain ⟨x,hx,h⟩ := bind_eq_some_iff.mp h
      exact val_bool ihb hb hsized hm hw hS (by simp [leaf,ha,hs]) hx h

theorem val_unary {op : UnOp} {x : Expr} {W : ℕ} {S : Bool}
    (hsized : Sized P (declared vars) (.unary op x))
    (hm : meets (declared vars) (.unary op x) (some ⟨W,S⟩) = true)
    (hw : (ty (declared vars) (.unary op x)).w ≤ W)
    (hS : S = true → (ty (declared vars) (.unary op x)).s = true)
    (h : val vars (fuel+1) (.unary op x) W S = some e') :
    Spells Q (declared vars) (.unary op x) W S e' ∧ Shape (declared vars) (.unary op x) W S e' := by
  have ht := typed_type vars fuel
  have hpos : 0 < W := (ty_w_pos _ _).trans_le hw
  cases op with
  | not =>
    obtain ⟨b,hx,h⟩ := bind_eq_some_iff.mp h
    exact val_bool ihb rfl hsized hm hw hS rfl hx h
  | neg =>
    obtain ⟨x',hx,h⟩ := bind_eq_some_iff.mp h
    obtain ⟨z,hz,rfl⟩ := map_eq_some_iff.mp h
    have hsx := (ihv x W S x' hsized hm hw hS hx).1
    have hneg := hsx.neg hpos hz
    refine ⟨hneg,fun _ => le_antisymm hneg.width ?_⟩
    rw [ty_arith rfl,mkConst_eq hz]
    exact (le_of_eq (by rw [ty_const_sized hpos])).trans (le_max_left _ _)
  | invert =>
    obtain ⟨x',hx,h⟩ := bind_eq_some_iff.mp h
    obtain ⟨x'',hwide,rfl⟩ := map_eq_some_iff.mp h
    obtain ⟨hsx,hxw⟩ := (ihv x W S x' hsized hm hw hS hx).1.widen ht hpos hwide
    exact ⟨hsx.invert hxw,fun _ => hxw⟩

theorem val_ite {f : Expr} {W : ℕ} {S : Bool} (hsized : Sized P (declared vars) (.ite c t f))
    (hm : meets (declared vars) (.ite c t f) (some ⟨W,S⟩) = true)
    (hw : (ty (declared vars) (.ite c t f)).w ≤ W)
    (hS : S = true → (ty (declared vars) (.ite c t f)).s = true)
    (h : val vars (fuel+1) (.ite c t f) W S = some e') :
    Spells Q (declared vars) (.ite c t f) W S e' ∧ Shape (declared vars) (.ite c t f) W S e' := by
  have ht := typed_type vars fuel
  have hpos : 0 < W := (ty_w_pos _ _).trans_le hw
  rw [ty] at hw hS
  simp only [Ty.join_w,max_le_iff] at hw
  simp only [Ty.join_s,and_eq_true] at hS
  simp only [meets,and_eq_true] at hm
  obtain ⟨⟨⟨hmc,hmt⟩,hmf⟩,_⟩ := hm
  obtain ⟨c',hc,h⟩ := bind_eq_some_iff.mp h
  obtain ⟨t',ht',h⟩ := bind_eq_some_iff.mp h
  obtain ⟨f',hf,h⟩ := bind_eq_some_iff.mp h
  obtain ⟨t'',hpair,rfl⟩ := map_eq_some_iff.mp h
  have hst := (ihv t W S t' hsized.2.1 hmt hw.1 (fun h => (hS h).1) ht').1
  have hsf := (ihv f W S f' hsized.2.2 hmf hw.2 (fun h => (hS h).2) hf).1
  obtain ⟨hst,hmax⟩ := hst.widenPair ht hpos hsf hpair
  exact ⟨Spells.ite (ihb c c' hsized.1 hmc hc).1 hst hsf hmax,fun _ => hmax⟩

omit ihb in
theorem val_operand {x o : Expr} {ot : Ty} (hsized : Sized P (declared vars) x)
    (hm : meets (declared vars) x (some (ty (declared vars) x)) = true)
    (hot : type vars fuel x = some ot) (ho : val vars fuel x ot.w ot.s = some o) :
    Spells Q (declared vars) x (ty (declared vars) x).w (ty (declared vars) x).s o := by
  obtain rfl := typed_type vars fuel x ot hot
  exact (ihv x _ _ o hsized hm (le_refl _) id ho).1

omit ihb in
theorem val_extend {x : Expr} {toBits W : ℕ} {signExtend S : Bool}
    (hsized : Sized P (declared vars) (.extend x fromBits toBits signExtend))
    (hm : meets (declared vars) (.extend x fromBits toBits signExtend) (some ⟨W,S⟩) = true)
    (hw : (ty (declared vars) (.extend x fromBits toBits signExtend)).w ≤ W)
    (h : val vars (fuel+1) (.extend x fromBits toBits signExtend) W S = some e') :
    Spells Q (declared vars) (.extend x fromBits toBits signExtend) W S e' ∧
      Shape (declared vars) (.extend x fromBits toBits signExtend) W S e' := by
  have ht := typed_type vars fuel
  have hpos : 0 < W := (ty_w_pos _ _).trans_le hw
  obtain ⟨ot,hot,h⟩ := bind_eq_some_iff.mp h
  obtain ⟨o,ho,h⟩ := bind_eq_some_iff.mp h
  obtain ⟨n,hn,h⟩ := bind_eq_some_iff.mp h
  have hso := val_operand ihv hsized.1 hm hot ho
  have hty : ty (declared vars) (.extend o fromBits toBits signExtend) =
      ty (declared vars) (.extend x fromBits toBits signExtend) := by rw [ty,ty,hso.sign]
  obtain rfl : n = .extend o fromBits toBits signExtend := by
    split_ifs at hn with hsame
    · rw [← Option.some.inj hn,same_eq hsame]
    · exact mkExt_eq hn
  have hsn : Sized Q (declared vars) (.extend o fromBits toBits signExtend) := ⟨hso.sized,hsized.2⟩
  exact ⟨(conv_spells ht rfl (show Plain (.extend o _ _ _) from trivial) hsn hpos
    (hso.extend_own fromBits toBits signExtend W S) h).1,conv_shape ht rfl hty hw rfl h⟩

omit ihb in
theorem val_svCast {x : Expr} {toBits W : ℕ} {signExtend dstSigned S : Bool}
    (hsized : Sized P (declared vars) (.svCast x fromBits toBits signExtend dstSigned))
    (hm : meets (declared vars) (.svCast x fromBits toBits signExtend dstSigned) (some ⟨W,S⟩) = true)
    (hw : (ty (declared vars) (.svCast x fromBits toBits signExtend dstSigned)).w ≤ W)
    (h : val vars (fuel+1) (.svCast x fromBits toBits signExtend dstSigned) W S = some e') :
    Spells Q (declared vars) (.svCast x fromBits toBits signExtend dstSigned) W S e' ∧
      Shape (declared vars) (.svCast x fromBits toBits signExtend dstSigned) W S e' := by
  have ht := typed_type vars fuel
  have hpos : 0 < W := (ty_w_pos _ _).trans_le hw
  obtain ⟨ot,hot,h⟩ := bind_eq_some_iff.mp h
  obtain ⟨o,ho,h⟩ := bind_eq_some_iff.mp h
  obtain ⟨n,hn,h⟩ := bind_eq_some_iff.mp h
  have hso := val_operand ihv hsized.1 hm hot ho
  obtain rfl : n = .svCast o fromBits toBits signExtend dstSigned := by
    split_ifs at hn with hsame
    · rw [← Option.some.inj hn,same_eq hsame]
    · exact mkCast_eq hn
  have hsn : Sized Q (declared vars) (.svCast o fromBits toBits signExtend dstSigned) :=
    ⟨hso.sized,hsized.2⟩
  have hty : ty (declared vars) (.svCast o fromBits toBits signExtend dstSigned) =
      ty (declared vars) (.svCast x fromBits toBits signExtend dstSigned) := rfl
  exact ⟨(conv_spells ht rfl (show Plain (.svCast o _ _ _ _) from trivial) hsn hpos
    (hso.svCast_own fromBits toBits signExtend dstSigned W S) h).1,conv_shape ht rfl hty hw rfl h⟩

omit ihb in
theorem val_extract (hPQ : Slices P Q) {x : Expr} {hiBit loBit W : ℕ} {S : Bool}
    (hsized : Sized P (declared vars) (.extract x hiBit loBit))
    (hm : meets (declared vars) (.extract x hiBit loBit) (some ⟨W,S⟩) = true)
    (hw : (ty (declared vars) (.extract x hiBit loBit)).w ≤ W)
    (h : val vars (fuel+1) (.extract x hiBit loBit) W S = some e') :
    Spells Q (declared vars) (.extract x hiBit loBit) W S e' ∧
      Shape (declared vars) (.extract x hiBit loBit) W S e' := by
  have ht := typed_type vars fuel
  have hpos : 0 < W := (ty_w_pos _ _).trans_le hw
  obtain ⟨ot,hot,h⟩ := bind_eq_some_iff.mp h
  obtain ⟨o,ho,h⟩ := bind_eq_some_iff.mp h
  have hso := val_operand ihv hsized.1 hm hot ho
  have hslice : Q hiBit (ty (declared vars) o).w := hPQ.keep _ _ _ hsized.2.2 hso.width
  have hsn : Sized Q (declared vars) (.extract o hiBit loBit) := ⟨hso.sized,hsized.2.1,hslice⟩
  have hty : ty (declared vars) (.extract o hiBit loBit) = ty (declared vars) (.extract x hiBit loBit) := rfl
  exact ⟨(conv_spells ht rfl (show Plain (.extract o _ _) from trivial) hsn hpos
    (hso.extract_own hiBit loBit W S) h).1,conv_shape ht rfl hty hw rfl h⟩

omit ihb in
theorem val_concat {hi lo : Expr} {W : ℕ} {S : Bool}
    (hsized : Sized P (declared vars) (.concat hi lo loWidth))
    (hm : meets (declared vars) (.concat hi lo loWidth) (some ⟨W,S⟩) = true)
    (hw : (ty (declared vars) (.concat hi lo loWidth)).w ≤ W)
    (hS : S = true → (ty (declared vars) (.concat hi lo loWidth)).s = true)
    (h : val vars (fuel+1) (.concat hi lo loWidth) W S = some e') :
    Spells Q (declared vars) (.concat hi lo loWidth) W S e' ∧
      Shape (declared vars) (.concat hi lo loWidth) W S e' := by
  have ht := typed_type vars fuel
  have hpos : 0 < W := (ty_w_pos _ _).trans_le hw
  simp only [meets,and_eq_true] at hm
  obtain ⟨⟨hmh,hml⟩,hfull⟩ := hm
  obtain ⟨ht',hht,h⟩ := bind_eq_some_iff.mp h
  obtain ⟨lt',hlt,h⟩ := bind_eq_some_iff.mp h
  obtain rfl := ht hi ht' hht
  obtain rfl := ht lo lt' hlt
  obtain ⟨o,ho,h⟩ := bind_eq_some_iff.mp h
  obtain ⟨p,hp,h⟩ := bind_eq_some_iff.mp h
  obtain ⟨hso,hshape⟩ := ihv hi _ _ o hsized.1 hmh (le_refl _) id ho
  have hsp := (ihv lo _ _ p hsized.2.1 hml (le_refl _) id hp).1
  have hfullw : (ty (declared vars) hi).s = true →
      (ty (declared vars) o).w = (ty (declared vars) hi).w := by
    intro hs
    have hshape := hshape rfl
    rw [hs] at hfull
    simp only [Bool.not_true,Bool.false_or,decide_eq_true_eq] at hfull
    cases hl : leaf (declared vars) hi (ty (declared vars) hi).w with
    | none =>
      rw [hl] at hshape
      exact hshape
    | some w =>
      rw [hl] at hshape hfull
      exact (hshape.2 hs).trans hfull
  have hsn : Sized Q (declared vars) (.concat o p loWidth) := ⟨hso.sized,hsp.sized,hsized.2.2⟩
  obtain ⟨hspells,hself⟩ := conv_spells ht rfl (show Plain (.concat o p _) from trivial) hsn hpos
    (hso.concat_own hsp hfullw W S) h
  refine ⟨hspells,fun hS' => ⟨hself,fun h1 => ?_⟩⟩
  have := hS h1
  simp [ty] at this

omit ihb in
theorem val_cast (hPQ : Slices P Q) {x : Expr} {toBits W : ℕ} {toSigned S : Bool}
    (hsized : Sized P (declared vars) (.cast x toBits toSigned))
    (hm : meets (declared vars) (.cast x toBits toSigned) (some ⟨W,S⟩) = true)
    (hw : (ty (declared vars) (.cast x toBits toSigned)).w ≤ W)
    (h : val vars (fuel+1) (.cast x toBits toSigned) W S = some e') :
    Spells Q (declared vars) (.cast x toBits toSigned) W S e' ∧
      Shape (declared vars) (.cast x toBits toSigned) W S e' := by
  have ht := typed_type vars fuel
  have hto : 0 < toBits := hsized.2
  have hwt : toBits ≤ W := by
    rw [ty,Ty.fix_w (by exact hto)] at hw
    exact hw
  simp only [meets,Option.all_some,and_eq_true,Bool.or_eq_true,decide_eq_true_eq,ne_eq] at hm
  obtain ⟨hmx,hctx⟩ := hm
  obtain ⟨ot,hot,h⟩ := bind_eq_some_iff.mp h
  obtain rfl := ht x ot hot
  obtain ⟨o,ho,h⟩ := bind_eq_some_iff.mp h
  obtain ⟨vt,hvt,h⟩ := bind_eq_some_iff.mp h
  obtain rfl := ht o vt hvt
  obtain ⟨n,hn,hconv⟩ := bind_eq_some_iff.mp h
  obtain ⟨hso,hshape⟩ := ihv x _ _ o hsized.1 hmx (le_max_left _ _) id ho
  by_cases hgt : (ty (declared vars) o).w > toBits
  · -- the low bits are cut out, and read at the signedness asked for
    have hleaf : S = toSigned → ∃ w, leaf (declared vars) (.cast x toBits toSigned) W = some w ∧
        (S = true → w = toBits) := by
      intro hS
      by_cases hsx : (ty (declared vars) x).s = toSigned
      · have hshape := hshape rfl
        cases hlx : leaf (declared vars) x (max (ty (declared vars) x).w toBits) with
        | none =>
          rw [hlx] at hshape
          simp only at hshape
          exact ⟨toBits,by simp [leaf,hsx,hlx]; omega,fun _ => rfl⟩
        | some w =>
          rw [hlx] at hshape
          refine ⟨min w toBits,by simp [leaf,hsx,hlx],fun h1 => ?_⟩
          have := hshape.2 (by rw [hsx,← hS,h1])
          omega
      · exact ⟨toBits,by simp [leaf,hsx],fun _ => rfl⟩
    have hslice : Q (toBits-1) (ty (declared vars) o).w := hPQ.cut _ _ (by omega)
    have hsx : Sized Q (declared vars) (.extract o (toBits-1) 0) := ⟨hso.sized,Nat.zero_le _,hslice⟩
    have htx : ty (declared vars) (.extract o (toBits-1) 0) = ⟨toBits,false⟩ := by
      rw [ty,Nat.sub_zero,Nat.sub_add_cancel hto]
      exact Ty.fix_eq hto
    have hvx : ∀ ρ, eval (declared vars) ρ (.extract o (toBits-1) 0) toBits false =
        wrap (eval (declared vars) ρ o (ty (declared vars) o).w (ty (declared vars) o).s) toBits false := by
      intro ρ
      simp only [eval]
      rw [Nat.sub_zero,Nat.sub_add_cancel hto,Ty.fix_w (t := ⟨toBits,false⟩) hto,wrap_wrap (le_refl _)]
      simp
    split_ifs at hn with hmax hts
    · obtain rfl := mkCast_eq hn
      have htn : ty (declared vars) (.svCast (.extract o (toBits-1) 0) toBits toBits false true) =
          ⟨toBits,toSigned⟩ := by
        rw [hts]
        exact Ty.fix_eq hto
      have hcast := fun ρ => eval_svCast_own (Γ := declared vars) (ρ := ρ) (.extract o (toBits-1) 0) hto
        true toBits true
      rw [htx] at hcast
      refine cast_leaf ht hto hso hwt rfl (show Plain (.svCast _ _ _ _ _) from trivial)
        ⟨hsx,hto,hto⟩ htn (fun ρ => ?_) hleaf hconv
      rw [hts,hcast,hvx,wrap_wrap (le_refl _),wrap_wrap (le_refl _)]
    · obtain rfl := Option.some.inj hn
      have hts' : toSigned = false := by simpa using hts
      exact cast_leaf ht hto hso hwt rfl (show Plain (.extract _ _ _) from trivial) hsx
        (by rw [htx,hts']) (fun ρ => by rw [hts',hvx]) hleaf hconv
  · rw [if_neg hgt] at hn
    rcases conv_cases ht hn with ⟨rfl,hs,hle⟩ | ⟨rfl,hno⟩
    · refine cast_same ht hto hso hshape hwt hle hs (fun hl => ?_) hconv
      exact hctx.resolve_left fun hne => hne hl
    · have hsx : ¬(ty (declared vars) x).s = toSigned := by
        intro hsx
        exact hno ⟨hso.sign.trans hsx,by omega⟩
      refine cast_leaf ht hto hso hwt rfl (show Plain (.svCast _ _ _ _ _) from trivial)
        ⟨hso.sized,ty_w_pos _ _,hto⟩ (Ty.fix_eq hto) (fun ρ => ?_)
        (fun _ => ⟨toBits,by simp [leaf,hsx],fun _ => rfl⟩) hconv
      rw [eval_svCast_own o hto,wrap_wrap (le_refl _)]

theorem val_step (hPQ : Slices P Q) : ValOk P Q vars (fuel+1) := by
  intro e W S e' hsized hm hw hS h
  have ht := typed_type vars fuel
  cases e with
  | const value width isSigned =>
    obtain ⟨hspells,hself,hwidth⟩ := valConst_spells ht hsized hw h
    exact ⟨hspells,fun hS' => ⟨hself,fun _ => hwidth hS'⟩⟩
  | constWide bits width isSigned =>
    refine val_leaf rfl trivial hsized hw rfl (fun ρ => ?_) ht h
    simp only [eval,ty,Ty.fix_s]
    rw [wrap_wrap (s := isSigned) (le_refl _)]
  | var varId =>
    refine val_leaf rfl trivial hsized hw rfl (fun ρ => ?_) ht h
    simp only [eval,ty]
    rw [wrap_wrap (s := (declared vars varId).fix.s) (le_refl _)]
  | binary op l r => exact val_binary ihv ihb hsized hm hw hS h
  | unary op x => exact val_unary ihv ihb hsized hm hw hS h
  | ite c t f => exact val_ite ihv ihb hsized hm hw hS h
  | inRange | inSet | inRanges =>
    obtain ⟨x,hx,h⟩ := bind_eq_some_iff.mp h
    exact val_bool ihb rfl hsized hm hw hS rfl hx h
  | extend => exact val_extend ihv hsized hm hw h
  | svCast => exact val_svCast ihv hsized hm hw h
  | cast => exact val_cast ihv hPQ hsized hm hw h
  | extract => exact val_extract ihv hPQ hsized hm hw h
  | concat => exact val_concat ihv hsized hm hw hS h
  | other ref =>
    obtain rfl := Option.some.inj h
    obtain rfl : S = false := by
      cases S with
      | false => rfl
      | true => exact absurd (hS rfl) (by simp [ty,boolTy])
    exact ⟨⟨rfl,hw,trivial,fun _ _ _ _ => rfl,trivial,trivial⟩,fun _ => ⟨rfl,fun h1 => absurd h1 (by simp)⟩⟩

theorem bool_step (hPQ : Slices P Q) : BoolOk P Q vars (fuel+1) := by
  intro e e' hsized hm h
  have ht := typed_type vars fuel
  -- a node whose result is a decision
  have hdec : Decides Q (declared vars) (fun ρ => truth (declared vars) ρ e) e' →
      Holds Q (declared vars) e e' ∧
        (isBool e = true → Decides Q (declared vars) (fun ρ => truth (declared vars) ρ e) e') :=
    fun hd => ⟨hd.holds fun _ => rfl,fun _ => hd⟩
  cases e with
  | const | var | other =>
    obtain rfl := Option.some.inj h
    exact ⟨holds_self rfl hsized,fun hb => by simp [isBool] at hb⟩
  | constWide | extend | svCast | extract | concat => exact hdec (ihv.nonzero hsized hm h)
  | cast x toBits toSigned =>
    apply hdec (ihv.nonzero hsized _ h)
    rw [meets,and_eq_true] at hm ⊢
    refine ⟨hm.1,?_⟩
    simp [ty,Ty.fix_w (t := ⟨toBits,toSigned⟩) hsized.2]
  | binary op l r =>
    by_cases hlog : op = .and ∨ op = .or
    · simp only [bool,hlog,if_true] at h
      obtain ⟨l',hl,h⟩ := bind_eq_some_iff.mp h
      obtain ⟨r',hr,rfl⟩ := map_eq_some_iff.mp h
      rcases hlog with rfl | rfl
      · rw [meets,if_neg (by decide),if_neg (by decide),if_neg (by decide),and_eq_true] at hm
        obtain ⟨hhl,_⟩ := ihb l l' hsized.1 hm.1 hl
        obtain ⟨hhr,_⟩ := ihb r r' hsized.2 hm.2 hr
        refine hdec ⟨rfl,rfl,fun ρ => ?_,trivial,hhl.sized,hhr.sized⟩
        rw [truth,truth,eval_and,eval_and,hhl.own,hhr.own]
      · rw [meets,if_neg (by decide),if_neg (by decide),if_neg (by decide),and_eq_true] at hm
        obtain ⟨hhl,_⟩ := ihb l l' hsized.1 hm.1 hl
        obtain ⟨hhr,_⟩ := ihb r r' hsized.2 hm.2 hr
        refine hdec ⟨rfl,rfl,fun ρ => ?_,trivial,hhl.sized,hhr.sized⟩
        rw [truth,truth,eval_or,eval_or,hhl.own,hhr.own]
    · by_cases hc : op.isCmp = true
      · have hs : op.isShift = false := by cases op <;> simp_all [BinOp.isCmp,BinOp.isShift]
        have ha : op.isArith = false := by cases op <;> simp_all [BinOp.isCmp,BinOp.isArith]
        simp only [bool,hlog,hc,if_true,if_false] at h
        simp only [meets,ha,hs,hc,false_eq_true,if_false,if_true,and_eq_true] at hm
        obtain ⟨hl,hr⟩ := ihv.pair hsized.1 hsized.2 hm.1 hm.2
        refine hdec ((cmp_decides ht hc hl hr h).congr fun ρ => ?_)
        rw [truth,eval_cmp hc,Bool.eq_iff_iff,decide_eq_true_eq,ofBool_ne_zero]
        rfl
      · simp only [bool,hlog,hc,if_false] at h
        apply hdec (ihv.nonzero hsized _ h)
        by_cases ha : op.isArith = true
        · simp only [meets,ha,if_true,getD_none] at hm
          simp only [meets,ha,if_true,getD_some,ty_arith ha]
          exact hm
        · have hs : op.isShift = true := by cases op <;> simp_all [BinOp.isCmp,BinOp.isArith,BinOp.isShift]
          simp only [meets,ha,hs,if_true,getD_none] at hm
          simp only [meets,ha,hs,if_true,getD_some,ty_shift hs]
          exact hm
  | unary op x =>
    by_cases hn : op = .not
    · subst hn
      obtain ⟨x',hx,rfl⟩ := map_eq_some_iff.mp h
      obtain ⟨hholds,_⟩ := ihb x x' hsized hm hx
      refine hdec ⟨rfl,rfl,fun ρ => ?_,trivial,hholds.sized⟩
      rw [truth,truth,eval_not,eval_not,hholds.own]
    · simp only [bool,hn,if_false] at h
      simp only [meets,hn,if_false,getD_none] at hm
      apply hdec (ihv.nonzero hsized _ h)
      simp only [meets,ty,hn,if_false,getD_some]
      exact hm
  | ite c t f =>
    simp only [meets,Option.isSome_none,Bool.false_or,and_eq_true] at hm
    obtain ⟨⟨⟨hmc,hmt⟩,hmf⟩,hot,hof⟩ := hm
    obtain ⟨c',hc,h⟩ := bind_eq_some_iff.mp h
    obtain ⟨t',ht',h⟩ := bind_eq_some_iff.mp h
    obtain ⟨f',hf,rfl⟩ := map_eq_some_iff.mp h
    obtain ⟨hhc,_⟩ := ihb c c' hsized.1 hmc hc
    obtain ⟨hht,_⟩ := ihb t t' hsized.2.1 hmt ht'
    obtain ⟨hhf,_⟩ := ihb f f' hsized.2.2 hmf hf
    refine ⟨⟨fun ρ W S hW => ?_,hhc.sized,hht.sized,hhf.sized⟩,fun hb => by simp [isBool] at hb⟩
    rw [ty,Ty.join_w,max_le_iff] at hW
    have hroot : truth (declared vars) ρ (.ite c t f) = true ↔
        eval (declared vars) ρ (.ite c t f) ((ty (declared vars) t).join (ty (declared vars) f)).w
          ((ty (declared vars) t).join (ty (declared vars) f)).s ≠ 0 := by rw [truth,decide_eq_true_eq,ty]
    rw [hroot,eval_ite,eval_ite,hhc.own]
    -- each arm in the type of the conditional holds when it does by itself
    split_ifs
    · rw [hht.truth ρ W S hW.1]
      exact (armOk.truth hot hmt (le_max_left _ _)).symm
    · rw [hhf.truth ρ W S hW.2]
      exact (armOk.truth hof hmf (le_max_right _ _)).symm
  | inRange v lo hi =>
    simp only [meets,and_eq_true] at hm
    obtain ⟨⟨⟨hm1,hm2⟩,hm3⟩,hm4⟩ := hm
    exact hdec (inRange_decides ht (sized_imp hPQ.imp hsized.1) (ihv.pair hsized.1 hsized.2.1 hm1 hm2)
      (ihv.pair hsized.1 hsized.2.2 hm3 hm4) h)
  | inSet v n elems =>
    simp only [meets,List.all_eq_true,List.mem_finRange,true_implies,and_eq_true] at hm
    exact hdec (inSet_decides ht (sized_imp hPQ.imp hsized.1) (fun i => ihv.pair hsized.1 (hsized.2 i) (hm i).1 (hm i).2) h)
  | inRanges v n los his =>
    simp only [meets,List.all_eq_true,List.mem_finRange,true_implies,and_eq_true] at hm
    exact hdec (inRanges_decides ht (sized_imp hPQ.imp hsized.1)
      (fun i => ihv.pair hsized.1 (hsized.2.1 i) (hm i).1.1.1 (hm i).1.1.2)
      (fun i => ihv.pair hsized.1 (hsized.2.2 i) (hm i).1.2 (hm i).2) h)

end Pass

theorem val_bool_ok {P : ℕ → ℕ → Prop} (hPQ : Slices P Q) (vars : ℕ → Option Ty) (fuel : ℕ) :
    ValOk P Q vars fuel ∧ BoolOk P Q vars fuel := by
  induction fuel with
  | zero =>
    constructor
    · intro e W S e' _ _ _ _ h
      exact absurd h (by simp [val])
    · intro e e' _ _ h
      exact absurd h (by simp [bool])
  | succ fuel ih => exact ⟨val_step ih.1 ih.2 hPQ,bool_step ih.1 ih.2 hPQ⟩

def sliceFits (hiBit w : ℕ) : Prop := hiBit < maxW ∨ w < maxW

theorem slices_held : Slices sliceFits sliceHeld :=
  ⟨fun _ _ _ h hle => h.imp_right fun hw => ne_of_lt (hle.trans_lt hw),fun hi w h => by
    unfold sliceHeld maxW
    omega⟩

def anySlice (_ _ : ℕ) : Prop := True

/-- Every type is narrower than `DVS_MAX_WIDTH`: the memo of types holds a width in 24 bits. -/
def narrow (Γ : ℕ → Ty) : Expr → Bool
  | .binary op l r => (ty Γ (.binary op l r)).w < maxWidth && narrow Γ l && narrow Γ r
  | .unary op x => (ty Γ (.unary op x)).w < maxWidth && narrow Γ x
  | .ite c t e => (ty Γ (.ite c t e)).w < maxWidth && narrow Γ c && narrow Γ t && narrow Γ e
  | .inRange v lo hi => narrow Γ v && narrow Γ lo && narrow Γ hi
  | .inSet v n elems => narrow Γ v && (List.finRange n).all fun i => narrow Γ (elems i)
  | .inRanges v n los his =>
    narrow Γ v && (List.finRange n).all fun i => narrow Γ (los i) && narrow Γ (his i)
  | .extend x f t s => (ty Γ (.extend x f t s)).w < maxWidth && narrow Γ x
  | .svCast x f t s d => (ty Γ (.svCast x f t s d)).w < maxWidth && narrow Γ x
  | .cast x t s => (ty Γ (.cast x t s)).w < maxWidth && narrow Γ x
  | .extract x hi lo => (ty Γ (.extract x hi lo)).w < maxWidth && narrow Γ x
  | .concat hi lo w => (ty Γ (.concat hi lo w)).w < maxWidth && narrow Γ hi && narrow Γ lo
  | e => (ty Γ e).w < maxWidth

/-- `root'` holds under every assignment exactly when `root` does, and so the validator, where
it evaluates it, reports. -/
def Keeps (vars : ℕ → Option Ty) (root root' : Expr) : Prop :=
  (∀ ρ, truth (declared vars) ρ root' = truth (declared vars) ρ root) ∧
    (Sized sliceFits (declared vars) root → ∀ ctx ρ b, Ctx.types ctx = declared vars → ctx.Reads ρ →
      verdict ctx root' = some b → b = truth (declared vars) ρ root)

theorem bool_keeps {vars : ℕ → Option Ty} {fuel : ℕ} {root root' : Expr}
    (hsized : Sized anySlice (declared vars) root) (hm : meets (declared vars) root none = true)
    (h : bool vars fuel root = some root') : Keeps vars root root' := by
  have hany : Slices anySlice anySlice := ⟨fun _ _ _ _ _ => trivial,fun _ _ _ => trivial⟩
  have htruth := fun ρ => ((val_bool_ok hany vars fuel).2 root root' hsized hm h).1.own ρ
  refine ⟨htruth,fun hfits ctx ρ b hctx hρ hb => ?_⟩
  have hheld := ((val_bool_ok slices_held vars fuel).2 root root' hfits hm h).1.sized
  rw [← hctx] at hheld
  rw [verdict_eq hheld hρ hb,hctx,htruth]

theorem keeps_self {vars : ℕ → Option Ty} (root : Expr) : Keeps vars root root := by
  refine ⟨fun _ => rfl,fun hfits ctx ρ b hctx hρ hb => ?_⟩
  have hheld := sized_imp slices_held.imp hfits
  rw [← hctx] at hheld ⊢
  exact verdict_eq hheld hρ hb

theorem forall₂_of_mapM {α β : Type} {f : α → Option β} {as : List α} {bs : List β}
    (h : as.mapM f = some bs) : Forall₂ (fun a b => f a = some b) as bs := by
  induction as generalizing bs with
  | nil =>
    rw [← Option.some.inj h]
    exact Forall₂.nil
  | cons a as ih =>
    rw [List.mapM_cons] at h
    obtain ⟨b,hb,h⟩ := bind_eq_some_iff.mp h
    obtain ⟨bs',hbs,h⟩ := bind_eq_some_iff.mp h
    rw [← Option.some.inj h]
    exact Forall₂.cons hb (ih hbs)

/-- Where the roots meet the conditions, elaboration keeps each of them; and what `_val` spells
for a target has its signedness, at most its width, and its operators at exactly its width. -/
theorem elaborate_keeps (vars : ℕ → Option Ty) (fuel : ℕ) (sp sp' : Problem)
    (hroots : ∀ root ∈ sp.constraints++sp.softs, Sized anySlice (declared vars) root ∧
      narrow (declared vars) root = true ∧ meets (declared vars) root none = true)
    (h : elaborate vars fuel sp = some sp') :
    Forall₂ (Keeps vars) sp.constraints sp'.constraints ∧ Forall₂ (Keeps vars) sp.softs sp'.softs ∧
      ∀ n e W S e', Sized anySlice (declared vars) e → narrow (declared vars) e = true →
        meets (declared vars) e (some ⟨W,S⟩) = true → (ty (declared vars) e).w ≤ W →
        (S = true → (ty (declared vars) e).s = true) → val vars n e W S = some e' →
        (ty (declared vars) e').s = S ∧ (ty (declared vars) e').w ≤ W ∧ atWidth (declared vars) W e' := by
  have hlist : ∀ roots roots' : List Expr, (∀ root ∈ roots, Sized anySlice (declared vars) root ∧
      narrow (declared vars) root = true ∧ meets (declared vars) root none = true) →
      roots.mapM (bool vars fuel) = some roots' → Forall₂ (Keeps vars) roots roots' := by
    intro roots roots' hall hmap
    have hrel := (List.forall₂_and_left roots roots').mpr ⟨hall,forall₂_of_mapM hmap⟩
    exact hrel.imp fun root root' hr => bool_keeps hr.1.1 hr.1.2.2 hr.2
  refine and_assoc.mp ⟨?_,fun n e W S e' hsized _ hm hw hS hv => ?_⟩
  swap
  · have hany : Slices anySlice anySlice := ⟨fun _ _ _ _ _ => trivial,fun _ _ _ => trivial⟩
    have hs := ((val_bool_ok hany vars n).1 e W S e' hsized hm hw hS hv).1
    exact ⟨hs.sign,hs.width,hs.exact⟩
  unfold elaborate at h
  split_ifs at h with hex
  · obtain rfl := Option.some.inj h
    exact ⟨List.forall₂_same.mpr fun root _ => keeps_self root,
      List.forall₂_same.mpr fun root _ => keeps_self root⟩
  · obtain ⟨cs,hcs,h⟩ := bind_eq_some_iff.mp h
    obtain ⟨ss,hss,rfl⟩ := map_eq_some_iff.mp h
    exact ⟨hlist _ _ (fun root hr => hroots root (List.mem_append_left _ hr)) hcs,
      hlist _ _ (fun root hr => hroots root (List.mem_append_right _ hr)) hss⟩

/-- Variables of 8, 8, 16 and 1 bits, and signed ones of 4 and 8 bits. -/
def trialVars (id : ℕ) : Option Ty :=
  [⟨8,false⟩,⟨8,false⟩,⟨16,false⟩,⟨1,false⟩,⟨4,true⟩,⟨8,true⟩][id]?

/-- A sum compared with an integer literal is done in 32 bits. -/
theorem elaborate_keeps_sum :
    Forall₂ (Keeps trialVars)
      [.binary .eq (.binary .add (.var 0) (.var 1)) (.const 300 0 true)]
      [.binary .eq (.binary .add (.extend (.var 0) 8 32 false) (.var 1)) (.const 300 32 false)] :=
  (elaborate_keeps trialVars 20 ⟨[.binary .eq (.binary .add (.var 0) (.var 1)) (.const 300 0 true)],[],false⟩
    ⟨[.binary .eq (.binary .add (.extend (.var 0) 8 32 false) (.var 1)) (.const 300 32 false)],[],true⟩
    (by
      intro root hroot
      obtain rfl := List.mem_singleton.mp hroot
      exact ⟨⟨⟨trivial,trivial⟩,by decide,by decide⟩,by decide,by decide⟩) rfl).1

/-- The truth of a root and of what it is elaborated to, under the values of the variables. -/
def trial (root : Expr) (values : List ℤ) : Option (Bool × List Bool) :=
  let ρ : Env := ⟨fun id => values.getD id 0,fun _ _ => 0,fun _ a => a,fun _ => false⟩
  (elaborate trialVars 20 ⟨[root],[],false⟩).map fun sp' =>
    (truth (declared trialVars) ρ root,sp'.constraints.map (truth (declared trialVars) ρ))

/-- A sum under `?:` that wraps in its own 8 bits, a signed shift amount that is itself shifted
right, a cast sum compared in 16 bits, and a sign-extended number in a concatenation. -/
theorem elaborate_changes :
    trial (.ite (.var 3) (.binary .add (.var 0) (.var 1)) (.var 2)) [255,1,0,1] = some (true,[false]) ∧
      trial (.binary .eq (.binary .lshift (.var 2) (.binary .ashr (.var 4) (.const 1 4 false)))
        (.const 32768 16 false)) [0,0,1,0,-2] = some (true,[false]) ∧
      trial (.binary .eq (.cast (.binary .add (.var 0) (.var 1)) 8 false) (.var 2)) [255,1,0] =
        some (true,[false]) ∧
      trial (.binary .eq (.concat (.cast (.var 5) 16 true) (.var 0) 8) (.const 16744448 24 false))
        [0,0,0,0,0,-128] = some (true,[false]) := by
  decide +kernel

end Sv
end DvSolve
