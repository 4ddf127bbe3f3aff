import DvSolve.SvMeets

/-! The conversions and the constants elaboration emits. -/
namespace DvSolve
namespace Sv

open TwosComp Validate
open Bool (and_eq_true false_eq_true)
open Option (bind_eq_some_iff ite_none_left_eq_some)

variable {Q : ℕ → ℕ → Prop} {Γ : ℕ → Ty} {ρ : Env}
variable {t : Ty} {v : ℤ} {e x x' : Expr} {W : ℕ} {S : Bool}

theorem Ty.fix_eq (h : 0 < t.w) : t.fix = t := by rw [Ty.fix,if_neg (by omega)]

/-- The types the variables are declared with; those of the others are never read. -/
def declared (vars : ℕ → Option Ty) : ℕ → Ty := fun id => (vars id).getD boolTy

def Typed (Γ : ℕ → Ty) (typeOf : Expr → Option Ty) : Prop := ∀ e t, typeOf e = some t → t = ty Γ e

theorem typed_type (vars : ℕ → Option Ty) (fuel : ℕ) : Typed (declared vars) (type vars fuel) := by
  induction fuel with
  | zero => exact fun _ _ h => absurd h (by simp [type])
  | succ fuel ih =>
    intro e t h
    unfold type at h
    rw [Option.map_eq_some_iff] at h
    obtain ⟨t,h,rfl⟩ := h
    have hjoin : ∀ l r, ((type vars fuel l).bind fun a => (type vars fuel r).map a.join) = some t →
        t.fix = (ty (declared vars) l).join (ty (declared vars) r) := by
      intro l r h
      obtain ⟨a,ha,h⟩ := bind_eq_some_iff.mp h
      obtain ⟨b,hb,rfl⟩ := Option.map_eq_some_iff.mp h
      rw [ih l a ha,ih r b hb,Ty.fix_eq]
      exact lt_max_of_lt_left (ty_w_pos _ l)
    have hown : ∀ x, type vars fuel x = some t → t.fix = ty (declared vars) x := by
      intro x h
      rw [ih x t h,Ty.fix_eq (ty_w_pos _ x)]
    cases e with
    | const value width isSigned =>
      rw [← Option.some.inj h]
      exact Ty.fix_eq (constType_w_pos _ _ _)
    | constWide bits width isSigned =>
      rw [← Option.some.inj (ite_none_left_eq_some.mp h).2]
      rfl
    | var varId =>
      simp only at h
      rw [ty,declared,h]
      rfl
    | binary op l r =>
      simp only at h
      rw [ty]
      split_ifs at h ⊢ with ha hs
      · exact hjoin l r h
      · exact hown l h
      · rw [← Option.some.inj h]
        rfl
    | unary op x =>
      simp only [ne_eq,ite_not] at h
      rw [ty]
      split_ifs at h ⊢ with hn
      · rw [← Option.some.inj h]
        rfl
      · exact hown x h
    | ite c a b => exact hjoin a b h
    | extend x fromBits toBits signExtend =>
      obtain ⟨a,ha,rfl⟩ := Option.map_eq_some_iff.mp h
      rw [ih x a ha]
      rfl
    | extract x hiBit loBit =>
      rw [← Option.some.inj (ite_none_left_eq_some.mp h).2]
      rfl
    | concat hi lo loWidth =>
      obtain ⟨a,ha,h⟩ := bind_eq_some_iff.mp h
      rw [← Option.some.inj (ite_none_left_eq_some.mp h).2,ih hi a ha]
      rfl
    | svCast | cast | inRange | inSet | inRanges | other =>
      rw [← Option.some.inj h]
      rfl

theorem same_eq {a b : Expr} (h : a.same b = true) : a = b := by
  induction a generalizing b with
  | const | constWide | var | other =>
    cases b <;> simp_all [Expr.same]
  | binary op l r ihl ihr =>
    cases b <;> simp only [Expr.same,and_eq_true,decide_eq_true_eq,false_eq_true] at h
    obtain ⟨⟨h1,h2⟩,h3⟩ := h
    rw [h1,ihl h2,ihr h3]
  | unary op x ih =>
    cases b <;> simp only [Expr.same,and_eq_true,decide_eq_true_eq,false_eq_true] at h
    rw [h.1,ih h.2]
  | ite c t e ihc iht ihe =>
    cases b <;> simp only [Expr.same,and_eq_true,false_eq_true] at h
    rw [ihc h.1.1,iht h.1.2,ihe h.2]
  | inRange v lo hi ihv ihl ihh =>
    cases b <;> simp only [Expr.same,and_eq_true,false_eq_true] at h
    rw [ihv h.1.1,ihl h.1.2,ihh h.2]
  | inSet v n es ihv ihe =>
    cases b <;> simp only [Expr.same,and_eq_true,false_eq_true] at h
    obtain ⟨h1,h2⟩ := h
    split_ifs at h2 with hn
    subst hn
    have he := funext fun i => ihe i (List.all_eq_true.mp h2 i (List.mem_finRange i))
    rw [ihv h1,he]
  | inRanges v n los his ihv ihl ihh =>
    cases b <;> simp only [Expr.same,and_eq_true,false_eq_true] at h
    obtain ⟨h1,h2⟩ := h
    split_ifs at h2 with hn
    subst hn
    have hall := fun i => Bool.and_eq_true_iff.mp (List.all_eq_true.mp h2 i (List.mem_finRange i))
    rw [ihv h1,funext fun i => ihl i (hall i).1,funext fun i => ihh i (hall i).2]
  | extend x f t s ih =>
    cases b <;> simp only [Expr.same,and_eq_true,decide_eq_true_eq,false_eq_true] at h
    rw [ih h.1.1.1,h.1.1.2,h.1.2,h.2]
  | svCast x f t s d ih =>
    cases b <;> simp only [Expr.same,and_eq_true,decide_eq_true_eq,false_eq_true] at h
    rw [ih h.1.1.1.1,h.1.1.1.2,h.1.1.2,h.1.2,h.2]
  | cast x _ _ ih | extract x _ _ ih =>
    cases b <;> simp only [Expr.same,and_eq_true,decide_eq_true_eq,false_eq_true] at h
    rw [ih h.1.1,h.1.2,h.2]
  | concat hi lo w ihh ihl =>
    cases b <;> simp only [Expr.same,and_eq_true,decide_eq_true_eq,false_eq_true] at h
    rw [ihh h.1.1,ihl h.1.2,h.2]

variable {typeOf : Expr → Option Ty}

theorem mkConst_eq {s : Bool} {w : ℕ} (h : mkConst v s w = some e) :
    e = .const v w s := (Option.some.inj (ite_none_left_eq_some.mp h).2).symm

theorem mkExt_eq {fromBits toBits : ℕ} {sext : Bool} (h : mkExt x fromBits toBits sext = some e) :
    e = .extend x fromBits toBits sext :=
  (Option.some.inj (ite_none_left_eq_some.mp h).2).symm

theorem mkCast_eq {fromBits toBits : ℕ} {sext dstS : Bool}
    (h : mkCast x fromBits toBits sext dstS = some e) : e = .svCast x fromBits toBits sext dstS :=
  (Option.some.inj (ite_none_left_eq_some.mp h).2).symm

/-- A conversion leaves a node that needs none, or casts it. -/
theorem conv_cases (ht : Typed Γ typeOf) (h : conv typeOf x W S = some x') :
    x' = x ∧ (ty Γ x).s = S ∧ (ty Γ x).w ≤ W ∨
      x' = .svCast x (ty Γ x).w W (ty Γ x).s S ∧ ¬((ty Γ x).s = S ∧ (ty Γ x).w ≤ W) := by
  obtain ⟨t,hx,h⟩ := bind_eq_some_iff.mp h
  obtain rfl := ht x t hx
  split_ifs at h with hc
  · exact Or.inl ⟨(Option.some.inj h).symm,hc⟩
  · exact Or.inr ⟨mkCast_eq h,hc⟩

theorem eval_svCast_own (x : Expr) {toBits : ℕ} (hto : 0 < toBits) (dstS : Bool) (W : ℕ) (S : Bool) :
    eval Γ ρ (.svCast x (ty Γ x).w toBits (ty Γ x).s dstS) W S =
      wrap (wrap (eval Γ ρ x (ty Γ x).w (ty Γ x).s) toBits dstS) W S := by
  simp only [eval,Ty.fix_s]
  rw [Ty.fix_w (by exact hto),wrap_of_inTy (eval_inTy_own x)]

theorem svCast_spells (hsized : Sized Q Γ x) (hW : 0 < W)
    (hv : ∀ ρ, eval Γ ρ e W S = wrap (eval Γ ρ x (ty Γ x).w (ty Γ x).s) W S) :
    Spells Q Γ e W S (.svCast x (ty Γ x).w W (ty Γ x).s S) := by
  have hty : ty Γ (.svCast x (ty Γ x).w W (ty Γ x).s S) = ⟨W,S⟩ := Ty.fix_eq hW
  refine ⟨by rw [hty],by rw [hty],trivial,fun ρ W' h1 h2 => ?_,trivial,hsized,ty_w_pos Γ x,hW⟩
  rw [hty] at h1
  obtain rfl : W' = W := le_antisymm h2 h1
  rw [eval_svCast_own x hW,hv,wrap_wrap (le_refl _)]

/-- A node that does not take its context on is converted to any context that extends it. -/
theorem conv_spells (ht : Typed Γ typeOf) (hself : selfDetermined x = true) (hplain : Plain x)
    (hsized : Sized Q Γ x) (hW : 0 < W)
    (hv : ∀ ρ, eval Γ ρ e W S = wrap (eval Γ ρ x (ty Γ x).w (ty Γ x).s) W S)
    (h : conv typeOf x W S = some x') : Spells Q Γ e W S x' ∧ selfDetermined x' = true := by
  rcases conv_cases ht h with ⟨rfl,hs,hw⟩ | ⟨rfl,_⟩
  · refine ⟨⟨hs,hw,selfDetermined.atWidth hself W,fun ρ W' h1 _ => ?_,hplain,hsized⟩,hself⟩
    rw [eval_selfDetermined hself h1 hs.symm,hv,← hs,wrap_wider (eval_inTy_own x') hw]
  · exact ⟨svCast_spells hsized hW hv,rfl⟩

theorem Spells.widen (ht : Typed Γ typeOf) (hW : 0 < W) (hx : Spells Q Γ e W S x)
    (h : widen typeOf x W = some x') : Spells Q Γ e W S x' ∧ (ty Γ x').w = W := by
  obtain ⟨t,htx,h⟩ := bind_eq_some_iff.mp h
  obtain rfl := ht x t htx
  split_ifs at h with hc
  · obtain rfl := Option.some.inj h
    exact ⟨hx,le_antisymm hx.width hc⟩
  · obtain rfl := mkExt_eq h
    have hty : ty Γ (.extend x (ty Γ x).w W (ty Γ x).s) = ⟨W,S⟩ := by
      rw [← hx.sign]
      exact Ty.fix_eq hW
    refine ⟨⟨by rw [hty],by rw [hty],trivial,fun ρ W' h1 h2 => ?_,trivial,hx.sized,
      ty_w_pos Γ x,hW⟩,by rw [hty]⟩
    rw [hty] at h1
    obtain rfl : W' = W := le_antisymm h2 h1
    have hval := hx.value ρ (ty Γ x).w (le_refl _) hx.width
    rw [← hx.sign] at hval ⊢
    simp only [eval,Ty.fix_s]
    rw [Ty.fix_w (by exact hW),wrap_of_inTy (eval_inTy_own x),wrap_wrap (le_refl _),hval,wrap_of_inTy]
    rw [← hval]
    exact (eval_inTy_own x).mono hx.width

/-- One operand of an operator is brought to the width of the context. -/
theorem Spells.widenPair (ht : Typed Γ typeOf) {a b l r l' : Expr} (hW : 0 < W)
    (hl : Spells Q Γ a W S l) (hr : Spells Q Γ b W S r) (h : widenPair typeOf l r W = some l') :
    Spells Q Γ a W S l' ∧ max (ty Γ l').w (ty Γ r).w = W := by
  obtain ⟨lt,hlt,h⟩ := bind_eq_some_iff.mp h
  obtain rfl := ht l lt hlt
  have hlw := hl.width
  have hrw := hr.width
  split_ifs at h with hc
  · obtain ⟨rt,hrt,h⟩ := bind_eq_some_iff.mp h
    obtain rfl := ht r rt hrt
    split_ifs at h with hc'
    · obtain ⟨hl',hw⟩ := hl.widen ht hW h
      exact ⟨hl',by omega⟩
    · obtain rfl := Option.some.inj h
      exact ⟨hl,by omega⟩
  · obtain rfl := Option.some.inj h
    exact ⟨hl,by omega⟩

@[simp] theorem ty_const_sized {w : ℕ} (hw : 0 < w) (s : Bool) : ty Γ (.const v w s) = ⟨w,s⟩ := by
  rw [ty,constType,if_pos hw.ne']

theorem svWrap_emod (v : ℤ) (W : ℕ) (s : Bool) : svWrap v W s % 2^W = v % 2^W := by
  unfold svWrap
  split_ifs
  · rfl
  · exact wrap_emod v W s

theorem svWrap_bounds (h : -2^63 ≤ v ∧ v < 2^63) (w : ℕ) (s : Bool) :
    -2^63 ≤ svWrap v w s ∧ svWrap v w s < 2^63 := by
  unfold svWrap
  split_ifs with hw
  · exact h
  · have hin := (wrap_inTy v w s).mono (show w ≤ 63 by omega)
    unfold InTy at hin
    cases s with
    | false =>
      simp only [false_eq_true,if_false] at hin
      omega
    | true =>
      simp only [if_true] at hin
      omega

theorem constValue_emod (v : ℤ) (hW : W ≤ 64) (hle : W ≤ t.w) :
    constValue v t % 2^W = v % 2^W := by
  rw [constValue,emod_of_le hle (wrap_emod _ _ _)]
  split_ifs
  · rfl
  · exact Int.emod_emod_of_dvd _ (pow_dvd_pow 2 hW)

theorem svWrap_eq_constValue (v : ℤ) (hpos : 0 < t.w) (hlt : t.w < 64) :
    svWrap v t.w t.s = constValue v t := by
  rw [svWrap,if_neg (by omega)]
  apply (wrap_inTy v t.w t.s).eq_of_emod (wrap_inTy _ _ _)
  rw [wrap_emod]
  exact (constValue_emod v hlt.le (le_refl _)).symm

theorem constValue_svWrap (v : ℤ) (t : Ty) :
    constValue (svWrap v t.w t.s) t = constValue v t := by
  rcases Nat.lt_or_ge t.w 64 with hlt | hge
  · apply (wrap_inTy _ _ _).eq_of_emod (wrap_inTy _ _ _)
    exact (constValue_emod _ hlt.le (le_refl _)).trans
      ((svWrap_emod v t.w t.s).trans (constValue_emod v hlt.le (le_refl _)).symm)
  · rw [svWrap,if_pos (Or.inr hge)]

theorem svWrap_own_emod (v : ℤ) (hpos : 0 < t.w) (hW : W ≤ 64) :
    svWrap v t.w t.s % 2^W = constValue v t % 2^W := by
  rcases Nat.lt_or_ge t.w 64 with hlt | hge
  · rw [svWrap_eq_constValue v hpos hlt]
  · rw [svWrap,if_pos (Or.inr hge),constValue_emod v hW (by omega)]

theorem Spells.refl (hself : selfDetermined e = true) (hplain : Plain e) (hsized : Sized Q Γ e) :
    Spells Q Γ e (ty Γ e).w (ty Γ e).s e :=
  ⟨rfl,le_refl _,selfDetermined.atWidth hself _,fun _ _ h1 h2 => by rw [le_antisymm h2 h1],hplain,hsized⟩

theorem int64_inTy (h : -2^63 ≤ v ∧ v < 2^63) : InTy v 64 true := by
  unfold InTy
  simp only [if_true]
  omega

theorem plain_wide (h : -2^63 ≤ v ∧ v < 2^63) {w : ℕ} (hw : 64 ≤ w) (s : Bool) :
    Plain (.const v w s) := by
  refine ⟨by omega,?_⟩
  rw [constValue]
  cases s with
  | true => exact wrap_wider (int64_inTy h) hw
  | false =>
    apply wrap_wider _ hw
    exact emod_bounds v 64

theorem plain_svWrap (h : -2^63 ≤ v ∧ v < 2^63) {w : ℕ} (hw : 0 < w) (s : Bool) :
    Plain (.const (svWrap v w s) w s) := by
  rcases Nat.lt_or_ge w 64 with hlt | hge
  · refine ⟨hw,?_⟩
    have hin := wrap_inTy v w s
    rw [svWrap,if_neg (by omega),constValue]
    cases s with
    | true => exact wrap_of_inTy hin
    | false =>
      have h64 : wrap v w false % 2^64 = wrap v w false := wrap_wider hin hlt.le
      simp only [false_eq_true,if_false]
      rw [h64,wrap_of_inTy hin]
  · rw [svWrap,if_pos (Or.inr hge)]
    exact plain_wide h hge s

theorem valConst_spells (ht : Typed Γ typeOf) {value : ℤ} {width : ℕ} {isSigned : Bool}
    (hb : -2^63 ≤ value ∧ value < 2^63) (hw : (constType value width isSigned).w ≤ W)
    (h : valConst typeOf value width isSigned W S = some x') :
    Spells Q Γ (.const value width isSigned) W S x' ∧ selfDetermined x' = true ∧
      (S = (constType value width isSigned).s →
        (ty Γ x').w = if W ≤ 64 then W else (constType value width isSigned).w) := by
  have hpos := constType_w_pos value width isSigned
  have hW : 0 < W := by omega
  set t := constType value width isSigned with htdef
  unfold valConst at h
  simp only [← htdef] at h
  by_cases h64 : W ≤ 64
  · rw [if_pos h64] at h
    obtain rfl : x' = .const (svWrap (svWrap value t.w t.s) W S) W S := by
      split_ifs at h with hreuse
      · rw [← Option.some.inj h,← hreuse.2.2,hreuse.1,hreuse.2.1]
      · exact mkConst_eq h
    have hty := ty_const_sized (Γ := Γ) (v := svWrap (svWrap value t.w t.s) W S) hW S
    refine ⟨⟨by rw [hty],by rw [hty],trivial,fun ρ W' h1 h2 => ?_,
      plain_svWrap (svWrap_bounds hb _ _) hW S,svWrap_bounds (svWrap_bounds hb _ _) _ _⟩,rfl,
      fun _ => by rw [hty,if_pos h64]⟩
    rw [hty] at h1
    obtain rfl : W' = W := le_antisymm h2 h1
    rw [eval,eval]
    apply wrap_congr
    rw [constType,if_pos hW.ne',constValue_emod _ h64 (le_refl _),svWrap_emod]
    exact svWrap_own_emod value hpos h64
  · rw [if_neg h64] at h
    by_cases hreuse : width = W ∧ isSigned = S ∧ (S = true ∨ value ≥ 0)
    · rw [if_pos hreuse] at h
      obtain rfl := Option.some.inj h
      have hty : ty Γ (.const value width isSigned) = ⟨W,S⟩ := by
        rw [hreuse.1,hreuse.2.1]
        exact ty_const_sized hW S
      have hrefl := Spells.refl (Q := Q) (Γ := Γ) (e := .const value width isSigned) rfl
        (by rw [hreuse.1]; exact plain_wide hb (by omega) isSigned) hb
      rw [hty] at hrefl
      exact ⟨hrefl,rfl,fun _ => by rw [if_neg h64]; rfl⟩
    · rw [if_neg hreuse] at h
      obtain ⟨base,hbase,h⟩ := bind_eq_some_iff.mp h
      obtain rfl : base = .const (svWrap value t.w t.s) t.w t.s := by
        split_ifs at hbase with hown
        · rw [← Option.some.inj hbase,← hown.2.2,← hown.1,← hown.2.1]
        · exact mkConst_eq hbase
      have hty := ty_const_sized (Γ := Γ) (v := svWrap value t.w t.s) hpos t.s
      have hself : selfDetermined (.const (svWrap value t.w t.s) t.w t.s) = true := rfl
      have hv : ∀ ρ, eval Γ ρ (.const value width isSigned) W S =
          wrap (eval Γ ρ (.const (svWrap value t.w t.s) t.w t.s) t.w t.s) W S := by
        intro ρ
        have hct : constType (svWrap value t.w t.s) t.w t.s = t := hty
        rw [eval,eval,hct,constValue_svWrap,← htdef]
        congr 1
        exact (wrap_of_inTy (wrap_inTy _ _ _)).symm
      obtain ⟨hspells,hself'⟩ := conv_spells ht hself (plain_svWrap hb hpos t.s)
        (svWrap_bounds hb _ _) hW (by rwa [hty]) h
      refine ⟨hspells,hself',fun hS => ?_⟩
      rw [if_neg h64]
      rcases conv_cases ht h with ⟨rfl,_⟩ | ⟨_,hno⟩
      · rw [hty]
      · rw [hty] at hno
        exact absurd ⟨hS.symm,hw⟩ hno

end Sv
end DvSolve
