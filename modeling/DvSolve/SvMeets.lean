import DvSolve.SvElab
import DvSolve.ValidateSem

/-! Where elaboration keeps the meaning of an expression: what its result has to satisfy, and
the conditions on the source under which it does. -/
namespace DvSolve
namespace Sv

open TwosComp

variable {Γ : ℕ → Ty} {ρ : Env}

def atWidth (Γ : ℕ → Ty) (W : ℕ) : Expr → Prop
  | .binary op l r =>
    if op.isArith then max (ty Γ l).w (ty Γ r).w = W ∧ atWidth Γ W l ∧ atWidth Γ W r
    else if op.isShift then (ty Γ l).w = W ∧ atWidth Γ W l
    else True
  | .unary op x => op ≠ .not → (ty Γ x).w = W ∧ atWidth Γ W x
  | .ite _ t e => max (ty Γ t).w (ty Γ e).w = W ∧ atWidth Γ W t ∧ atWidth Γ W e
  | _ => True

def Plain : Expr → Prop
  | .const value width isSigned =>
    0 < width ∧ constValue value ⟨width,isSigned⟩ = if isSigned then value else value % 2^64
  | _ => True

structure Spells (Q : ℕ → ℕ → Prop) (Γ : ℕ → Ty) (e : Expr) (W : ℕ) (S : Bool) (e' : Expr) : Prop where
  sign : (ty Γ e').s = S
  width : (ty Γ e').w ≤ W
  exact : atWidth Γ W e'
  value : ∀ ρ W', (ty Γ e').w ≤ W' → W' ≤ W → eval Γ ρ e' W' S = eval Γ ρ e W S
  plain : Plain e'
  sized : Validate.Sized Q Γ e'

structure Decides (Q : ℕ → ℕ → Prop) (Γ : ℕ → Ty) (b : Env → Bool) (e' : Expr) : Prop where
  self : selfDetermined e' = true
  type : ty Γ e' = boolTy
  truth : ∀ ρ, truth Γ ρ e' = b ρ
  plain : Plain e'
  sized : Validate.Sized Q Γ e'

structure Holds (Q : ℕ → ℕ → Prop) (Γ : ℕ → Ty) (e e' : Expr) : Prop where
  truth : ∀ ρ W S, (ty Γ e').w ≤ W → (eval Γ ρ e' W S ≠ 0 ↔ truth Γ ρ e = true)
  sized : Validate.Sized Q Γ e'

/-- The width of the leaf that a node comes out as in a context of its own signedness; `none`
where it comes out as an operator of that context. -/
def leaf (Γ : ℕ → Ty) : Expr → ℕ → Option ℕ
  | .const value width isSigned, W =>
    some (if W ≤ 64 then W else (constType value width isSigned).w)
  | .binary op l _, W =>
    if op.isArith then none
    else if op.isShift then if op = .rshift && (ty Γ l).s then some W else none
    else some 1
  | .unary op _, _ => if op = .not then some 1 else none
  | .ite .., _ => none
  | .cast x toBits toSigned, _ =>
    let t := ty Γ x
    if t.s ≠ toSigned then some toBits
    else
      match leaf Γ x (max t.w toBits) with
      | none => if t.w ≤ toBits then none else some toBits
      | some w => some (min w toBits)
  | e, _ => some (ty Γ e).w

def signFree : Expr → Bool
  | .binary op l r =>
    if op.isArith then op ≠ .div && op ≠ .mod && signFree l && signFree r
    else if op.isShift then op ≠ .ashr && signFree l
    else true
  | .unary op x => op = .not || signFree x
  | .ite _ t e => signFree t && signFree e
  | _ => true

def armOk (Γ : ℕ → Ty) (t : Ty) : Expr → Bool
  | .ite _ a b => armOk Γ t a && armOk Γ t b
  | e => selfDetermined e || ty Γ e = t

/-- The conditions on a node elaborated for a target, or, for `none`, as a condition:
a conditional in a Boolean position has arms that its type does not change, a signed shift
amount reads no sign, a cast that keeps the signedness of an operator stands in no wider
context, and the upper part of a concatenation is no signed number spelled in fewer bits. -/
def meets (Γ : ℕ → Ty) : Expr → Option Ty → Bool
  | .binary op l r, g =>
    if op.isArith then
      let t := g.getD ((ty Γ l).join (ty Γ r))
      meets Γ l (some t) && meets Γ r (some t)
    else if op.isShift then
      meets Γ l (some (g.getD (ty Γ l))) && meets Γ r (some ⟨(ty Γ r).w,false⟩) &&
        (!(ty Γ r).s || signFree r)
    else if op.isCmp then
      let t := (ty Γ l).join (ty Γ r)
      meets Γ l (some t) && meets Γ r (some t)
    else meets Γ l none && meets Γ r none
  | .unary op x, g => if op = .not then meets Γ x none else meets Γ x (some (g.getD (ty Γ x)))
  | .ite c t e, g =>
    meets Γ c none && meets Γ t g && meets Γ e g &&
      (g.isSome || armOk Γ ((ty Γ t).join (ty Γ e)) t && armOk Γ ((ty Γ t).join (ty Γ e)) e)
  | .inRange v lo hi, _ =>
    let a := (ty Γ v).join (ty Γ lo)
    let b := (ty Γ v).join (ty Γ hi)
    meets Γ v (some a) && meets Γ lo (some a) && meets Γ v (some b) && meets Γ hi (some b)
  | .inSet v n elems, _ =>
    (List.finRange n).all fun i =>
      let t := (ty Γ v).join (ty Γ (elems i))
      meets Γ v (some t) && meets Γ (elems i) (some t)
  | .inRanges v n los his, _ =>
    (List.finRange n).all fun i =>
      let a := (ty Γ v).join (ty Γ (los i))
      let b := (ty Γ v).join (ty Γ (his i))
      meets Γ v (some a) && meets Γ (los i) (some a) && meets Γ v (some b) && meets Γ (his i) (some b)
  | .extend x _ _ _, _ | .svCast x _ _ _ _, _ | .extract x _ _, _ => meets Γ x (some (ty Γ x))
  | .cast x toBits toSigned, g =>
    meets Γ x (some ⟨max (ty Γ x).w toBits,(ty Γ x).s⟩) &&
      (leaf Γ (.cast x toBits toSigned) toBits ≠ none ||
        g.all fun t => t.s ≠ toSigned || t.w ≤ toBits)
  | .concat hi lo _, _ =>
    meets Γ hi (some (ty Γ hi)) && meets Γ lo (some (ty Γ lo)) &&
      (!(ty Γ hi).s || (leaf Γ hi (ty Γ hi).w).getD (ty Γ hi).w = (ty Γ hi).w)
  | _, _ => true

theorem selfDetermined.atWidth {e : Expr} (h : selfDetermined e = true) (W : ℕ) : atWidth Γ W e := by
  cases e with
  | binary op l r =>
    simp only [selfDetermined,Bool.and_eq_true,Bool.not_eq_true'] at h
    simp [Sv.atWidth,h.1,h.2]
  | unary op x =>
    obtain rfl : op = .not := by simpa [selfDetermined] using h
    exact fun hne => absurd rfl hne
  | ite => simp [selfDetermined] at h
  | _ => trivial

theorem signFree.emod {e : Expr} (h : signFree e = true) (W : ℕ) (S S' : Bool) :
    eval Γ ρ e W S % 2^W = eval Γ ρ e W S' % 2^W := by
  induction e with
  | const | constWide | var | extend | svCast | cast | extract | concat =>
    simp only [eval,wrap_emod]
  | inRange | inSet | inRanges | other => simp only [eval]
  | binary op l r ihl ihr =>
    rw [signFree] at h
    by_cases ha : op.isArith = true
    · rw [if_pos ha] at h
      simp only [Bool.and_eq_true,decide_eq_true_eq] at h
      have hl := ihl h.1.2
      have hr := ihr h.2
      have hpl := pat_congr hl
      have hpr := pat_congr hr
      rw [eval_arith ha,eval_arith ha]
      cases op <;> simp_all [arith,Int.add_emod,Int.sub_emod,Int.mul_emod,BinOp.isArith]
    · rw [if_neg ha] at h
      by_cases hs : op.isShift = true
      · rw [if_pos hs] at h
        simp only [Bool.and_eq_true,decide_eq_true_eq] at h
        have hl := ihl h.2
        have hpl := pat_congr hl
        rw [eval_shift hs,eval_shift hs]
        cases op <;> simp_all [shift,Int.mul_emod,BinOp.isShift]
      · simp [eval,ha,hs]
  | unary op x ih =>
    cases op with
    | not => rw [eval_not,eval_not]
    | neg =>
      have hx : eval Γ ρ x W S ≡ eval Γ ρ x W S' [ZMOD 2^W] := ih h
      simp only [eval,wrap_emod]
      exact hx.neg
    | invert =>
      have hx : eval Γ ρ x W S ≡ eval Γ ρ x W S' [ZMOD 2^W] := ih h
      simp only [eval,wrap_emod]
      exact hx.neg.sub_right 1
  | ite c t e _ iht ihe =>
    rw [signFree,Bool.and_eq_true] at h
    rw [eval_ite,eval_ite]
    split_ifs
    · exact iht h.1
    · exact ihe h.2

theorem armOk.truth {e : Expr} {t : Ty} (hok : armOk Γ t e = true) (hm : meets Γ e none = true)
    (hw : (ty Γ e).w ≤ t.w) : eval Γ ρ e t.w t.s ≠ 0 ↔ truth Γ ρ e = true := by
  induction e generalizing t with
  | ite c a b _ iha ihb =>
    rw [armOk,Bool.and_eq_true] at hok
    simp only [meets,Option.isSome_none,Bool.false_or,Bool.and_eq_true] at hm
    obtain ⟨⟨⟨_,hma⟩,hmb⟩,hoa,hob⟩ := hm
    have hwa : (ty Γ a).w ≤ ((ty Γ a).join (ty Γ b)).w := le_max_left _ _
    have hwb : (ty Γ b).w ≤ ((ty Γ a).join (ty Γ b)).w := le_max_right _ _
    have hself : Sv.truth Γ ρ (.ite c a b) =
        if Sv.truth Γ ρ c then Sv.truth Γ ρ a else Sv.truth Γ ρ b := by
      rw [Sv.truth,ty,eval_ite]
      split_ifs with hc
      · rw [Bool.eq_iff_iff,decide_eq_true_eq]
        exact iha hoa hma hwa
      · rw [Bool.eq_iff_iff,decide_eq_true_eq]
        exact ihb hob hmb hwb
    rw [eval_ite,hself]
    split_ifs
    · exact iha hok.1 hma (hwa.trans hw)
    · exact ihb hok.2 hmb (hwb.trans hw)
  | _ =>
    simp only [armOk,Bool.or_eq_true,decide_eq_true_eq] at hok
    rcases hok with hself | rfl
    · exact eval_ne_zero_iff hself t.s hw
    · rw [Sv.truth,decide_eq_true_eq]

end Sv
end DvSolve
