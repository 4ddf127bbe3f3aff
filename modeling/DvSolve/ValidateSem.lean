import DvSolve.Validate
import DvSolve.SvSem

/-! Where the validator evaluates a node, it finds the value the sizing rules give it. -/
namespace DvSolve
namespace Validate

open TwosComp Sv
open Option (bind_eq_some_iff map_eq_some_iff)

variable {w : ℕ} {S : Bool} {n : ℕ} {e : Expr}

def Ctx.types (ctx : Ctx) : ℕ → Ty := fun id => ⟨ctx.width id,ctx.signed id⟩

/-- The values of the variables, under some reading of what the validator skips. -/
def Ctx.Reads (ctx : Ctx) (ρ : Env) : Prop := ρ.value = ctx.value

/-- What the builder documents of the nodes: constants are int64 numbers, no field is empty.
A slice satisfies `slice` of its upper end and the width it is taken from. -/
def Sized (slice : ℕ → ℕ → Prop) (Γ : ℕ → Ty) : Expr → Prop
  | .const value _ _ => -2^63 ≤ value ∧ value < 2^63
  | .constWide _ width _ => 0 < width
  | .var _ => True
  | .binary _ l r => Sized slice Γ l ∧ Sized slice Γ r
  | .unary _ x => Sized slice Γ x
  | .ite c t e => Sized slice Γ c ∧ Sized slice Γ t ∧ Sized slice Γ e
  | .inRange v lo hi => Sized slice Γ v ∧ Sized slice Γ lo ∧ Sized slice Γ hi
  | .inSet v _ elems => Sized slice Γ v ∧ ∀ i, Sized slice Γ (elems i)
  | .inRanges v _ los his => Sized slice Γ v ∧ (∀ i, Sized slice Γ (los i)) ∧ ∀ i, Sized slice Γ (his i)
  | .extend x fromBits toBits _ => Sized slice Γ x ∧ 0 < fromBits ∧ 0 < toBits
  | .svCast x fromBits toBits _ _ => Sized slice Γ x ∧ 0 < fromBits ∧ 0 < toBits
  | .cast x toBits _ => Sized slice Γ x ∧ 0 < toBits
  | .extract x hiBit loBit => Sized slice Γ x ∧ loBit ≤ hiBit ∧ slice hiBit (ty Γ x).w
  | .concat hi lo loWidth => Sized slice Γ hi ∧ Sized slice Γ lo ∧ 0 < loWidth
  | .other _ => True

def sliceHeld (hiBit w : ℕ) : Prop := hiBit < maxW ∨ w ≠ maxW

/-- How a number of `W` bits is held. -/
def held (W : ℕ) (x : ℤ) : ℤ := if W ≥ maxW then wrap x maxW true else x

theorem within_eq_some {α : Type} {W : ℕ} {x : Option α} {v : α} (h : within W x = some v) :
    W ≤ maxW ∧ x = some v := by
  unfold within at h
  split_ifs at h with hW
  exact ⟨by omega,h⟩

theorem wrap_held {W : ℕ} (hw : w ≤ maxW) (x : ℤ) (s : Bool) :
    wrap (held W x) w s = wrap x w s := by
  unfold held
  split_ifs
  · exact wrap_wrap hw true s
  · rfl

theorem wrapVI_held {W : ℕ} (hw : 0 < w) (x : ℤ) (s : Bool) :
    wrapVI (held W x) w s = held w (wrap x w s) := by
  unfold wrapVI
  split_ifs with h
  · have hle : w ≥ maxW := by omega
    rw [wrap_held (le_refl _),held,if_pos hle,wrap_wrap hle]
  · rw [wrap_held (by omega),held,if_neg (by omega)]

theorem held_of_lt {W : ℕ} (hW : W < maxW) (x : ℤ) : held W x = x := by
  rw [held,if_neg (by omega)]

theorem wrapVI_eq (hw : 0 < w) (x : ℤ) (s : Bool) : wrapVI x w s = held w (wrap x w s) := by
  rw [← wrapVI_held hw x s (W := 0),held_of_lt (by decide)]

theorem maskVU_held {W : ℕ} (hw : 0 < w) (hle : w ≤ maxW) (x : ℤ) :
    maskVU (held W x) w = pat x w := by
  have hpat : ∀ n ≤ maxW, pat (held W x) n = pat x n := by
    intro n hn
    have := congrArg (fun v => pat v n) (wrap_held (W := W) hn x true)
    simpa using this
  unfold maskVU
  split_ifs with h
  · obtain rfl : w = maxW := by omega
    exact hpat maxW (le_refl _)
  · exact hpat w hle

theorem held_signed {W : ℕ} (hle : W ≤ maxW) {x : ℤ} (h : InTy x W true ∨ x = 1) : held W x = x := by
  unfold held
  split_ifs with hW
  · obtain rfl : W = maxW := by omega
    rcases h with h | rfl
    · exact wrap_of_inTy h
    · decide
  · rfl

theorem held_ofBool (W : ℕ) (b : Bool) : held W (ofBool b) = ofBool b := by
  unfold held
  split_ifs
  · cases b <;> decide
  · rfl

theorem held_eq_zero {W : ℕ} {s : Bool} (hw : w ≤ maxW) {x : ℤ} (h : InTy x w s) :
    held W x = 0 ↔ x = 0 := by
  unfold held
  split_ifs
  · exact wrap_eq_zero h hw true
  · rfl

section Ops

variable {ρ : Env} {W : ℕ} {x y : ℤ}

theorem wrap_pat_add (x y : ℤ) (W : ℕ) (S : Bool) : wrap ((pat x W : ℤ)+pat y W) W S = wrap (x+y) W S := by
  apply wrap_congr
  rw [pat_cast,pat_cast,← Int.add_emod]

theorem wrap_pat_sub (x y : ℤ) (W : ℕ) (S : Bool) : wrap ((pat x W : ℤ)-pat y W) W S = wrap (x-y) W S := by
  apply wrap_congr
  rw [pat_cast,pat_cast,← Int.sub_emod]

theorem wrap_pat_mul (x y : ℤ) (W : ℕ) (S : Bool) : wrap ((pat x W : ℤ)*pat y W) W S = wrap (x*y) W S := by
  apply wrap_congr
  rw [pat_cast,pat_cast,← Int.mul_emod]

theorem pat_eq_zero_of_range (hW : 0 < W) (hy : InTy y W S ∨ y = 1) : pat y W = 0 ↔ y = 0 := by
  rcases hy with h | rfl
  · exact h.pat_eq_zero
  · have h1 : InTy 1 W false := inTy_bit hW (b := true)
    exact h1.pat_eq_zero

theorem arithVI_held {op : BinOp} (hW : 0 < W) (hle : W ≤ maxW) (hx : InTy x W S ∨ x = 1)
    (hy : InTy y W S ∨ y = 1) {v : ℤ} (h : arithVI op W S (held W x) (held W y) = some v) :
    v = held W (arith ρ op ⟨W,S⟩ x y) := by
  have hzero := pat_eq_zero_of_range hW hy
  have hnat : ∀ z : ℤ, InTy z W false ∨ z = 1 → (pat z W : ℤ) = z := by
    rintro z (hz | rfl)
    · exact pat_of_inTy hz (le_refl _)
    · exact pat_of_inTy (inTy_bit hW (b := true)) (le_refl _)
  unfold arithVI at h
  rw [maskVU_held hW hle,maskVU_held hW hle] at h
  cases op
  case add => rw [← Option.some.inj h,wrapVI_eq hW,wrap_pat_add]; rfl
  case sub => rw [← Option.some.inj h,wrapVI_eq hW,wrap_pat_sub]; rfl
  case mul => rw [← Option.some.inj h,wrapVI_eq hW,wrap_pat_mul]; rfl
  case band | bor | bxor => rw [← Option.some.inj h,wrapVI_eq hW]; rfl
  case div =>
    dsimp only at h
    split_ifs at h with h0 hS hb
    · subst hS
      rw [held_signed hle hy] at hb
      rw [← Option.some.inj h,held_signed hle hx,wrapVI_eq hW,arith,if_neg (hzero.not.mp h0),hb,
        Int.tdiv_neg,Int.tdiv_one]
    · subst hS
      rw [← Option.some.inj h,held_signed hle hx,held_signed hle hy,wrapVI_eq hW,arith,
        if_neg (hzero.not.mp h0)]
    · obtain rfl : S = false := by simpa using hS
      rw [← Option.some.inj h,wrapVI_eq hW,arith,if_neg (hzero.not.mp h0)]
      congr 2
      conv_rhs => rw [← hnat x hx,← hnat y hy]
      rfl
  case mod =>
    dsimp only at h
    split_ifs at h with h0 hS hb
    · subst hS
      rw [held_signed hle hy] at hb
      rw [← Option.some.inj h,arith,if_neg (hzero.not.mp h0),hb,Int.tmod_neg,Int.tmod_one,
        wrap_of_inTy (inTy_zero W true)]
      exact (held_signed hle (Or.inl (inTy_zero W true))).symm
    · subst hS
      rw [← Option.some.inj h,held_signed hle hx,held_signed hle hy,wrapVI_eq hW,arith,
        if_neg (hzero.not.mp h0)]
    · obtain rfl : S = false := by simpa using hS
      rw [← Option.some.inj h,wrapVI_eq hW,arith,if_neg (hzero.not.mp h0)]
      congr 2
      conv_rhs => rw [← hnat x hx,← hnat y hy]
      rfl
  all_goals simp at h

/-- A shift by the whole width leaves the sign. -/
theorem shiftRight_sign (hx : InTy x W S ∨ x = 1) (hW : 0 < W) (hn : n ≥ W) :
    x >>> n = if x < 0 then -1 else 0 := by
  have hp : (2^W : ℤ) ≤ 2^n := pow_le_pow_right₀ (by norm_num) hn
  have hpos := two_pow_pos n
  have h2 : (2^1 : ℤ) ≤ 2^W := pow_le_pow_right₀ (by norm_num) hW
  have hb : -2^n ≤ x ∧ x < 2^n := by
    rcases hx with h | rfl
    · unfold InTy at h
      cases S with
      | false =>
        simp only [Bool.false_eq_true,if_false] at h
        constructor <;> omega
      | true =>
        simp only [if_true] at h
        constructor <;> omega
    · constructor <;> omega
  rw [Int.shiftRight_eq_div_pow]
  push_cast
  split_ifs with hneg
  · have h1 : -1 ≤ x/2^n := Int.le_ediv_of_mul_le hpos (by omega)
    have h3 := Int.ediv_neg_of_neg_of_pos hneg hpos
    omega
  · exact Int.ediv_eq_zero_of_lt (by omega) hb.2

theorem shiftVI_held {op : BinOp} (hop : op.isShift = true) (hW : 0 < W) (hle : W ≤ maxW)
    (hx : InTy x W S ∨ x = 1) (n : ℕ) :
    shiftVI op W S (held W x) n = held W (shift op ⟨W,S⟩ x n) := by
  have hzero : held W 0 = 0 := held_ofBool W false
  have hright : ∀ m ≥ W, wrap ((pat x W >>> m : ℕ) : ℤ) W S = 0 := by
    intro m hm
    have : pat x W >>> m = 0 := by
      rw [Nat.shiftRight_eq_div_pow]
      exact Nat.div_eq_of_lt ((pat_lt x W).trans_le (Nat.pow_le_pow_right (by decide) hm))
    rw [this]
    exact wrap_of_inTy (inTy_zero W S)
  unfold shiftVI
  split_ifs with ha hn hneg hn hl
  · obtain ⟨rfl,rfl⟩ := ha
    rw [held_signed hle hx] at hneg
    rw [shift,if_pos rfl,shiftRight_sign hx hW hn,if_pos hneg,held_signed hle]
    left
    have h2 : (2^1 : ℤ) ≤ 2^W := pow_le_pow_right₀ (by norm_num) hW
    simp only [InTy,if_true]
    constructor <;> omega
  · obtain ⟨rfl,rfl⟩ := ha
    rw [held_signed hle hx] at hneg
    rw [shift,if_pos rfl,shiftRight_sign hx hW hn,if_neg hneg,hzero]
  · obtain ⟨rfl,rfl⟩ := ha
    rw [held_signed hle hx]
    exact (held_signed hle (shiftRight_range hx n)).symm
  · have hval : shift op ⟨W,S⟩ x n = 0 := by
      cases op with
      | lshift =>
        have hdvd : (2^W : ℤ) ∣ x*2^n := Dvd.dvd.mul_left (pow_dvd_pow 2 hn) x
        have he : x*2^n % 2^W = 0 % 2^W := by rw [Int.emod_eq_zero_of_dvd hdvd]; simp
        exact (wrap_congr he S).trans (wrap_of_inTy (inTy_zero W S))
      | rshift => exact hright n hn
      | ashr =>
        have hS : S = false := by simpa using ha
        subst hS
        exact hright n hn
      | _ => simp [BinOp.isShift] at hop
    rw [hval,hzero]
  · subst hl
    rw [maskVU_held hW hle,wrapVI_eq hW]
    congr 1
    apply wrap_congr
    rw [Nat.shiftLeft_eq]
    push_cast
    rw [pat_cast,Int.mul_emod,Int.emod_emod_of_dvd _ (dvd_refl _),← Int.mul_emod]
  · rw [maskVU_held hW hle,wrapVI_eq hW]
    congr 1
    cases op with
    | lshift => exact absurd rfl hl
    | rshift => rfl
    | ashr =>
      have hS : S = false := by simpa using ha
      subst hS
      rfl
    | _ => simp [BinOp.isShift] at hop

end Ops

section Nodes

variable {ctx : Ctx} {ρ : Env}

theorem vtype_eq {t : Ty} (h : vtype ctx e = some t) : t = ty ctx.types e := by
  induction e generalizing t with
  | var varId =>
    rw [vtype] at h
    split_ifs at h
    exact (Option.some.inj h).symm
  | binary op l r ihl ihr =>
    rw [vtype] at h
    rw [ty]
    split_ifs at h ⊢
    · obtain ⟨a,ha,h⟩ := bind_eq_some_iff.mp h
      obtain ⟨b,hb,rfl⟩ := map_eq_some_iff.mp h
      rw [ihl ha,ihr hb]
    · exact ihl h
    · exact (Option.some.inj h).symm
  | unary op x ih =>
    rw [vtype] at h
    rw [ty]
    by_cases hop : op = .not
    · rw [if_neg (not_not.mpr hop)] at h
      rw [if_pos hop]
      exact (Option.some.inj h).symm
    · rw [if_pos hop] at h
      rw [if_neg hop]
      exact ih h
  | ite c t e _ iht ihe =>
    obtain ⟨a,ha,h⟩ := bind_eq_some_iff.mp h
    obtain ⟨b,hb,rfl⟩ := map_eq_some_iff.mp h
    rw [ty,iht ha,ihe hb]
  | extend x _ _ _ ih | concat x _ _ ih _ =>
    obtain ⟨a,ha,rfl⟩ := map_eq_some_iff.mp h
    rw [ty,ih ha]
  | _ => exact (Option.some.inj h).symm

/-- What the validator holds for `e` is what the rules give it. -/
def Agrees (ctx : Ctx) (ρ : Env) (e : Expr) : Prop :=
  ∀ W S v, 0 < W → ev ctx e W S = some v → v = held W (eval ctx.types ρ e W S)

theorem Agrees.truthOf (h : Agrees ctx ρ e) {b : Bool}
    (hb : truthOf (vtype ctx e) (ev ctx e) = some b) : b = truth ctx.types ρ e := by
  obtain ⟨t,ht,hb⟩ := bind_eq_some_iff.mp hb
  obtain rfl := vtype_eq ht
  split_ifs at hb with hw
  obtain ⟨v,hv,rfl⟩ := map_eq_some_iff.mp hb
  rw [h _ _ v (ty_w_pos _ e) hv,truth]
  congr 1
  exact propext (held_eq_zero (by omega) (eval_inTy_own e)).not

theorem Agrees.cmpOf {l r : Expr} (hl : Agrees ctx ρ l) (hr : Agrees ctx ρ r) {op : BinOp} {b : Bool}
    (hb : cmpOf op (vtype ctx l) (vtype ctx r) (ev ctx l) (ev ctx r) = some b) :
    b = cmpVal op
      (eval ctx.types ρ l ((ty ctx.types l).join (ty ctx.types r)).w
        ((ty ctx.types l).join (ty ctx.types r)).s)
      (eval ctx.types ρ r ((ty ctx.types l).join (ty ctx.types r)).w
        ((ty ctx.types l).join (ty ctx.types r)).s) := by
  obtain ⟨a,ha,hb⟩ := bind_eq_some_iff.mp hb
  obtain ⟨c,hc,hb⟩ := bind_eq_some_iff.mp hb
  obtain rfl := vtype_eq ha
  obtain rfl := vtype_eq hc
  have hpos : 0 < max (ty ctx.types l).w (ty ctx.types r).w := lt_max_of_lt_left (ty_w_pos _ l)
  by_cases hw : max (ty ctx.types l).w (ty ctx.types r).w > maxW
  · rw [if_pos hw] at hb
    exact absurd hb (by simp)
  rw [if_neg hw] at hb
  obtain ⟨x,hx,hb⟩ := bind_eq_some_iff.mp hb
  obtain ⟨y,hy,hb⟩ := bind_eq_some_iff.mp hb
  rw [Ty.join_w,Ty.join_s]
  generalize hS : ((ty ctx.types l).s && (ty ctx.types r).s) = S at hx hy hb
  generalize max (ty ctx.types l).w (ty ctx.types r).w = W at hx hy hb hpos hw
  have hle : W ≤ maxW := by omega
  have hX : InTy (eval ctx.types ρ l W S) W S := eval_inTy hpos fun h => by
    rw [h,Bool.and_eq_true] at hS
    exact hS.1
  have hY : InTy (eval ctx.types ρ r W S) W S := eval_inTy hpos fun h => by
    rw [h,Bool.and_eq_true] at hS
    exact hS.2
  rw [hl W S x hpos hx,hr W S y hpos hy,maskVU_held hpos hle,maskVU_held hpos hle] at hb
  generalize eval ctx.types ρ l W S = X at hX hb
  generalize eval ctx.types ρ r W S = Y at hY hb
  have hinj := hX.pat_inj hY
  -- an unsigned number is its pattern, a signed one is held as it is
  cases S with
  | false =>
    have h1 := pat_of_inTy hX (le_refl W)
    have h2 := pat_of_inTy hY (le_refl W)
    cases op <;> simp only [Option.some.injEq,reduceCtorEq,Bool.false_eq_true,if_false] at hb <;>
      rw [← hb,cmpVal,decide_eq_decide]
    case eq => exact hinj
    case neq => exact hinj.not
    all_goals omega
  | true =>
    rw [held_signed hle (Or.inl hX),held_signed hle (Or.inl hY)] at hb
    cases op <;> simp only [Option.some.injEq,reduceCtorEq,if_true] at hb <;>
      rw [← hb,cmpVal,decide_eq_decide]
    case eq => exact hinj
    case neq => exact hinj.not

theorem wrapVI_wrapVI {W : ℕ} (hw : 0 < w) (hW : 0 < W) (x : ℤ) (s S : Bool) :
    wrapVI (wrapVI x w s) W S = held W (wrap (wrap x w s) W S) := by
  rw [wrapVI_eq hw,wrapVI_held hW]

/-- The bits an extension takes of a number held, read at the type it has. -/
theorem wrapVI_extend {ow fromBits toBits W : ℕ} {o : ℤ} (hf : 0 < fromBits) (ht : 0 < toBits)
    (hle : toBits ≤ maxW) (hW : 0 < W) (sext s S : Bool) :
    wrapVI (wrapVI (if sext then wrapVI (held ow o) fromBits sext
        else maskVU (wrapVI (held ow o) fromBits sext) fromBits) toBits s) W S =
      held W (wrap (wrap (wrap o fromBits sext) toBits s) W S) := by
  have hbits : wrap (if sext then wrapVI (held ow o) fromBits sext
      else maskVU (wrapVI (held ow o) fromBits sext) fromBits) toBits s =
      wrap (wrap o fromBits sext) toBits s := by
    rw [wrapVI_held hf]
    split_ifs with hs
    · exact wrap_held hle _ _
    · obtain rfl : sext = false := by simpa using hs
      rcases Nat.lt_or_ge fromBits maxW with hlt | hge
      · rw [maskVU_held hf hlt.le,pat_wrap,← wrap_false]
      · have hmask : maskVU (held fromBits (wrap o fromBits false)) fromBits =
            pat (wrap o fromBits false) maxW := by
          unfold maskVU
          rw [if_pos (Or.inr hge),held,if_pos hge,pat_wrap]
        rw [hmask,← wrap_false,wrap_wrap hle]
  rw [wrapVI_eq ht,hbits,wrapVI_held hW]

theorem Agrees.own (h : Agrees ctx ρ e) {t : Ty} (ht : vtype ctx e = some t) {v : ℤ}
    (hv : ev ctx e t.w t.s = some v) :
    t = ty ctx.types e ∧ v = held t.w (eval ctx.types ρ e (ty ctx.types e).w (ty ctx.types e).s) := by
  obtain rfl := vtype_eq ht
  exact ⟨rfl,h _ _ v (ty_w_pos _ e) hv⟩

theorem held_modEq {W : ℕ} (hle : W ≤ maxW) (x : ℤ) : held W x ≡ x [ZMOD 2^W] := by
  have := congrArg (fun v => v % 2^W) (wrap_held (W := W) hle x true)
  simp only [wrap_emod] at this
  exact this

theorem ofBool_any_foldr (f : Fin n → Option Bool) (g : Fin n → Bool)
    (h : ∀ i b, f i = some b → b = g i) (is : List (Fin n)) {v : ℤ}
    (hv : is.foldr (fun i rest => (f i).bind fun b => if b then some 1 else rest) (some 0) = some v) :
    v = ofBool (is.any g) := by
  induction is with
  | nil => exact (Option.some.inj hv).symm
  | cons i is ih =>
    obtain ⟨b,hb,hv⟩ := bind_eq_some_iff.mp hv
    rw [List.any_cons,← h i b hb]
    cases b with
    | true => exact (Option.some.inj hv).symm
    | false => exact ih hv

theorem agrees_const (value : ℤ) (width : ℕ) (isSigned : Bool) :
    Agrees ctx ρ (.const value width isSigned) := by
  intro W S v hW h
  obtain ⟨_,h⟩ := within_eq_some h
  obtain ⟨_,h⟩ := within_eq_some h
  rw [← Option.some.inj h,wrapVI_wrapVI (constType_w_pos _ _ _) hW]
  rfl

theorem agrees_constWide (bits : ℕ) {width : ℕ} (hwidth : 0 < width) (isSigned : Bool) :
    Agrees ctx ρ (.constWide bits width isSigned) := by
  intro W S v hW h
  obtain ⟨_,h⟩ := within_eq_some h
  obtain ⟨_,h⟩ := within_eq_some h
  rw [← Option.some.inj h,wrapVI_wrapVI hwidth hW,eval,Ty.fix_w (by exact hwidth)]

theorem agrees_var (hρ : ctx.Reads ρ) (varId : ℕ) : Agrees ctx ρ (.var varId) := by
  intro W S v hW h
  obtain ⟨_,h⟩ := within_eq_some h
  by_cases hskip : varId ≥ ctx.nVars ∨ ctx.width varId > 64
  · rw [if_pos hskip] at h
    exact absurd h (by simp)
  rw [if_neg hskip] at h
  rw [← Option.some.inj h]
  have hpos := ctx.width_pos varId
  have hw : (Ctx.types ctx varId).fix.w = ctx.width varId := Ty.fix_w (by exact hpos)
  have hs : (Ctx.types ctx varId).fix.s = ctx.signed varId := Ty.fix_s _
  rw [wrapVI_wrapVI hpos hW,eval,hw,hs,hρ]
  congr 2
  cases ctx.signed varId with
  | true => rfl
  | false =>
    apply wrap_congr
    have hdvd : (2^ctx.width varId : ℤ) ∣ 2^64 := pow_dvd_pow 2 (by omega)
    exact Int.emod_emod_of_dvd _ hdvd

theorem agrees_binary (op : BinOp) {l r : Expr} (hl : Agrees ctx ρ l) (hr : Agrees ctx ρ r) :
    Agrees ctx ρ (.binary op l r) := by
  intro W S v hW h
  obtain ⟨hle,h⟩ := within_eq_some h
  by_cases ha : op.isArith = true
  · rw [if_pos ha] at h
    obtain ⟨a,ha',h⟩ := bind_eq_some_iff.mp h
    obtain ⟨b,hb',h⟩ := bind_eq_some_iff.mp h
    rw [hl W S a hW ha',hr W S b hW hb'] at h
    rw [eval_arith ha]
    exact arithVI_held hW hle ((eval_range l W S).imp_right And.left)
      ((eval_range r W S).imp_right And.left) h
  rw [if_neg ha] at h
  by_cases hs : op.isShift = true
  · rw [if_pos hs] at h
    obtain ⟨a,ha',h⟩ := bind_eq_some_iff.mp h
    obtain ⟨rt,hrt,h⟩ := bind_eq_some_iff.mp h
    obtain ⟨hrw,h⟩ := within_eq_some h
    obtain ⟨n,hn,rfl⟩ := map_eq_some_iff.mp h
    obtain ⟨rfl,rfl⟩ := hr.own hrt hn
    rw [hl W S a hW ha',eval_shift hs,maskVU_held (ty_w_pos _ r) hrw]
    exact shiftVI_held hs hW hle ((eval_range l W S).imp_right And.left) _
  rw [if_neg hs] at h
  by_cases hc : op.isCmp = true
  · rw [if_pos hc] at h
    obtain ⟨b,hb,rfl⟩ := map_eq_some_iff.mp h
    rw [eval_cmp hc,hl.cmpOf hr hb]
    exact (held_ofBool W _).symm
  rw [if_neg hc] at h
  obtain ⟨x,hx,h⟩ := bind_eq_some_iff.mp h
  obtain ⟨y,hy,rfl⟩ := map_eq_some_iff.mp h
  rw [hl.truthOf hx,hr.truthOf hy]
  cases op with
  | and =>
    rw [eval_and,held_ofBool]
    rfl
  | or =>
    rw [eval_or,held_ofBool]
    rfl
  | _ => simp [BinOp.isArith,BinOp.isShift,BinOp.isCmp] at ha hs hc

theorem agrees_unary (op : UnOp) {x : Expr} (hx : Agrees ctx ρ x) : Agrees ctx ρ (.unary op x) := by
  intro W S v hW h
  obtain ⟨hle,h⟩ := within_eq_some h
  cases op with
  | not =>
    obtain ⟨b,hb,rfl⟩ := map_eq_some_iff.mp h
    rw [hx.truthOf hb,eval_not,held_ofBool]
  | neg =>
    obtain ⟨a,ha,rfl⟩ := map_eq_some_iff.mp h
    rw [hx W S a hW ha,wrapVI_eq hW,eval]
    congr 1
    exact wrap_congr (held_modEq hle _).neg S
  | invert =>
    obtain ⟨a,ha,rfl⟩ := map_eq_some_iff.mp h
    rw [hx W S a hW ha,wrapVI_eq hW,eval]
    congr 1
    exact wrap_congr ((held_modEq hle _).neg.sub_right 1) S

theorem agrees_ite {c t : Expr} (hc : Agrees ctx ρ c) (ht : Agrees ctx ρ t) (he : Agrees ctx ρ e) :
    Agrees ctx ρ (.ite c t e) := by
  intro W S v hW h
  obtain ⟨_,h⟩ := within_eq_some h
  obtain ⟨b,hb,h⟩ := bind_eq_some_iff.mp h
  rw [eval_ite,← hc.truthOf hb]
  cases b with
  | true => exact ht W S v hW h
  | false => exact he W S v hW h

theorem agrees_inRange {x lo hi : Expr} (hx : Agrees ctx ρ x) (hlo : Agrees ctx ρ lo)
    (hhi : Agrees ctx ρ hi) : Agrees ctx ρ (.inRange x lo hi) := by
  intro W S v hW h
  obtain ⟨_,h⟩ := within_eq_some h
  obtain ⟨a,ha,h⟩ := bind_eq_some_iff.mp h
  obtain ⟨b,hb,rfl⟩ := map_eq_some_iff.mp h
  simp only [eval]
  rw [hx.cmpOf hlo ha,hx.cmpOf hhi hb,held_ofBool,Bool.decide_and,Bool.decide_eq_true,Bool.decide_eq_true]

theorem agrees_inSet {x : Expr} {elems : Fin n → Expr} (hx : Agrees ctx ρ x)
    (he : ∀ i, Agrees ctx ρ (elems i)) : Agrees ctx ρ (.inSet x n elems) := by
  intro W S v hW h
  obtain ⟨_,h⟩ := within_eq_some h
  simp only [eval]
  rw [held_ofBool]
  exact ofBool_any_foldr _ _ (fun i b hb => hx.cmpOf (he i) hb) _ h

theorem agrees_inRanges {x : Expr} {los his : Fin n → Expr} (hx : Agrees ctx ρ x)
    (hlo : ∀ i, Agrees ctx ρ (los i)) (hhi : ∀ i, Agrees ctx ρ (his i)) :
    Agrees ctx ρ (.inRanges x n los his) := by
  intro W S v hW h
  obtain ⟨_,h⟩ := within_eq_some h
  simp only [eval]
  rw [held_ofBool]
  refine ofBool_any_foldr (fun i =>
    (cmpOf .gte (vtype ctx x) (vtype ctx (los i)) (ev ctx x) (ev ctx (los i))).bind fun a =>
      if a then cmpOf .lte (vtype ctx x) (vtype ctx (his i)) (ev ctx x) (ev ctx (his i))
      else some false) _ (fun i b hb => ?_) _ ?_
  · obtain ⟨a,ha,hb⟩ := bind_eq_some_iff.mp hb
    rw [← hx.cmpOf (hlo i) ha]
    cases a with
    | true =>
      rw [Bool.true_and]
      exact hx.cmpOf (hhi i) hb
    | false => exact (Option.some.inj hb).symm
  · rw [← h]
    congr 1
    funext i rest
    cases cmpOf .gte (vtype ctx x) (vtype ctx (los i)) (ev ctx x) (ev ctx (los i)) with
    | none => rfl
    | some a => cases a <;> rfl

theorem agrees_extend {x : Expr} {fromBits toBits : ℕ} (hf : 0 < fromBits) (ht : 0 < toBits)
    (hx : Agrees ctx ρ x) (signExtend : Bool) : Agrees ctx ρ (.extend x fromBits toBits signExtend) := by
  intro W S v hW h
  obtain ⟨_,h⟩ := within_eq_some h
  obtain ⟨ot,hot,h⟩ := bind_eq_some_iff.mp h
  by_cases hskip : ot.w > maxW ∨ toBits > maxW ∨ fromBits = 0
  · rw [if_pos hskip] at h
    exact absurd h (by simp)
  rw [if_neg hskip] at h
  obtain ⟨o,ho,rfl⟩ := map_eq_some_iff.mp h
  obtain ⟨rfl,rfl⟩ := hx.own hot ho
  simp only [eval,Ty.fix_s]
  rw [Ty.fix_w (by exact ht)]
  exact wrapVI_extend hf ht (by omega) hW _ _ _

theorem agrees_svCast {x : Expr} {fromBits toBits : ℕ} (hf : 0 < fromBits) (ht : 0 < toBits)
    (hx : Agrees ctx ρ x) (signExtend dstSigned : Bool) :
    Agrees ctx ρ (.svCast x fromBits toBits signExtend dstSigned) := by
  intro W S v hW h
  obtain ⟨_,h⟩ := within_eq_some h
  obtain ⟨ot,hot,h⟩ := bind_eq_some_iff.mp h
  by_cases hskip : ot.w > maxW ∨ toBits > maxW ∨ fromBits = 0
  · rw [if_pos hskip] at h
    exact absurd h (by simp)
  rw [if_neg hskip] at h
  obtain ⟨o,ho,rfl⟩ := map_eq_some_iff.mp h
  obtain ⟨rfl,rfl⟩ := hx.own hot ho
  simp only [eval,Ty.fix_s]
  rw [Ty.fix_w (by exact ht)]
  exact wrapVI_extend hf ht (by omega) hW _ _ _

theorem agrees_cast {x : Expr} {toBits : ℕ} (ht : 0 < toBits) (hx : Agrees ctx ρ x) (toSigned : Bool) :
    Agrees ctx ρ (.cast x toBits toSigned) := by
  intro W S v hW h
  obtain ⟨_,h⟩ := within_eq_some h
  obtain ⟨ot,hot,h⟩ := bind_eq_some_iff.mp h
  obtain ⟨_,h⟩ := within_eq_some h
  obtain ⟨o,ho,rfl⟩ := map_eq_some_iff.mp h
  obtain rfl := vtype_eq hot
  have hpos : 0 < max (ty ctx.types x).w toBits := lt_max_of_lt_left (ty_w_pos _ x)
  simp only [eval,Ty.fix_s]
  rw [hx _ _ o hpos ho,Ty.fix_w (by exact ht),wrapVI_held ht,wrapVI_held hW]

/-- The slices of congruent numbers agree where the congruence reaches. -/
theorem shiftRight_modEq {a b : ℤ} {lo : ℕ} (h : a ≡ b [ZMOD 2^w]) (hn : lo+n ≤ w) :
    a >>> lo ≡ b >>> lo [ZMOD 2^n] := by
  obtain ⟨k,hk⟩ := h.dvd
  have hpow : (2^w : ℤ) = 2^lo*(2^n*2^(w-lo-n)) := by
    rw [← pow_add,← pow_add]
    congr 1
    omega
  have hb : b = a+2^lo*(2^n*(2^(w-lo-n)*k)) := by
    rw [hpow] at hk
    linear_combination hk
  rw [Int.shiftRight_eq_div_pow,Int.shiftRight_eq_div_pow,hb]
  push_cast
  rw [Int.add_mul_ediv_left _ _ (two_pow_pos lo).ne']
  exact (Int.modEq_iff_dvd.mpr ⟨_,by rw [add_sub_cancel_left]⟩)

theorem agrees_extract {x : Expr} {hiBit loBit : ℕ} (hle : loBit ≤ hiBit)
    (hin : sliceHeld hiBit (ty ctx.types x).w) (hx : Agrees ctx ρ x) :
    Agrees ctx ρ (.extract x hiBit loBit) := by
  intro W S v hW h
  obtain ⟨_,h⟩ := within_eq_some h
  obtain ⟨ot,hot,h⟩ := bind_eq_some_iff.mp h
  obtain ⟨hw,h⟩ := within_eq_some h
  obtain ⟨o,ho,rfl⟩ := map_eq_some_iff.mp h
  obtain ⟨rfl,rfl⟩ := hx.own hot ho
  have hn : 0 < hiBit+1-loBit := by omega
  have hrange := eval_inTy_own (Γ := ctx.types) (ρ := ρ) x
  simp only [eval]
  rw [Ty.fix_w (by exact hn),wrapVI_eq hn,wrapVI_held hW]
  congr 2
  generalize eval ctx.types ρ x (ty ctx.types x).w (ty ctx.types x).s = o at hrange
  have hpos := ty_w_pos ctx.types x
  generalize ty ctx.types x = t at hw hin hrange hpos
  apply wrap_congr
  rcases Nat.lt_or_ge t.w maxW with hlt | hge
  · rw [held_of_lt hlt]
    split_ifs with hlo hneg
    · rfl
    · rw [shiftRight_sign (Or.inl hrange) hpos (by omega),if_pos hneg]
    · rw [shiftRight_sign (Or.inl hrange) hpos (by omega),if_neg hneg]
  · have hhi : hiBit < maxW := hin.resolve_right (by omega)
    rw [if_pos (by omega)]
    exact shiftRight_modEq (held_modEq (by omega) o) (by omega)

theorem agrees_concat {hi lo : Expr} {loWidth : ℕ} (hlw : 0 < loWidth) (hh : Agrees ctx ρ hi)
    (hl : Agrees ctx ρ lo) : Agrees ctx ρ (.concat hi lo loWidth) := by
  intro W S v hW h
  obtain ⟨_,h⟩ := within_eq_some h
  obtain ⟨ht,hht,h⟩ := bind_eq_some_iff.mp h
  obtain ⟨lt,hlt,h⟩ := bind_eq_some_iff.mp h
  by_cases hskip : ht.w+loWidth > maxW ∨ lt.w > maxW
  · rw [if_pos hskip] at h
    exact absurd h (by simp)
  rw [if_neg hskip] at h
  obtain ⟨x,hx,h⟩ := bind_eq_some_iff.mp h
  obtain ⟨y,hy,rfl⟩ := map_eq_some_iff.mp h
  obtain ⟨rfl,rfl⟩ := hh.own hht hx
  obtain ⟨rfl,rfl⟩ := hl.own hlt hy
  have hpos : 0 < (ty ctx.types hi).w+loWidth := by omega
  simp only [eval]
  rw [Ty.fix_w (by exact hpos),maskVU_held (ty_w_pos _ hi) (by omega),maskVU_held hlw (by omega),
    ← Nat.shiftLeft_add_eq_or_of_lt (pat_lt _ _),Nat.shiftLeft_eq,wrapVI_wrapVI hpos hW]

/-- Where the validator does not skip a node, it holds the value the rules give it. -/
theorem ev_agrees (hsized : Sized sliceHeld ctx.types e) (hρ : ctx.Reads ρ) : Agrees ctx ρ e := by
  induction e with
  | const value width isSigned => exact agrees_const value width isSigned
  | constWide bits width isSigned => exact agrees_constWide bits hsized isSigned
  | var varId => exact agrees_var hρ varId
  | binary op l r ihl ihr => exact agrees_binary op (ihl hsized.1) (ihr hsized.2)
  | unary op x ih => exact agrees_unary op (ih hsized)
  | ite c t e ihc iht ihe => exact agrees_ite (ihc hsized.1) (iht hsized.2.1) (ihe hsized.2.2)
  | inRange x lo hi ihx ihlo ihhi =>
    exact agrees_inRange (ihx hsized.1) (ihlo hsized.2.1) (ihhi hsized.2.2)
  | inSet x n elems ihx ihe => exact agrees_inSet (ihx hsized.1) fun i => ihe i (hsized.2 i)
  | inRanges x n los his ihx ihlo ihhi =>
    exact agrees_inRanges (ihx hsized.1) (fun i => ihlo i (hsized.2.1 i))
      fun i => ihhi i (hsized.2.2 i)
  | extend x fromBits toBits signExtend ih =>
    exact agrees_extend hsized.2.1 hsized.2.2 (ih hsized.1) signExtend
  | svCast x fromBits toBits signExtend dstSigned ih =>
    exact agrees_svCast hsized.2.1 hsized.2.2 (ih hsized.1) signExtend dstSigned
  | cast x toBits toSigned ih => exact agrees_cast hsized.2 (ih hsized.1) toSigned
  | extract x hiBit loBit ih => exact agrees_extract hsized.2.1 hsized.2.2 (ih hsized.1)
  | concat hi lo loWidth ihh ihl => exact agrees_concat hsized.2.2 (ihh hsized.1) (ihl hsized.2.1)
  | other => exact fun _ _ _ _ h => absurd h (by simp [ev])

theorem verdict_eq (hsized : Sized sliceHeld ctx.types e) (hρ : ctx.Reads ρ) {b : Bool}
    (h : verdict ctx e = some b) : b = truth ctx.types ρ e :=
  (ev_agrees hsized hρ).truthOf h

end Nodes

end Validate
end DvSolve
