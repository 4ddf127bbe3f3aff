import DvSolve.TwosComp

/-! Expressions of the builder API (`dvs_problem.h`) and the sizing rules of `dvs_sv.h`:
every node has a type of its own, operators are evaluated in a context. -/
namespace DvSolve
namespace Sv

open TwosComp

inductive BinOp
  | add | sub | mul | div | mod | band | bor | bxor
  | lshift | rshift | ashr
  | eq | neq | lt | lte | gt | gte
  | and | or
  deriving DecidableEq, Repr

inductive UnOp
  | neg | not | invert
  deriving DecidableEq, Repr

def BinOp.isArith : BinOp → Bool
  | .add | .sub | .mul | .div | .mod | .band | .bor | .bxor => true
  | _ => false

def BinOp.isShift : BinOp → Bool
  | .lshift | .rshift | .ashr => true
  | _ => false

def BinOp.isCmp : BinOp → Bool
  | .eq | .neq | .lt | .lte | .gt | .gte => true
  | _ => false

structure Ty where
  w : ℕ
  s : Bool
  deriving DecidableEq, Repr

/-- `ExprKind` with the fields of each node. A sum, a count, a logarithm and an array
selection are one constructor: no function here reads their fields. -/
inductive Expr
  | const (value : ℤ) (width : ℕ) (isSigned : Bool)
  | constWide (bits width : ℕ) (isSigned : Bool)
  | var (varId : ℕ)
  | binary (op : BinOp) (lhs rhs : Expr)
  | unary (op : UnOp) (operand : Expr)
  | ite (cond thenE elseE : Expr)
  | inRange (value lo hi : Expr)
  | inSet (value : Expr) (n : ℕ) (elems : Fin n → Expr)
  | inRanges (value : Expr) (n : ℕ) (los his : Fin n → Expr)
  | extend (operand : Expr) (fromBits toBits : ℕ) (signExtend : Bool)
  | svCast (operand : Expr) (fromBits toBits : ℕ) (signExtend dstSigned : Bool)
  | cast (operand : Expr) (toBits : ℕ) (toSigned : Bool)
  | extract (operand : Expr) (hiBit loBit : ℕ)
  | concat (hi lo : Expr) (loWidth : ℕ)
  | other (ref : ℕ)

def constType (value : ℤ) (width : ℕ) (isSigned : Bool) : Ty :=
  if width ≠ 0 then ⟨width,isSigned⟩
  else if -2^31 ≤ value ∧ value < 2^31 then ⟨32,true⟩
  else if !isSigned ∧ 0 ≤ value ∧ value < 2^32 then ⟨32,false⟩
  else ⟨64,value < 0 || isSigned⟩

def Ty.fix (t : Ty) : Ty := if t.w = 0 then ⟨1,t.s⟩ else t

def Ty.join (a b : Ty) : Ty := ⟨max a.w b.w,a.s && b.s⟩

def boolTy : Ty := ⟨1,false⟩

def ty (Γ : ℕ → Ty) : Expr → Ty
  | .const value width isSigned => constType value width isSigned
  | .constWide _ width isSigned => Ty.fix ⟨width,isSigned⟩
  | .var varId => (Γ varId).fix
  | .binary op l r =>
    if op.isArith then (ty Γ l).join (ty Γ r) else if op.isShift then ty Γ l else boolTy
  | .unary op x => if op = .not then boolTy else ty Γ x
  | .ite _ t e => (ty Γ t).join (ty Γ e)
  | .extend x _ toBits _ => Ty.fix ⟨toBits,(ty Γ x).s⟩
  | .svCast _ _ toBits _ dstSigned => Ty.fix ⟨toBits,dstSigned⟩
  | .cast _ toBits toSigned => Ty.fix ⟨toBits,toSigned⟩
  | .extract _ hiBit loBit => Ty.fix ⟨hiBit+1-loBit,false⟩
  | .concat hi _ loWidth => Ty.fix ⟨(ty Γ hi).w+loWidth,false⟩
  | _ => boolTy

/-- An assignment, with what a division by zero gives and which of the other relations hold. -/
structure Env where
  value : ℕ → ℤ
  divZero : Ty → ℤ → ℤ
  modZero : Ty → ℤ → ℤ
  other : ℕ → Bool

def arith (ρ : Env) (op : BinOp) (t : Ty) (a b : ℤ) : ℤ :=
  match op with
  | .add => wrap (a+b) t.w t.s
  | .sub => wrap (a-b) t.w t.s
  | .mul => wrap (a*b) t.w t.s
  | .div => wrap (if b = 0 then ρ.divZero t a else a.tdiv b) t.w t.s
  | .mod => wrap (if b = 0 then ρ.modZero t a else a.tmod b) t.w t.s
  | .band => wrap ((pat a t.w &&& pat b t.w : ℕ) : ℤ) t.w t.s
  | .bor => wrap ((pat a t.w ||| pat b t.w : ℕ) : ℤ) t.w t.s
  | .bxor => wrap ((pat a t.w ^^^ pat b t.w : ℕ) : ℤ) t.w t.s
  | _ => 0

/-- The shifts of a number of type `t`: `>>>` is arithmetic in a signed context only. -/
def shift (op : BinOp) (t : Ty) (a : ℤ) (n : ℕ) : ℤ :=
  match op with
  | .lshift => wrap (a*2^n) t.w t.s
  | .ashr => if t.s then a >>> n else wrap ((pat a t.w >>> n : ℕ) : ℤ) t.w t.s
  | _ => wrap ((pat a t.w >>> n : ℕ) : ℤ) t.w t.s

def cmpVal (op : BinOp) (a b : ℤ) : Bool :=
  match op with
  | .eq => a = b
  | .neq => a ≠ b
  | .lt => a < b
  | .lte => a ≤ b
  | .gt => b < a
  | .gte => b ≤ a
  | _ => false

def ofBool (b : Bool) : ℤ := if b then 1 else 0

def constValue (value : ℤ) (t : Ty) : ℤ := wrap (if t.s then value else value % 2^64) t.w t.s

def eval (Γ : ℕ → Ty) (ρ : Env) : Expr → ℕ → Bool → ℤ
  | .const value width isSigned, W, S =>
    wrap (constValue value (constType value width isSigned)) W S
  | .constWide bits width isSigned, W, S =>
    wrap (wrap bits (Ty.fix ⟨width,isSigned⟩).w isSigned) W S
  | .var varId, W, S => wrap (wrap (ρ.value varId) (Γ varId).fix.w (Γ varId).fix.s) W S
  | .binary op l r, W, S =>
    if op.isArith then arith ρ op ⟨W,S⟩ (eval Γ ρ l W S) (eval Γ ρ r W S)
    else if op.isShift then
      let t := ty Γ r
      shift op ⟨W,S⟩ (eval Γ ρ l W S) (pat (eval Γ ρ r t.w t.s) t.w)
    else if op.isCmp then
      let t := (ty Γ l).join (ty Γ r)
      ofBool (cmpVal op (eval Γ ρ l t.w t.s) (eval Γ ρ r t.w t.s))
    else
      let x := eval Γ ρ l (ty Γ l).w (ty Γ l).s ≠ 0
      let y := eval Γ ρ r (ty Γ r).w (ty Γ r).s ≠ 0
      ofBool (if op = .and then x ∧ y else x ∨ y)
  | .unary op x, W, S =>
    match op with
    | .not => ofBool (eval Γ ρ x (ty Γ x).w (ty Γ x).s = 0)
    | .neg => wrap (-eval Γ ρ x W S) W S
    | .invert => wrap (-eval Γ ρ x W S-1) W S
  | .ite c t e, W, S =>
    if eval Γ ρ c (ty Γ c).w (ty Γ c).s ≠ 0 then eval Γ ρ t W S else eval Γ ρ e W S
  | .inRange v lo hi, _, _ =>
    let a := (ty Γ v).join (ty Γ lo)
    let b := (ty Γ v).join (ty Γ hi)
    ofBool (cmpVal .gte (eval Γ ρ v a.w a.s) (eval Γ ρ lo a.w a.s) ∧
      cmpVal .lte (eval Γ ρ v b.w b.s) (eval Γ ρ hi b.w b.s))
  | .inSet v n elems, _, _ =>
    ofBool ((List.finRange n).any fun i =>
      let t := (ty Γ v).join (ty Γ (elems i))
      cmpVal .eq (eval Γ ρ v t.w t.s) (eval Γ ρ (elems i) t.w t.s))
  | .inRanges v n los his, _, _ =>
    ofBool ((List.finRange n).any fun i =>
      let a := (ty Γ v).join (ty Γ (los i))
      let b := (ty Γ v).join (ty Γ (his i))
      cmpVal .gte (eval Γ ρ v a.w a.s) (eval Γ ρ (los i) a.w a.s) &&
        cmpVal .lte (eval Γ ρ v b.w b.s) (eval Γ ρ (his i) b.w b.s))
  | .extend x fromBits toBits signExtend, W, S =>
    let t := ty Γ x
    let own := Ty.fix ⟨toBits,t.s⟩
    wrap (wrap (wrap (eval Γ ρ x t.w t.s) fromBits signExtend) own.w own.s) W S
  | .svCast x fromBits toBits signExtend dstSigned, W, S =>
    let t := ty Γ x
    let own := Ty.fix ⟨toBits,dstSigned⟩
    wrap (wrap (wrap (eval Γ ρ x t.w t.s) fromBits signExtend) own.w own.s) W S
  | .cast x toBits toSigned, W, S =>
    let t := ty Γ x
    let own := Ty.fix ⟨toBits,toSigned⟩
    wrap (wrap (eval Γ ρ x (max t.w own.w) t.s) own.w own.s) W S
  | .extract x hiBit loBit, W, S =>
    let t := ty Γ x
    wrap (wrap (eval Γ ρ x t.w t.s >>> loBit) (Ty.fix ⟨hiBit+1-loBit,false⟩).w false) W S
  | .concat hi lo loWidth, W, S =>
    let th := ty Γ hi
    let tl := ty Γ lo
    let bits := pat (eval Γ ρ hi th.w th.s) th.w*2^loWidth+pat (eval Γ ρ lo tl.w tl.s) loWidth
    wrap (wrap bits (Ty.fix ⟨th.w+loWidth,false⟩).w false) W S
  | .other ref, _, _ => ofBool (ρ.other ref)

def truth (Γ : ℕ → Ty) (ρ : Env) (e : Expr) : Bool := eval Γ ρ e (ty Γ e).w (ty Γ e).s ≠ 0

-- The equations of the two recursions, made once here for every module that rewrites with them.
section
attribute [local simp] eval ty
end

end Sv
end DvSolve
