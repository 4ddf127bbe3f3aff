import DvSolve.SvExpr

/-! The evaluation of expressions in the model validator (`dvs_validate.c`): numbers are held
in 128 bits, and what does not fit, divides by zero or is not modelled is skipped. -/
namespace DvSolve
namespace Validate

open TwosComp Sv

def maxW : ℕ := 128

structure Ctx where
  nVars : ℕ
  width : ℕ → ℕ
  signed : ℕ → Bool
  value : ℕ → ℤ
  width_pos : ∀ id, 0 < width id

def wrapVI (u : ℤ) (w : ℕ) (s : Bool) : ℤ :=
  if w = 0 ∨ w ≥ maxW then wrap u maxW true else wrap u w s

def maskVU (v : ℤ) (w : ℕ) : ℕ := if w = 0 ∨ w ≥ maxW then pat v maxW else pat v w

def vtype (ctx : Ctx) : Expr → Option Ty
  | .const value width isSigned => some (constType value width isSigned)
  | .constWide _ width isSigned => some (Ty.fix ⟨width,isSigned⟩)
  | .var varId =>
    if varId ≥ ctx.nVars then none else some (Ty.fix ⟨ctx.width varId,ctx.signed varId⟩)
  | .binary op l r =>
    if op.isArith then (vtype ctx l).bind fun a => (vtype ctx r).map a.join
    else if op.isShift then vtype ctx l else some boolTy
  | .unary op x => if op ≠ .not then vtype ctx x else some boolTy
  | .ite _ t e => (vtype ctx t).bind fun a => (vtype ctx e).map a.join
  | .extend x _ toBits _ => (vtype ctx x).map fun t => Ty.fix ⟨toBits,t.s⟩
  | .svCast _ _ toBits _ dstSigned => some (Ty.fix ⟨toBits,dstSigned⟩)
  | .cast _ toBits toSigned => some (Ty.fix ⟨toBits,toSigned⟩)
  | .extract _ hiBit loBit => some (Ty.fix ⟨hiBit+1-loBit,false⟩)
  | .concat hi _ loWidth => (vtype ctx hi).map fun t => Ty.fix ⟨t.w+loWidth,false⟩
  | _ => some boolTy

def truthOf (t : Option Ty) (value : ℕ → Bool → Option ℤ) : Option Bool :=
  t.bind fun t => if t.w > maxW then none else (value t.w t.s).map fun v => decide (v ≠ 0)

def cmpOf (op : BinOp) (a b : Option Ty) (l r : ℕ → Bool → Option ℤ) : Option Bool :=
  a.bind fun a => b.bind fun b =>
    let w := max a.w b.w
    let s := a.s && b.s
    if w > maxW then none
    else
      (l w s).bind fun x => (r w s).bind fun y =>
        let ux := maskVU x w
        let uy := maskVU y w
        match op with
        | .eq => some (ux = uy)
        | .neq => some (ux ≠ uy)
        | .lt => some (if s then x < y else ux < uy)
        | .lte => some (if s then x ≤ y else ux ≤ uy)
        | .gt => some (if s then x > y else ux > uy)
        | .gte => some (if s then x ≥ y else ux ≥ uy)
        | _ => none

def arithVI (op : BinOp) (W : ℕ) (S : Bool) (a b : ℤ) : Option ℤ :=
  let ua := maskVU a W
  let ub := maskVU b W
  match op with
  | .add => some (wrapVI (ua+ub) W S)
  | .sub => some (wrapVI (ua-ub) W S)
  | .mul => some (wrapVI (ua*ub) W S)
  | .band => some (wrapVI ((ua &&& ub : ℕ) : ℤ) W S)
  | .bor => some (wrapVI ((ua ||| ub : ℕ) : ℤ) W S)
  | .bxor => some (wrapVI ((ua ^^^ ub : ℕ) : ℤ) W S)
  | .div =>
    if ub = 0 then none
    else if S then
      -- the quotient of the least number by -1 wraps
      if b = -1 then some (wrapVI (-a) W S) else some (wrapVI (a.tdiv b) W S)
    else some (wrapVI ((ua/ub : ℕ) : ℤ) W S)
  | .mod =>
    if ub = 0 then none
    else if S then if b = -1 then some 0 else some (wrapVI (a.tmod b) W S)
    else some (wrapVI ((ua % ub : ℕ) : ℤ) W S)
  | _ => none

def shiftVI (op : BinOp) (W : ℕ) (S : Bool) (a : ℤ) (sh : ℕ) : ℤ :=
  if op = .ashr ∧ S then if sh ≥ W then if a < 0 then -1 else 0 else a >>> sh
  else if sh ≥ W then 0
  else
    let ua := maskVU a W
    wrapVI ((if op = .lshift then ua <<< sh else ua >>> sh : ℕ) : ℤ) W S

/-- `none` for a context wider than the numbers held. -/
def within {α : Type} (W : ℕ) (x : Option α) : Option α := if W > maxW then none else x

/-- `_ev`; `none` when the constraint is skipped. -/
def ev (ctx : Ctx) : Expr → ℕ → Bool → Option ℤ
  | .const value width isSigned, W, S =>
    within W
      (let t := constType value width isSigned
       within t.w (some (wrapVI (wrapVI (if t.s then value else value % 2^64) t.w t.s) W S)))
  | .constWide bits width isSigned, W, S =>
    within W (within width (some (wrapVI (wrapVI bits width isSigned) W S)))
  | .var varId, W, S =>
    within W
      (if varId ≥ ctx.nVars ∨ ctx.width varId > 64 then none
       else
        let v := ctx.value varId
        let own := wrapVI (if ctx.signed varId then v else v % 2^64) (ctx.width varId) (ctx.signed varId)
        some (wrapVI own W S))
  | .binary op l r, W, S =>
    within W
      (if op.isArith then
        (ev ctx l W S).bind fun a => (ev ctx r W S).bind fun b => arithVI op W S a b
      else if op.isShift then
        (ev ctx l W S).bind fun a => (vtype ctx r).bind fun rt =>
          within rt.w ((ev ctx r rt.w rt.s).map fun n => shiftVI op W S a (maskVU n rt.w))
      else if op.isCmp then
        (cmpOf op (vtype ctx l) (vtype ctx r) (ev ctx l) (ev ctx r)).map ofBool
      else
        (truthOf (vtype ctx l) (ev ctx l)).bind fun x =>
          (truthOf (vtype ctx r) (ev ctx r)).map fun y =>
            ofBool (if op = .and then x && y else x || y))
  | .unary op x, W, S =>
    within W
      (match op with
      | .not => (truthOf (vtype ctx x) (ev ctx x)).map fun b => ofBool (!b)
      | .neg => (ev ctx x W S).map fun a => wrapVI (-a) W S
      | .invert => (ev ctx x W S).map fun a => wrapVI (-a-1) W S)
  | .ite c t e, W, S =>
    within W
      ((truthOf (vtype ctx c) (ev ctx c)).bind fun b => if b then ev ctx t W S else ev ctx e W S)
  | .inRange v lo hi, W, _ =>
    within W
      ((cmpOf .gte (vtype ctx v) (vtype ctx lo) (ev ctx v) (ev ctx lo)).bind fun a =>
        (cmpOf .lte (vtype ctx v) (vtype ctx hi) (ev ctx v) (ev ctx hi)).map fun b => ofBool (a && b))
  | .inSet v n elems, W, _ =>
    within W
      ((List.finRange n).foldr (fun i rest =>
        (cmpOf .eq (vtype ctx v) (vtype ctx (elems i)) (ev ctx v) (ev ctx (elems i))).bind
          fun b => if b then some 1 else rest) (some 0))
  | .inRanges v n los his, W, _ =>
    within W
      ((List.finRange n).foldr (fun i rest =>
        (cmpOf .gte (vtype ctx v) (vtype ctx (los i)) (ev ctx v) (ev ctx (los i))).bind fun a =>
          if a then
            (cmpOf .lte (vtype ctx v) (vtype ctx (his i)) (ev ctx v) (ev ctx (his i))).bind
              fun b => if b then some 1 else rest
          else rest) (some 0))
  | .extend x fromBits toBits signExtend, W, S =>
    within W
      ((vtype ctx x).bind fun ot =>
        if ot.w > maxW ∨ toBits > maxW ∨ fromBits = 0 then none
        else (ev ctx x ot.w ot.s).map fun o =>
          let bits := wrapVI o fromBits signExtend
          let bits := if signExtend then bits else maskVU bits fromBits
          wrapVI (wrapVI bits toBits ot.s) W S)
  | .svCast x fromBits toBits signExtend dstSigned, W, S =>
    within W
      ((vtype ctx x).bind fun ot =>
        if ot.w > maxW ∨ toBits > maxW ∨ fromBits = 0 then none
        else (ev ctx x ot.w ot.s).map fun o =>
          let bits := wrapVI o fromBits signExtend
          let bits := if signExtend then bits else maskVU bits fromBits
          wrapVI (wrapVI bits toBits dstSigned) W S)
  | .cast x toBits toSigned, W, S =>
    within W
      ((vtype ctx x).bind fun ot =>
        let ow := max ot.w toBits
        within ow ((ev ctx x ow ot.s).map fun o => wrapVI (wrapVI o toBits toSigned) W S))
  | .extract x hiBit loBit, W, S =>
    within W
      ((vtype ctx x).bind fun ot =>
        within ot.w ((ev ctx x ot.w ot.s).map fun (o : ℤ) =>
          let sh := if loBit < maxW then o >>> loBit else if o < 0 then -1 else 0
          wrapVI (wrapVI sh (hiBit+1-loBit) false) W S))
  | .concat hi lo loWidth, W, S =>
    within W
      ((vtype ctx hi).bind fun ht => (vtype ctx lo).bind fun lt =>
        if ht.w+loWidth > maxW ∨ lt.w > maxW then none
        else (ev ctx hi ht.w ht.s).bind fun h => (ev ctx lo lt.w lt.s).map fun l =>
          let own := maskVU h ht.w <<< loWidth ||| maskVU l loWidth
          wrapVI (wrapVI ((own : ℕ) : ℤ) (ht.w+loWidth) false) W S)
  | .other _, _, _ => none

def verdict (ctx : Ctx) (root : Expr) : Option Bool := truthOf (vtype ctx root) (ev ctx root)

end Validate
end DvSolve
