import DvSolve.SvExpr

/-! Elaboration (`dvs_sv.c`): expressions rewritten so that every operand has the width and
signedness of its operator, and every conversion that changes a value is a node. -/
namespace DvSolve
namespace Sv

open TwosComp

def maxWidth : ℕ := 2^24

def svWrap (v : ℤ) (width : ℕ) (isSigned : Bool) : ℤ :=
  if width = 0 ∨ width ≥ 64 then v else wrap v width isSigned

/-- Two references to one node: a rewritten operand is another node. -/
def Expr.same : Expr → Expr → Bool
  | .const v w s, .const v' w' s' => v = v' ∧ w = w' ∧ s = s'
  | .constWide b w s, .constWide b' w' s' => b = b' ∧ w = w' ∧ s = s'
  | .var i, .var i' => i = i'
  | .binary op l r, .binary op' l' r' => op = op' && l.same l' && r.same r'
  | .unary op x, .unary op' x' => op = op' && x.same x'
  | .ite c t e, .ite c' t' e' => c.same c' && t.same t' && e.same e'
  | .inRange v lo hi, .inRange v' lo' hi' => v.same v' && lo.same lo' && hi.same hi'
  | .inSet v n es, .inSet v' n' es' =>
    v.same v' && if h : n = n' then (List.finRange n).all fun i => (es i).same (es' (h ▸ i)) else false
  | .inRanges v n los his, .inRanges v' n' los' his' =>
    v.same v' && if h : n = n' then
      (List.finRange n).all fun i => (los i).same (los' (h ▸ i)) && (his i).same (his' (h ▸ i))
    else false
  | .extend x f t s, .extend x' f' t' s' => x.same x' && f = f' && t = t' && s = s'
  | .svCast x f t s d, .svCast x' f' t' s' d' => x.same x' && f = f' && t = t' && s = s' && d = d'
  | .cast x t s, .cast x' t' s' => x.same x' && t = t' && s = s'
  | .extract x h l, .extract x' h' l' => x.same x' && h = h' && l = l'
  | .concat h l w, .concat h' l' w' => h.same h' && l.same l' && w = w'
  | .other i, .other i' => i = i'
  | _, _ => false

/-- One result for each index, unless one is missing. -/
def collect {n : ℕ} {α : Type} (f : Fin n → Option α) : Option (Fin n → α) :=
  if h : ∀ i, (f i).isSome then some fun i => (f i).get (h i) else none

def type (vars : ℕ → Option Ty) : ℕ → Expr → Option Ty
  | 0, _ => none
  | fuel+1, e =>
    let t : Option Ty := match e with
    | .var varId => vars varId
    | .const value width isSigned => some (constType value width isSigned)
    | .constWide _ width isSigned => if width > maxWidth then none else some ⟨width,isSigned⟩
    | .binary op l r =>
      if op.isArith then (type vars fuel l).bind fun a => (type vars fuel r).map a.join
      else if op.isShift then type vars fuel l else some boolTy
    | .unary op x => if op ≠ .not then type vars fuel x else some boolTy
    | .ite _ t e => (type vars fuel t).bind fun a => (type vars fuel e).map a.join
    | .extend x _ toBits _ => (type vars fuel x).map fun t => ⟨toBits,t.s⟩
    | .svCast _ _ toBits _ dstSigned => some ⟨toBits,dstSigned⟩
    | .cast _ toBits toSigned => some ⟨toBits,toSigned⟩
    | .extract _ hiBit loBit => if hiBit < loBit then none else some ⟨hiBit+1-loBit,false⟩
    | .concat hi _ loWidth =>
      (type vars fuel hi).bind fun t =>
        if t.w+loWidth > maxWidth then none else some ⟨t.w+loWidth,false⟩
    | _ => some boolTy
    t.map Ty.fix

def mkConst (v : ℤ) (s : Bool) (w : ℕ) : Option Expr :=
  if w > maxWidth then none else some (.const v w s)

def mkExt (x : Expr) (fromBits toBits : ℕ) (sext : Bool) : Option Expr :=
  if fromBits > maxWidth ∨ toBits > maxWidth then none else some (.extend x fromBits toBits sext)

def mkCast (x : Expr) (fromBits toBits : ℕ) (sext dstS : Bool) : Option Expr :=
  if fromBits > maxWidth ∨ toBits > maxWidth then none
  else some (.svCast x fromBits toBits sext dstS)

section Passes

-- the types of nodes, and the elaboration of a node for a target
variable (typeOf : Expr → Option Ty) (val : Expr → ℕ → Bool → Option Expr)

def conv (x : Expr) (W : ℕ) (S : Bool) : Option Expr :=
  (typeOf x).bind fun t => if t.s = S ∧ t.w ≤ W then some x else mkCast x t.w W t.s S

def widen (x : Expr) (W : ℕ) : Option Expr :=
  (typeOf x).bind fun t => if t.w ≥ W then some x else mkExt x t.w W t.s

def valConst (value : ℤ) (width : ℕ) (isSigned : Bool) (W : ℕ) (S : Bool) : Option Expr :=
  let t := constType value width isSigned
  let own := svWrap value t.w t.s
  if W ≤ 64 then
    let v := svWrap own W S
    if width = W ∧ isSigned = S ∧ value = v then some (.const value width isSigned)
    else mkConst v S W
  else if width = W ∧ isSigned = S ∧ (S ∨ value ≥ 0) then some (.const value width isSigned)
  else
    (if width = t.w ∧ isSigned = t.s ∧ value = own then some (.const value width isSigned)
      else mkConst own t.s t.w).bind fun base => conv typeOf base W S

def widenPair (l r : Expr) (W : ℕ) : Option Expr :=
  (typeOf l).bind fun lt =>
    if lt.w < W then (typeOf r).bind fun rt => if rt.w < W then widen typeOf l W else some l
    else some l

def mayBeHuge (x : Expr) : Option Bool :=
  (typeOf x).map fun t =>
    if t.w < 64 ∨ t.s then false
    else
      match x with
      | .var _ | .const .. => false
      | .extend _ fromBits _ signExtend => !(!signExtend && fromBits < 64)
      | _ => true

def flipCmp : BinOp → BinOp
  | .lt => .gt
  | .lte => .gte
  | .gt => .lt
  | .gte => .lte
  | op => op

def vmin (vt : Ty) : ℤ := if vt.s then if vt.w ≥ 64 then -2^63 else -2^(vt.w-1) else 0

def vmax (vt : Ty) : ℤ :=
  if vt.s then if vt.w ≥ 64 then 2^63-1 else 2^(vt.w-1)-1
  else if vt.w ≥ 64 then 2^64-1 else 2^vt.w-1

def rangeTruth (vop : BinOp) (vt : Ty) (cv : ℤ) : Option Bool :=
  let below := cv < vmin vt
  let above := vmax vt < cv
  let atLo := cv ≤ vmin vt
  let atHi := vmax vt ≤ cv
  match vop with
  | .eq => if below ∨ above then some false else none
  | .neq => if below ∨ above then some true else none
  | .lt => if atLo then some false else if above then some true else none
  | .lte => if below then some false else if atHi then some true else none
  | .gt => if atHi then some false else if below then some true else none
  | .gte => if above then some false else if atLo then some true else none
  | _ => none

def decided (t : Bool) : Option (Option Expr) := (mkConst (ofBool t) false 1).map some

/-- A variable compared with a number beyond every 64-bit range, below it when `neg`. -/
def beyond (vop : BinOp) (neg : Bool) : Option (Option Expr) :=
  match vop with
  | .eq => decided false
  | .neq => decided true
  | .lt | .lte => decided !neg
  | .gt | .gte => decided neg
  | _ => some none

/-- The end of `_cmp_var_wide`: the constant is `cv`, which the int64 `kv` spells. -/
def cmpVarNarrow (op : BinOp) (varLeft : Bool) (v : Expr) (vt : Ty) (kv cv : ℤ) :
    Option (Option Expr) :=
  match rangeTruth (if varLeft then op else flipCmp op) vt cv with
  | some t => decided t
  | none =>
    (mkConst kv vt.s vt.w).map fun kc =>
      some (if varLeft then .binary op v kc else .binary op kc v)

/-- `_cmp_var_wide` for the variable `v` and the constant of `width` bits; `some none` where
it does not apply. -/
def cmpVarWide (op : BinOp) (varLeft : Bool) (v : Expr) (bits width : ℕ) (isSigned S : Bool) :
    Option (Option Expr) :=
  (typeOf v).bind fun vt =>
    if vt.w > 64 ∨ (vt.s ∧ !S) then some none
    else
      let neg := isSigned && bits.testBit (width-1)
      let low := if neg then 63 else 64
      let fits := (List.range' low (width-low)).all fun i => bits.testBit i == neg
      -- extended by its sign and read unsigned, it lies beyond 64 bits
      let fits := if neg ∧ !S then false else fits
      let neg := if neg ∧ !S then false else neg
      if !fits then beyond (if varLeft then op else flipCmp op) neg
      else
        let kv := wrap bits 64 true
        cmpVarNarrow op varLeft v vt kv (if neg then kv else kv % 2^64)

def cmpWide (op : BinOp) (l0 r0 : Expr) (S : Bool) : Option (Option Expr) :=
  match l0, r0 with
  | .var id, .constWide bits width isSigned =>
    cmpVarWide typeOf op true (.var id) bits width isSigned S
  | .constWide bits width isSigned, .var id =>
    cmpVarWide typeOf op false (.var id) bits width isSigned S
  | _, _ => some none

def isConst : Expr → Bool
  | .const .. => true
  | _ => false

def cmpHuge (W : ℕ) (S : Bool) (l r : Expr) : Option (Expr × Expr) :=
  if W = 64 ∧ !S ∧ !isConst l ∧ !isConst r then
    (mayBeHuge typeOf r).bind fun hr => (if hr then widen typeOf l 64 else some l).bind fun l =>
      (mayBeHuge typeOf l).bind fun hl => (if hl then widen typeOf r 64 else some r).map fun r => (l,r)
  else some (l,r)

def cmpFold (W : ℕ) (op : BinOp) (l r : Expr) : Option (Option Bool) :=
  let fold (vop : BinOp) (v : Expr) (value : ℤ) (isSigned : Bool) :=
    (typeOf v).map fun vt =>
      if vt.w ≤ 64 then rangeTruth vop vt (if isSigned then value else value % 2^64) else none
  if W ≤ 64 then
    match l, r with
    | .var id, .const value _ isSigned => fold op (.var id) value isSigned
    | .const value _ isSigned, .var id => fold (flipCmp op) (.var id) value isSigned
    | _, _ => some none
  else some none

def cmp (op : BinOp) (l0 r0 : Expr) : Option Expr :=
  (typeOf l0).bind fun lt => (typeOf r0).bind fun rt =>
    let W := max lt.w rt.w
    let S := lt.s && rt.s
    (if W > 64 then cmpWide typeOf op l0 r0 S else some none).bind fun short =>
      match short with
      | some n => some n
      | none =>
        (val l0 W S).bind fun l => (val r0 W S).bind fun r =>
          (cmpHuge typeOf W S l r).bind fun (l,r) =>
            (cmpFold typeOf W op l r).bind fun t =>
              match t with
              | some t => mkConst (ofBool t) false 1
              | none => some (.binary op l r)

def nonzero (e : Expr) : Option Expr :=
  (typeOf e).bind fun t => (mkConst 0 t.s t.w).bind fun z => cmp typeOf val .neq e z

def inKeepable (v : Expr) (items : List Expr) : Option Bool :=
  match v with
  | .var _ =>
    (typeOf v).bind fun vt =>
      items.foldr (fun item rest =>
        (typeOf item).bind fun it =>
          if (vt.s && it.s) ≠ vt.s then some false
          else if !vt.s ∧ (it.w ≥ 64 ∨ vt.w ≥ 64) ∧ it.w ≠ vt.w ∧ !isConst item then some false
          else rest) (some true)
  | _ => some false

def valItem (v item : Expr) : Option Expr :=
  (typeOf v).bind fun vt => (typeOf item).bind fun it => val item (max it.w vt.w) vt.s

def orChain : List Expr → Option Expr
  | [] => none
  | a :: as => some (as.foldl (fun out a => .binary .or out a) a)

def cmpRange (v lo hi : Expr) : Option Expr :=
  (cmp typeOf val .gte v lo).bind fun ge => (cmp typeOf val .lte v hi).map fun le => .binary .and ge le

def inE : Expr → Option Expr
  | .inRange v lo hi =>
    (inKeepable typeOf v [lo,hi]).bind fun keep =>
      if keep then
        (valItem typeOf val v lo).bind fun lo' => (valItem typeOf val v hi).map fun hi' =>
          .inRange v lo' hi'
      else cmpRange typeOf val v lo hi
  | .inSet v n elems =>
    if n = 0 then some (.inSet v n elems)
    else
      (inKeepable typeOf v (List.ofFn elems)).bind fun keep =>
        if keep then (collect fun i => valItem typeOf val v (elems i)).map fun nw => .inSet v n nw
        else
          (collect fun i => cmp typeOf val .eq v (elems i)).bind fun eqs => orChain (List.ofFn eqs)
  | .inRanges v n los his =>
    if n = 0 then some (.inRanges v n los his)
    else
      (inKeepable typeOf v (List.ofFn los++List.ofFn his)).bind fun keep =>
        if keep then
          (collect fun i => valItem typeOf val v (los i)).bind fun nlo =>
            (collect fun i => valItem typeOf val v (his i)).map fun nhi => .inRanges v n nlo nhi
        else
          (collect fun i => cmpRange typeOf val v (los i) (his i)).bind fun ins =>
            orChain (List.ofFn ins)
  | e => some e

end Passes

mutual

def val (vars : ℕ → Option Ty) : ℕ → Expr → ℕ → Bool → Option Expr
  | 0, _, _, _ => none
  | fuel+1, e, W, S =>
    let typeOf := type vars fuel
    let val' := val vars fuel
    match e with
    | .var _ | .constWide .. => conv typeOf e W S
    | .const value width isSigned => valConst typeOf value width isSigned W S
    | .binary op l r =>
      if op.isArith then
        (val' l W S).bind fun l' => (val' r W S).bind fun r' =>
          (widenPair typeOf l' r' W).map fun l' => .binary op l' r'
      else if op.isShift then
        (typeOf r).bind fun rt => (val' r rt.w false).bind fun r' =>
          if op = .ashr then
            (val' l W S).bind fun l' => (widen typeOf l' W).map fun l' =>
              .binary (if S then .ashr else .rshift) l' r'
          else if op = .lshift ∨ !S then
            (val' l W S).bind fun l' => (widen typeOf l' W).map fun l' => .binary op l' r'
          else
            -- `>>` of a signed value shifts the pattern
            (val' l W true).bind fun l' => (typeOf l').bind fun lt =>
              (mkCast l' lt.w W true false).bind fun lu =>
                mkCast (.binary .rshift lu r') W W false true
      else (bool vars fuel e).bind fun x => conv typeOf x W S
    | .unary op x =>
      match op with
      | .not => (bool vars fuel e).bind fun x => conv typeOf x W S
      | .neg =>
        (val' x W S).bind fun x' => (mkConst 0 S W).map fun z => .binary .sub z x'
      | .invert => (val' x W S).bind fun x' => (widen typeOf x' W).map fun x' => .unary .invert x'
    | .ite c t f =>
      (bool vars fuel c).bind fun c' => (val' t W S).bind fun t' => (val' f W S).bind fun f' =>
        (widenPair typeOf t' f' W).map fun t' => .ite c' t' f'
    | .extend x fromBits toBits signExtend =>
      (typeOf x).bind fun ot => (val' x ot.w ot.s).bind fun o =>
        (if o.same x then some e else mkExt o fromBits toBits signExtend).bind fun n =>
          conv typeOf n W S
    | .svCast x fromBits toBits signExtend dstSigned =>
      (typeOf x).bind fun ot => (val' x ot.w ot.s).bind fun o =>
        (if o.same x then some e else mkCast o fromBits toBits signExtend dstSigned).bind fun n =>
          conv typeOf n W S
    | .cast x toBits toSigned =>
      (typeOf x).bind fun ot => (val' x (max ot.w toBits) ot.s).bind fun o =>
        (typeOf o).bind fun vt =>
          (if vt.w > toBits then
            if vt.w > maxWidth then none
            else
              let n := Expr.extract o (toBits-1) 0
              if toSigned then mkCast n toBits toBits false true else some n
          else conv typeOf o toBits toSigned).bind fun n => conv typeOf n W S
    | .extract x hiBit loBit =>
      (typeOf x).bind fun ot => (val' x ot.w ot.s).bind fun o =>
        conv typeOf (.extract o hiBit loBit) W S
    | .concat hi lo loWidth =>
      (typeOf hi).bind fun ht => (typeOf lo).bind fun lt =>
        (val' hi ht.w ht.s).bind fun h => (val' lo lt.w lt.s).bind fun l =>
          conv typeOf (.concat h l loWidth) W S
    | .inRange .. | .inSet .. | .inRanges .. => (bool vars fuel e).bind fun x => conv typeOf x W S
    | .other _ => some e

def bool (vars : ℕ → Option Ty) : ℕ → Expr → Option Expr
  | 0, _ => none
  | fuel+1, e =>
    let typeOf := type vars fuel
    let val' := val vars fuel
    match e with
    | .var _ | .const .. => some e
    | .binary op l r =>
      if op = .and ∨ op = .or then
        (bool vars fuel l).bind fun l' => (bool vars fuel r).map fun r' => .binary op l' r'
      else if op.isCmp then cmp typeOf val' op l r
      else nonzero typeOf val' e
    | .unary op x =>
      if op = .not then (bool vars fuel x).map fun x' => .unary .not x'
      else nonzero typeOf val' e
    | .ite c t f =>
      (bool vars fuel c).bind fun c' => (bool vars fuel t).bind fun t' =>
        (bool vars fuel f).map fun f' => .ite c' t' f'
    | .inRange .. | .inSet .. | .inRanges .. => inE typeOf val' e
    | .constWide .. | .extend .. | .extract .. | .concat .. | .svCast .. | .cast .. =>
      nonzero typeOf val' e
    | .other _ => some e

end

structure Problem where
  constraints : List Expr
  softs : List Expr
  isExplicit : Bool

/-- `dvs_sv_elaborate`; `none` where the problem is refused. -/
def elaborate (vars : ℕ → Option Ty) (fuel : ℕ) (sp : Problem) : Option Problem :=
  if sp.isExplicit then some sp
  else
    (sp.constraints.mapM (bool vars fuel)).bind fun cs => (sp.softs.mapM (bool vars fuel)).map fun ss =>
      let changed := !((sp.constraints.zip cs).all fun p => p.2.same p.1) ||
        !((sp.softs.zip ss).all fun p => p.2.same p.1)
      ⟨cs,ss,changed⟩

end Sv
end DvSolve
