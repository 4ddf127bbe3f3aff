import DvSolve.BitRuns
import DvSolve.SvElab

/-! Rewriting of masks (`dvs_sv.c`): a comparison of `x & M` becomes comparisons of slices of the
variable whose bits `x` reads. -/
namespace DvSolve
namespace Sv

open TwosComp BitRuns

def mrwMaxRuns : ℕ := 16

def mrwMaxShiftVw : ℕ := 4

/-- `MrwSrc`: bit `i < avail` is bit `i+off` of the variable, the others are zero. -/
structure MrwSrc where
  var : ℕ
  vw : ℕ
  off : ℕ
  avail : ℕ
  deriving DecidableEq, Repr

def mrwField (s : MrwSrc) (h l : ℕ) : Expr :=
  let vh := h+s.off
  let vl := l+s.off
  if vl = 0 ∧ vh = s.vw-1 then .var s.var else .extract (.var s.var) vh vl

def mrwConst (c : Expr) (W : ℕ) : Option ℕ :=
  match c with
  | .const value width isSigned =>
    let t := constType value width isSigned
    if t.w > 64 ∨ W > 64 then none else some (pat (svWrap value t.w t.s) W)
  | _ => none

/-- `_mrw_runs`; `none` for more of them than are kept. -/
def mrwRuns (m W : ℕ) : Option (List (ℕ × ℕ)) :=
  let rs := runs m W W 0
  if rs.length > mrwMaxRuns then none else some rs

def mrwBits (v h l : ℕ) : ℕ := v >>> l % 2^(h+1-l)

def mrwMasked (a : Expr) (W : ℕ) (orForm : Bool) : Option (Expr × ℕ) :=
  match a with
  | .binary op l r =>
    if op ≠ (if orForm then .bor else .band) then none
    else
      match mrwConst r W with
      | some m => some (l,m)
      | none => (mrwConst l W).map fun m => (r,m)
  | _ => none

/-- The comparisons of the runs, joined as `op` asks. -/
def mrwChain (op : BinOp) : List Expr → Option Expr
  | [] => none
  | t :: ts => some (ts.foldl (fun acc t => .binary (if op = .eq then .and else .or) acc t) t)

def int64 (n : ℕ) : ℤ := wrap n 64 true

def mrwFlip : BinOp → BinOp
  | .lt => .gt
  | .lte => .gte
  | .gt => .lt
  | .gte => .lte
  | op => op

def mrwIsBool : Expr → Bool
  | .binary op _ _ => op = .and || op = .or || op.isCmp
  | .unary op _ => op = .not
  | _ => false

def mrwNeg : ℕ → Expr → Option Expr
  | 0, _ => none
  | n+1, ref =>
    if !mrwIsBool ref then none
    else
      match ref with
      | .unary _ x => if mrwIsBool x then some x else none
      | .binary op l r =>
        let nl := (mrwNeg n l).getD (.unary .not l)
        let nr := (mrwNeg n r).getD (.unary .not r)
        match op with
        | .and => some (.binary .or nl nr)
        | .or => some (.binary .and nl nr)
        | .eq => some (.binary .neq l r)
        | .neq => some (.binary .eq l r)
        | .lt => some (.binary .gte l r)
        | .lte => some (.binary .gt l r)
        | .gt => some (.binary .lte l r)
        | .gte => some (.binary .lt l r)
        | _ => none
      | _ => none

def mrwSame (ptr : Expr → Expr → Bool) : ℕ → Expr → Expr → Bool
  | 0, a, b => ptr a b
  | n+1, a, b =>
    ptr a b ||
      match a, b with
      | .var i, .var j => i = j
      | .const v w s, .const v' w' s' => v = v' && w = w' && s = s'
      | .binary op l r, .binary op' l' r' => op = op' && mrwSame ptr n l l' && mrwSame ptr n r r'
      | .unary op x, .unary op' x' => op = op' && mrwSame ptr n x x'
      | .extend x f t s, .extend x' f' t' s' => s = s' && f = f' && t = t' && mrwSame ptr n x x'
      | .svCast x f t s d, .svCast x' f' t' s' d' =>
        s = s' && d = d' && f = f' && t = t' && mrwSame ptr n x x'
      | .extract x h l, .extract x' h' l' => h = h' && l = l' && mrwSame ptr n x x'
      | _, _ => false

def mrwFirst : List (Option (Option Expr)) → Option (Option Expr)
  | [] => some none
  | x :: xs => x.bind fun r => if r.isSome then some r else mrwFirst xs

section Rewriting

-- the types of nodes; `none` is an error, `some none` is `EXPR_NULL` or 0
variable (typeOf : Expr → Option Ty)

def mrwSrc : ℕ → Expr → ℕ → Option (Option MrwSrc)
  | 0, _, _ => some none
  | n+1, x, W =>
    match x with
    | .var id =>
      (typeOf (.var id)).map fun t =>
        -- narrower than the context: extended by its own signedness
        if t.w > 64 ∨ (t.w < W ∧ t.s) then none else some ⟨id,t.w,0,t.w⟩
    | .extend y fromBits toBits signExtend =>
      if signExtend ∨ toBits < fromBits then some none
      else (mrwSrc n y fromBits).map (Option.map fun o => {o with avail := min o.avail fromBits})
    | .svCast y fromBits toBits signExtend _ =>
      if toBits > fromBits ∧ signExtend then some none
      else
        (mrwSrc n y fromBits).map
          (Option.map fun o => {o with avail := min o.avail (min toBits fromBits)})
    | .extract y hiBit loBit =>
      (typeOf y).bind fun ot =>
        if hiBit < loBit ∨ hiBit ≥ ot.w then some none
        else
          (mrwSrc n y ot.w).map fun o => o.bind fun o =>
            if loBit ≥ o.avail then none
            else some {o with off := o.off+loBit, avail := min (o.avail-loBit) (hiBit+1-loBit)}
    | .binary op l (.const value _ _) =>
      if op ≠ .rshift then some none
      else
        (typeOf l).bind fun lt =>
          if lt.w ≠ W then some none
          else
            (mrwSrc n l W).map fun o => o.bind fun o =>
              if value < 0 ∨ value ≥ o.avail then none
              else some {o with off := o.off+value.toNat, avail := o.avail-value.toNat}
    | _ => some none

def mrwSource (x : Expr) (W : ℕ) : Option (Option MrwSrc) := mrwSrc typeOf 9 x W

/-- A run of which the bits of `v` cannot be those of the source. -/
def mrwStuck (s : MrwSrc) (v : ℕ) (r : ℕ × ℕ) : Bool :=
  if r.1 ≥ s.avail then mrwBits v r.2 r.1 ≠ 0
  else
    let h := if r.2 < s.avail then r.2 else s.avail-1
    h < r.2 && mrwBits v r.2 (h+1) ≠ 0

def mrwRun (op : BinOp) (s : MrwSrc) (v : ℕ) (r : ℕ × ℕ) : Option Expr :=
  let h := if r.2 < s.avail then r.2 else s.avail-1
  (mkConst (int64 (mrwBits v h r.1)) false (h+1-r.1)).map fun k => .binary op (mrwField s h r.1) k

def mrwEqRuns (op : BinOp) (x : Expr) (m v W : ℕ) : Option (Option Expr) :=
  (mrwSource typeOf x W).bind fun s =>
    match s, mrwRuns m W with
    | some s, some rs =>
      if rs.any (mrwStuck s v) then some none
      else ((rs.filter fun r => r.1 < s.avail).mapM (mrwRun op s v)).map (mrwChain op)
    | _, _ => some none

def mrwEqConst (op : BinOp) (a c : Expr) (W : ℕ) : Option (Option Expr) :=
  let wm := 2^W-1
  match mrwMasked a W false, mrwConst c W with
  | some (x,m), some v =>
    if v &&& (wm ^^^ m) ≠ 0 then some none else mrwEqRuns typeOf op x m v W
  | _, _ =>
    match mrwMasked a W true, mrwConst c W with
    | some (x,m), some v => if v &&& m ≠ m then some none else mrwEqRuns typeOf op x (wm ^^^ m) v W
    | _, _ => some none

def mrwEqMasked (op : BinOp) (a b : Expr) (W : ℕ) : Option (Option Expr) :=
  match mrwMasked a W false, mrwMasked b W false with
  | some (x,mx), some (y,my) =>
    if mx ≠ my then some none
    else
      (mrwSource typeOf x W).bind fun sx =>
        match sx with
        | none => some none
        | some sx =>
          (mrwSource typeOf y W).map fun sy =>
            match sy, mrwRuns mx W with
            | some sy, some rs =>
              if rs.any fun r => r.2 ≥ sx.avail || r.2 ≥ sy.avail then none
              else mrwChain op (rs.map fun r => .binary op (mrwField sx r.2 r.1) (mrwField sy r.2 r.1))
            | _, _ => none
  | _, _ => some none

/-- The bound `_mrw_order` gives a field of at most `fmax`, from the floor and the ceiling of
the number compared with; `none` where the field's range decides. -/
def mrwBound (op : BinOp) (fl ce fmax : ℕ) : Option ℕ :=
  match op with
  | .lt | .gte => if ce = 0 ∨ ce > fmax then none else some ce
  | .lte | .gt => if fl ≥ fmax then none else some fl
  | _ => none

def mrwOrder (op : BinOp) (a c : Expr) (W : ℕ) : Option (Option Expr) :=
  match mrwMasked a W false, mrwConst c W with
  | some (x,m), some k =>
    (typeOf a).bind fun ta => (typeOf c).bind fun tc =>
      if ta.s ∨ tc.s then some none
      else
        match mrwRuns m W with
        | some [(l,h)] =>
          (mrwSource typeOf x W).bind fun s =>
            match s with
            | none => some none
            | some s =>
              if h ≥ s.avail then some none
              else
                let fl := k >>> l
                let ce := fl+(if k % 2^l ≠ 0 then 1 else 0)
                match mrwBound op fl ce (2^(h+1-l)-1) with
                | none => some none
                | some b =>
                  (mkConst (int64 b) false (h+1-l)).map fun kc =>
                    some (.binary op (mrwField s h l) kc)
        | _ => some none
  | _, _ => some none

def mrwShiftVar (s : Expr) : Option (Option (ℕ × ℕ)) :=
  (typeOf s).bind fun t =>
    if t.s then some none
    else
      (mrwSource typeOf s t.w).bind fun o =>
        match o with
        | none => some none
        | some o =>
          if o.off ≠ 0 ∨ o.avail ≠ o.vw then some none
          else (typeOf (.var o.var)).map fun vt => if vt.s then none else some (o.var,o.vw)

def mrwPow2 (a : Expr) : Option (Option (ℕ × ℕ)) :=
  match a with
  | .binary op l r =>
    (typeOf (.binary op l r)).bind fun t =>
      if op ≠ .lshift ∨ t.s ∨ t.w > 64 ∨ mrwConst l t.w ≠ some 1 then some none
      else
        -- every shift must stay inside the word: 1 << k is 2^k
        (mrwShiftVar typeOf r).map fun v => v.bind fun v =>
          if v.2 > 6 ∨ 2^v.2-1 ≥ t.w then none else some v
  | _ => some none

def mrwLowMask (x m : Expr) : Option (Option (Expr × ℕ × ℕ)) :=
  match m with
  | .binary op l r =>
    if op ≠ .sub then some none
    else
      (typeOf (.binary op l r)).bind fun t =>
        if mrwConst r t.w ≠ some 1 then some none
        else (mrwPow2 typeOf l).map (Option.map fun v => (x,v))
  | _ => some none

def mrwAligned (op : BinOp) (l r : Expr) : Option (Option (Expr × ℕ × ℕ)) :=
  match op with
  | .mod => (mrwPow2 typeOf r).map (Option.map fun v => (l,v))
  | .band => (mrwLowMask typeOf l r).bind fun v => if v.isSome then some v else mrwLowMask typeOf r l
  | _ => some none

def mrwSlice (op : BinOp) (s : MrwSrc) (sv vw k : ℕ) : Option Expr :=
  let h := if k ≤ s.avail then k-1 else s.avail-1
  (mkConst k false vw).bind fun kc => (mkConst 0 false (h+1)).map fun z =>
    .binary (if op = .eq then .or else .and)
      (.binary (if op = .eq then .neq else .eq) (.var sv) kc) (.binary op (mrwField s h 0) z)

def mrwAlign (op : BinOp) (a c : Expr) (W : ℕ) : Option (Option Expr) :=
  if mrwConst c W ≠ some 0 then some none
  else
    match a with
    | .binary bop l r =>
      (typeOf (.binary bop l r)).bind fun ta =>
        if ta.s then some none
        else
          (mrwAligned typeOf bop l r).bind fun v =>
            match v with
            | none => some none
            | some (x,sv,vw) =>
              if vw > mrwMaxShiftVw then some none
              else
                (typeOf x).bind fun tx =>
                  if tx.s then some none
                  else
                    (mrwSource typeOf x W).bind fun s =>
                      match s with
                      | none => some none
                      | some s => ((List.range' 1 (2^vw-1)).mapM (mrwSlice op s sv vw)).map (mrwChain op)
    | _ => some none

def mrwPeel : ℕ → Expr → Expr → Option (Expr × Expr)
  | 0, a, e => some (a,e)
  | n+1, a, e =>
    match a, e with
    | .extend x f t s, .extend y f' t' s' =>
      if s ≠ s' ∨ f ≠ f' ∨ t ≠ t' ∨ t < f then some (a,e)
      else
        (typeOf x).bind fun ix => (typeOf y).bind fun iy => (typeOf a).bind fun ox =>
          if ix.w ≠ f ∨ iy.w ≠ f ∨ ix.s ≠ iy.s ∨ ox.s ≠ ix.s ∨ s ≠ ix.s then some (a,e)
          else mrwPeel n x y
    | .svCast x f t s d, .svCast y f' t' s' d' =>
      if s ≠ s' ∨ d ≠ d' ∨ f ≠ f' ∨ t ≠ t' ∨ t < f then some (a,e)
      else
        (typeOf x).bind fun ix => (typeOf y).bind fun iy =>
          if ix.w ≠ f ∨ iy.w ≠ f ∨ ix.s ≠ iy.s ∨ d ≠ ix.s ∨ s ≠ ix.s then some (a,e)
          else mrwPeel n x y
    | _, _ => some (a,e)

def mrwIteSelf (ptr : Expr → Expr → Bool) (op : BinOp) (a e : Expr) : Option (Option Expr) :=
  (mrwPeel typeOf 2 a e).bind fun (a,e) =>
    match a with
    | .ite c t f =>
      (typeOf (.ite c t f)).bind fun ta => (typeOf t).bind fun tt => (typeOf f).bind fun tf =>
        (typeOf e).map fun te =>
          if ta ≠ tt ∨ ta ≠ tf ∨ ta ≠ te then none
          else
            let thenSelf := mrwSame ptr 17 t e
            if !thenSelf && !mrwSame ptr 17 f e then none
            else
              -- the branch that is not e decides when it is taken
              let nc := (mrwNeg 65 c).getD (.unary .not c)
              let cmp := Expr.binary op (if thenSelf then f else t) e
              if op = .eq ∨ op = .lte ∨ op = .gte then
                some (.binary .or (if thenSelf then c else nc) cmp)
              else some (.binary .and (if thenSelf then nc else c) cmp)
    | _ => some none

def mrwRunmask (a : Expr) : Option (Option Expr) :=
  match a with
  | .binary op l r =>
    (typeOf (.binary op l r)).bind fun t =>
      if t.s ∨ t.w > 64 then some none
      else
        match mrwMasked (.binary op l r) t.w false with
        | none => some none
        | some (x,m) =>
          match mrwRuns m t.w with
          | some [(lo,hi)] =>
            (mrwSource typeOf x t.w).bind fun s =>
              match s with
              | none => some none
              | some s =>
                let h := if hi < s.avail then hi else s.avail-1
                -- a mask that keeps every bit is left as it is
                if lo ≥ s.avail ∨ (lo = 0 ∧ h = s.avail-1) then some none
                else
                  (if lo > 0 then (mkConst 0 false lo).map fun z => .concat (mrwField s h lo) z lo
                    else some (mrwField s h lo)).bind fun f =>
                      if h+1 < t.w then (mkExt f (h+1) t.w false).map some else some (some f)
          | _ => some none
  | _ => some none

def mrwCmp (ptr : Expr → Expr → Bool) (bool : Expr → Option Expr) (op : BinOp) (l r : Expr) :
    Option (Option Expr) :=
  (typeOf l).bind fun lt => (typeOf r).bind fun rt =>
    let W := max lt.w rt.w
    let self (x : Option (Option Expr)) : Option (Option Expr) :=
      x.bind fun r => match r with
        | some r => (bool r).map some
        | none => some none
    mrwFirst [self (mrwIteSelf typeOf ptr op l r),self (mrwIteSelf typeOf ptr (mrwFlip op) r l),
      if W > 64 then some none
      else
        mrwFirst ((if op = .eq ∨ op = .neq then
            [mrwEqConst typeOf op l r W,mrwEqConst typeOf op r l W,mrwAlign typeOf op l r W,
              mrwAlign typeOf op r l W,mrwEqMasked typeOf op l r W]
          else [mrwOrder typeOf op l r W,mrwOrder typeOf (mrwFlip op) r l W]) ++
          -- neither side compared with a constant: a masked operand becomes its bits
          [(mrwRunmask typeOf l).bind fun l' => (mrwRunmask typeOf r).map fun r' =>
            if l'.isNone && r'.isNone then none else some (.binary op (l'.getD l) (r'.getD r))])]

end Rewriting

def mrwBool (ptr : Expr → Expr → Bool) (vars : ℕ → Option Ty) : ℕ → Expr → Option Expr
  | 0, _ => none
  | fuel+1, e =>
    match e with
    | .binary op l r =>
      if op = .and ∨ op = .or then
        (mrwBool ptr vars fuel l).bind fun l' => (mrwBool ptr vars fuel r).map fun r' => .binary op l' r'
      else if op.isCmp then
        (mrwCmp (type vars fuel) ptr (mrwBool ptr vars fuel) op l r).map fun x => x.getD (.binary op l r)
      else some (.binary op l r)
    | .unary op x =>
      if op = .not then
        match mrwNeg 65 x with
        | some n => mrwBool ptr vars fuel n
        | none => (mrwBool ptr vars fuel x).map (.unary .not)
      else some (.unary op x)
    | e => some e

/-- `dvs_sv_rewrite_masks`, without the field decomposition: a root that fails to rewrite keeps
its old form. -/
def rewriteMasks (ptr : Expr → Expr → Bool) (vars : ℕ → Option Ty) (fuel : ℕ) (sp : Problem) : Problem :=
  {sp with
    constraints := sp.constraints.map fun root => (mrwBool ptr vars fuel root).getD root
    softs := sp.softs.map fun root => (mrwBool ptr vars fuel root).getD root}

end Sv
end DvSolve
