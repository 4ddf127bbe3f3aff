import DvSolve.CompileCmp
import DvSolve.PropReifSmall

/-! Comparisons under a guard: `_compile_gated_constraint` on a variable and a constant, the guard
that `_bool_to_var` makes of the comparison, and the propagators both of them add. -/
namespace DvSolve
namespace Solver

open Sv (BinOp)

def fireImplication32 (g x : ℕ) (bound : BitVec 32) (isUb : Bool) : Fire :=
  .read g fun vg =>
  if vg.hi = 0#32 then .done .entailed
  else if vg.lo = 1#32 then
    .tighten (if isUb then .ub32 else .lb32) x (bound.signExtend 64) .done
  else .done .ok

def fireImplication64 (g x : ℕ) (bound : BitVec 64) (isUb : Bool) : Fire :=
  .read g fun vg =>
  if vg.hi = 0#32 then .done .entailed
  else if vg.lo = 1#32 then .tighten (if isUb then .ub64 else .lb64) x bound .done
  else .done .ok

def clampI32 (x : ℤ) : ℤ := max (-2^31) (min x (2^31-1))

def bound32 (x : ℤ) : BitVec 64 := (BitVec.ofInt 32 x).signExtend 64

/-- `_fire_bounds_add_32`: the lower bounds going back are cut below only, the upper ones above
only. -/
def fireBoundsAdd32 (r a b : ℕ) : Fire :=
  .read a fun va => .read b fun vb =>
  .need .lb32 r (bound32 (clampI32 (va.lo.toInt+vb.lo.toInt))) <|
  .need .ub32 r (bound32 (clampI32 (va.hi.toInt+vb.hi.toInt))) <| .read r fun vr =>
  .need .lb32 a (bound32 (max (-2^31) (vr.lo.toInt-vb.hi.toInt))) <|
  .need .ub32 a (bound32 (min (vr.hi.toInt-vb.lo.toInt) (2^31-1))) <| .read a fun va =>
  .need .lb32 b (bound32 (max (-2^31) (vr.lo.toInt-va.hi.toInt))) <|
  .need .ub32 b (bound32 (min (vr.hi.toInt-va.lo.toInt) (2^31-1))) <|
  .read r fun vr => .read a fun va => .read b fun vb =>
  if vr.lo = vr.hi ∧ va.lo = va.hi ∧ vb.lo = vb.hi then .done .entailed else .done .ok

def addProp (block : Bool) (c : Ctx) (fire : Fire) (priority : ℕ) (ids : List ℕ) : Ctx :=
  if block then (allocProp c fire priority ids).getD c else (roomProp c).getD c

def propAddImplication64 (block : Bool) (c : Ctx) (g x : ℕ) (bound : BitVec 64) (isUb : Bool)
    (priority : ℕ) : Ctx :=
  addProp block c (fireImplication64 g x bound isUb) priority [g,x]

def propAddImplication32 (block : Bool) (c : Ctx) (g x : ℕ) (bound : BitVec 32) (isUb : Bool)
    (priority : ℕ) : Ctx :=
  if !(c.vars x).tier0 then propAddImplication64 block c g x (bound.signExtend 64) isUb priority
  else addProp block c (fireImplication32 g x bound isUb) priority [g,x]

def propAddReification32 (block : Bool) (c : Ctx) (g x y priority : ℕ) : Ctx :=
  addProp block c
    (if !(c.vars x).tier0 ∨ !(c.vars y).tier0 then fireReification64 g x y
      else fireReification32 g x y) priority [g,x,y]

def propAddReificationEq32 (block : Bool) (c : Ctx) (g x y priority : ℕ) : Ctx :=
  addProp block c
    (if !(c.vars x).tier0 ∨ !(c.vars y).tier0 then fireReificationEq64 g x y
      else fireReificationEq32 g x y) priority [g,x,y]

def propAddBoundsAdd32 (block : Bool) (c : Ctx) (r a b priority : ℕ) : Ctx :=
  addProp block c (fireBoundsAdd32 r a b) priority [r,a,b]

def initTier0 (width : ℕ) (signed : Bool) (lo hi : BitVec 64) : Variable :=
  ⟨lo.setWidth 32,hi.setWidth 32,(0#64,0#64),width,signed,false,false,false⟩

def initAuxTiered (wide : Bool) (width : ℕ) (signed : Bool) (lo hi : BitVec 64) :
    Option Variable :=
  if width = 0 ∨ width > 64 then none
  else if width < 64 ∧ (if signed then lo.toInt < -2^(width-1) ∨ 2^(width-1)-1 < hi.toInt
        else lo.toInt < 0 ∨ 2^width-1 < hi.toInt) then none
  else if width < 32 ∨ width = 32 ∧ signed then some (initTier0 width signed lo hi)
  else if wide then some ⟨0#32,0#32,(lo,hi),width,signed,true,false,false⟩
  else none

def openBit : Variable := initTier0 1 false 0#64 1#64

def constOne : Variable := initTier0 32 false 1#64 1#64

/-- A comparison that is decided at the ends of the type of an unsigned variable. -/
def foldCmp (v : Variable) (op : BinOp) (cv : BitVec 64) : Option Bool :=
  if op ≠ .eq ∧ op ≠ .neq ∧ v.signed = false then
    if v.width ≥ 64 then
      match op with
      | .lt => if cv = 0#64 then some false else none
      | .lte => if cv = BitVec.allOnes 64 then some true else none
      | .gt => if cv = BitVec.allOnes 64 then some false else none
      | .gte => if cv = 0#64 then some true else none
      | _ => none
    else
      let vmax : ℤ := 2^v.width-1
      match op with
      | .lt => if cv.toInt ≤ 0 then some false else if vmax < cv.toInt then some true else none
      | .lte => if cv.toInt < 0 then some false else if vmax ≤ cv.toInt then some true else none
      | .gt => if cv.toInt < 0 then some true else if vmax ≤ cv.toInt then some false else none
      | .gte => if cv.toInt ≤ 0 then some true else if vmax < cv.toInt then some false else none
      | _ => none
  else none

/-- The guard `1 - g`, without a look at the room. -/
def negateGuard (block : Bool) (c : Ctx) (g : ℕ) : ℕ × Ctx :=
  (c.nVars,propAddBoundsAdd32 block (addVar (addVar c openBit) constOne) (c.nVars+1) c.nVars g 0)

def reifyEq (S : Supply) (c : Ctx) (x : ℕ) (cv : BitVec 64) : Option ℕ × Ctx :=
  if S.room then
    let v := c.vars x
    let c' := addVar c openBit
    match initAuxTiered S.wide v.width v.signed cv cv with
    | none => (none,c')
    | some k =>
      (some c.nVars,propAddReificationEq32 S.block (addVar c' k) c.nVars x (c.nVars+1) 0)
  else (none,c)

def reifyLe (S : Supply) (c : Ctx) (x : ℕ) (k : BitVec 64) : Option ℕ × Ctx :=
  if S.room then
    let v := c.vars x
    match initAuxTiered S.wide v.width v.signed k k with
    | none => (none,c)
    | some kv =>
      (some (c.nVars+1),
        propAddReification32 S.block (addVar (addVar c kv) openBit) (c.nVars+1) x c.nVars 0)
  else (none,c)

def negated (S : Supply) (p : Option ℕ × Ctx) : Option ℕ × Ctx :=
  match p.1 with
  | none => p
  | some g => if S.room then (negateGuard S.block p.2 g).map some id else (none,p.2)

def boolToVarCmp (S : Supply) (c : Ctx) (op : BinOp) (x : ℕ) (cv : BitVec 64) : Option ℕ × Ctx :=
  match foldCmp (c.vars x) op cv with
  | some t =>
    if S.room then
      let b := if t then 1#64 else 0#64
      (some c.nVars,addVar c (initTier0 1 false b b))
    else (none,c)
  | none =>
    match op with
    | .eq => reifyEq S c x cv
    | .neq => negated S (reifyEq S c x cv)
    | .lt => reifyLe S c x (cv-1#64)
    | .lte => reifyLe S c x cv
    | .gt => negated S (reifyLe S c x cv)
    | .gte => negated S (reifyLe S c x (cv-1#64))
    | _ => (none,c)

def reifyGated (S : Supply) (c : Ctx) (op : BinOp) (x : ℕ) (cv : BitVec 64) (guard : ℕ) :
    ℤ × Ctx :=
  match boolToVarCmp S c op x cv with
  | (none,c) => (0,c)
  | (some g,c) => (1,propAddImplication32 S.block c guard g 1#32 false 0)

/-- The truth of a comparison with a constant that is taken to lie below or above every value. -/
def endTruth (op : BinOp) (cv : BitVec 64) : Bool :=
  let below := decide (cv.toInt ≤ -2^31)
  match op with
  | .eq => false
  | .neq => true
  | .lt | .lte => !below
  | _ => below

def compileGatedConstraint (S : Supply) (c : Ctx) (op : BinOp) (x : ℕ) (cv : BitVec 64)
    (flip : Bool) (guard : ℕ) : ℤ × Ctx :=
  let op := if flip then flipped op else op
  if (c.vars x).tier0 = false then
    if op = .eq ∨ op = .lte ∨ op = .gte then
      let c := if op ≠ .gte then propAddImplication64 S.block c guard x cv true 0 else c
      let c := if op ≠ .lte then propAddImplication64 S.block c guard x cv false 0 else c
      (1,c)
    else reifyGated S c op x cv guard
  else if cv.toInt ≤ -2^31 ∨ 2^31-1 ≤ cv.toInt then
    if endTruth op cv then (1,c) else bounded (ctxTightenUb64 c guard 0#64)
  else
    match op with
    | .eq =>
      let c := propAddImplication32 S.block c guard x (cv.setWidth 32) true 0
      (1,propAddImplication32 S.block c guard x (cv.setWidth 32) false 0)
    | .lte => (1,propAddImplication32 S.block c guard x (cv.setWidth 32) true 0)
    | .lt => (1,propAddImplication32 S.block c guard x ((cv-1#64).setWidth 32) true 0)
    | .gte => (1,propAddImplication32 S.block c guard x (cv.setWidth 32) false 0)
    | .gt => (1,propAddImplication32 S.block c guard x ((cv+1#64).setWidth 32) false 0)
    | _ => reifyGated S c op x cv guard

end Solver
end DvSolve
