import DvSolve.PropDivSem

/-! The reification propagators, `g ↔ x ≤ y` and `g ↔ x = y`, and the conditional value. -/
namespace DvSolve
namespace Solver

def enforceLe32 (x y : ℕ) : Fire :=
  .read y fun vy => .need .ub32 x (vy.hi.signExtend 64) <|
  .read x fun vx => .need .lb32 y (vx.lo.signExtend 64) <| .done .ok

def enforceGt32 (x y : ℕ) : Fire :=
  .read x fun vx => .read y fun vy =>
  if (varReprMax vx).toInt ≤ vy.lo.toInt ∨ vx.hi.toInt ≤ (varReprMin vy).toInt then .done .conflict
  else
    .need .lb32 x ((vy.lo+1#32).signExtend 64) <|
    .read x fun vx => .need .ub32 y ((vx.hi-1#32).signExtend 64) <| .done .ok

def pinGuard32 (g x y : ℕ) : Fire :=
  .read g fun vg =>
  if vg.lo ≠ vg.hi then
    .read x fun vx => .read y fun vy =>
    if vx.hi.toInt ≤ vy.lo.toInt then .need .lb32 g 1#64 <| .done .ok
    else if vy.hi.toInt < vx.lo.toInt then .need .ub32 g 0#64 <| .done .ok
    else .done .ok
  else .done .ok

def fireReification32 (g x y : ℕ) : Fire :=
  .read g fun vg =>
  if x = y then
    if vg.hi = 0#32 then .done .conflict
    else if vg.lo ≠ vg.hi then .tighten .lb32 g 1#64 .done
    else .done .ok
  else
    .when (vg.lo = 1#32) (enforceLe32 x y) <| .read g fun vg =>
    .when (vg.hi = 0#32) (enforceGt32 x y) <| pinGuard32 g x y

/-- `guard = 0`, from the lower bound that `y` had. -/
def enforceGt64 (x y : ℕ) (ylo : BitVec 64) : Fire :=
  .read x fun vx => .read y fun vy =>
  if varBLt vx ylo (varReprMax vx) = false then .done .conflict
  else
    .need .lb64 x (ylo+1#64) <| .read x fun vx =>
    if varBGt vy (varHi64 vx) (varReprMin vy) = false then .done .conflict
    else .need .ub64 y (varHi64 vx-1#64) <| .done .ok

def pinGuard64 (g : ℕ) (vx : Variable) (xlo xhi ylo yhi : BitVec 64) : Fire :=
  .read g fun vg =>
  if vg.lo ≠ vg.hi then
    if varBGt vx xhi ylo = false then .need .lb64 g 1#64 <| .done .ok
    else if varBGt vx xlo yhi = true then .need .ub64 g 0#64 <| .done .ok
    else .done .ok
  else .done .ok

def fireReification64 (g x y : ℕ) : Fire :=
  .read x fun vx => .read y fun vy => .read g fun vg =>
  let xlo := varLo64 vx
  let xhi := varHi64 vx
  let ylo := varLo64 vy
  let yhi := varHi64 vy
  if x = y then
    if vg.hi = 0#32 then .done .conflict
    else if vg.lo ≠ vg.hi then .tighten .lb64 g 1#64 .done
    else .done .ok
  else
    .when (vg.lo = 1#32) (.need .ub64 x yhi <| .need .lb64 y xlo <| .done .ok) <| .read g fun vg =>
    .when (vg.hi = 0#32) (enforceGt64 x y ylo) <| pinGuard64 g vx xlo xhi ylo yhi

def equalsItself (g : ℕ) : Fire :=
  .read g fun vg => if varHi64 vg = 0#64 then .done .conflict else .tighten .lb64 g 1#64 .done

def meet32 (x y : ℕ) : Fire :=
  .read x fun vx => .read y fun vy =>
  let newLo := if vy.lo.toInt < vx.lo.toInt then vx.lo else vy.lo
  let newHi := if vx.hi.toInt < vy.hi.toInt then vx.hi else vy.hi
  if newHi.toInt < newLo.toInt then .done .conflict
  else
    .need .lb32 x (newLo.signExtend 64) <| .need .ub32 x (newHi.signExtend 64) <|
    .need .lb32 y (newLo.signExtend 64) <| .need .ub32 y (newHi.signExtend 64) <| .done .ok

def exclude32 (x y : ℕ) : Fire :=
  .read x fun vx => .read y fun vy =>
  .when (vy.lo = vx.lo) (.need .lb32 y ((vx.lo+1#32).signExtend 64) <| .done .ok) <|
  .read x fun vx => .read y fun vy =>
  .when (vy.hi = vx.lo) (.need .ub32 y ((vx.lo-1#32).signExtend 64) <| .done .ok) <| .done .ok

def enforceNe32 (x y : ℕ) : Fire :=
  .read x fun vx => .read y fun vy =>
  if vx.lo = vx.hi ∧ vy.lo = vx.lo ∧ vy.hi = vx.hi then .done .conflict
  else
    .when (vx.lo = vx.hi) (exclude32 x y) <| .read y fun vy =>
    .when (vy.lo = vy.hi) (exclude32 y x) <| .done .ok

def fireReificationEq32 (g x y : ℕ) : Fire :=
  if x = y then equalsItself g
  else
    .read g fun vg => .when (vg.lo = 1#32) (meet32 x y) <|
    .read g fun vg => .when (vg.hi = 0#32) (enforceNe32 x y) <|
    .read x fun vx => .read y fun vy =>
    .when (vx.lo = vx.hi ∧ vy.lo = vy.hi ∧ vx.lo = vy.lo) (.need .lb32 g 1#64 <| .done .ok) <|
    .read x fun vx => .read y fun vy =>
    .when (vy.hi.toInt < vx.lo.toInt ∨ vx.hi.toInt < vy.lo.toInt)
      (.need .ub32 g 0#64 <| .done .ok) <| .done .ok

/-- The bounds of `x` and `y` intersected in the order of `v`. -/
def meet64 (v : Variable) (x y : ℕ) (xlo xhi ylo yhi : BitVec 64) : Fire :=
  let lo := Dist.varBMax v xlo ylo
  let hi := Dist.varBMin v xhi yhi
  if varBGt v lo hi = true then .done .conflict
  else .between x lo hi <| .between y lo hi <| .done .ok

def exclude64 (y : ℕ) (n ylo yhi : BitVec 64) : Fire :=
  if ylo = n then .need .lb64 y (n+1#64) <| .done .ok
  else if yhi = n then .need .ub64 y (n-1#64) <| .done .ok
  else .done .ok

def enforceNe64 (x y : ℕ) (xlo xhi ylo yhi : BitVec 64) : Fire :=
  if xlo = xhi ∧ ylo = xlo ∧ yhi = xhi then .done .conflict
  else
    .when (xlo = xhi) (exclude64 y xlo ylo yhi) <|
    .when (ylo = yhi) (exclude64 x ylo xlo xhi) <| .done .ok

/-- The guard is pinned if the domains are one value, or disjoint in the order of `x`. -/
def pinGuardEq64 (g x y : ℕ) : Fire :=
  .read x fun vx => .read y fun vy =>
  .when (varLo64 vx = varHi64 vx ∧ varLo64 vy = varHi64 vy ∧ varLo64 vx = varLo64 vy)
    (.need .lb64 g 1#64 <| .done .ok) <|
  .when (varBGt vx (varLo64 vx) (varHi64 vy) = true ∨ varBGt vx (varLo64 vy) (varHi64 vx) = true)
    (.need .ub64 g 0#64 <| .done .ok) <| .done .ok

def fireReificationEq64 (g x y : ℕ) : Fire :=
  if x = y then equalsItself g
  else
    .read x fun vx => .read y fun vy => .read g fun vg =>
    .when (vg.lo = 1#32)
      (meet64 vx x y (varLo64 vx) (varHi64 vx) (varLo64 vy) (varHi64 vy)) <|
    .read g fun vg => .when (vg.hi = 0#32)
      (enforceNe64 x y (varLo64 vx) (varHi64 vx) (varLo64 vy) (varHi64 vy)) <| pinGuardEq64 g x y

def select64 (vr : Variable) (r a : ℕ) (alo ahi : BitVec 64) : Fire :=
  (meet64 vr r a (varLo64 vr) (varHi64 vr) alo ahi).andThen <|
  .read r fun vr => .read a fun va =>
  if varLo64 vr = varHi64 vr ∧ varLo64 va = varHi64 va ∧ varLo64 va = varLo64 vr then .done .entailed
  else .done .ok

def fireIteValue64 (r c a b : ℕ) : Fire :=
  .read r fun vr => .read c fun vc => .read a fun va => .read b fun vb =>
  let alo := varLo64 va
  let ahi := varHi64 va
  let blo := varLo64 vb
  let bhi := varHi64 vb
  let rlo := varLo64 vr
  let rhi := varHi64 vr
  if varLo64 vc = 1#64 ∧ varHi64 vc = 1#64 then select64 vr r a alo ahi
  else if varLo64 vc = 0#64 ∧ varHi64 vc = 0#64 then select64 vr r b blo bhi
  else
    let aDisjoint := varBLt vr rhi alo || varBGt vr rlo ahi
    let bDisjoint := varBLt vr rhi blo || varBGt vr rlo bhi
    if aDisjoint && bDisjoint then .done .conflict
    else if aDisjoint then .need .ub64 c 0#64 <| meet64 vr r b rlo rhi blo bhi
    else if bDisjoint then .need .lb64 c 1#64 <| meet64 vr r a rlo rhi alo ahi
    else .between r (Dist.varBMin vr alo blo) (Dist.varBMax vr ahi bhi) <| .done .ok

end Solver
end DvSolve
