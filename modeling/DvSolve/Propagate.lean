import DvSolve.ClauseDb

/-! The propagation loop: `dvs_solver_propagate`. -/
namespace DvSolve
namespace Solver

def Fire.run : Fire → Engine → PropResult × Engine
  | .done r, s => (r,s)
  | .read v k, s => (k (s.ctx.vars v)).run s
  | .tighten t v b k, s => (k (tightenHeld s t v b).1).run (tightenHeld s t v b).2

def propGuard (c : Ctx) (ref : ℕ) : Option ℕ :=
  if (c.props ref).propId < c.propCapacity then c.guardVars (c.props ref).propId else none

inductive Gate
  | shut
  | undecided
  | through
  deriving DecidableEq

def gateOf (c : Ctx) (ref : ℕ) : Gate :=
  match propGuard c ref with
  | none => .through
  | some gid =>
    let glo := varLo64 (c.vars gid)
    let ghi := varHi64 (c.vars gid)
    if glo = 0#64 ∧ ghi = 0#64 then .shut else if glo ≠ ghi then .undecided else .through

def Engine.setReason (s : Engine) (ref : Option ℕ) : Engine := s.withReason ref s.ctx.currentFlags

def fireHeld (n : ℕ) (s : Engine) (ref : ℕ) : Option (PropResult × Engine) :=
  let hold := clauseNotifyHold s
  let r := (hold.2.ctx.props ref).fire.run (hold.2.setReason (some ref))
  let s := r.2.setReason none
  if hold.1 then
    (clauseNotifyRelease n s (r.1 ≠ .conflict)).map fun r' =>
      (if r'.1 = .conflict then .conflict else r.1,r'.2)
  else some (r.1,s)

/-- What a fire of `ref` with result `r` leads to: the loop goes on, or ends in a
conflict with `ref` queued again. -/
def afterFire (ref : ℕ) (r : PropResult) (s : Engine) : Option PropResult × Engine :=
  match r with
  | .conflict => (some .conflict,{ s with ctx := propEnqueue s.ctx ref, conflictProp := some ref })
  | .entailed => (none,{ s with ctx := trailMarkEntailed s.ctx ref })
  | .ok => (none,s)

def visitProp (overBudget : Engine → Bool) (n : ℕ) (s : Engine) (ref : ℕ) :
    Option (Option PropResult × Engine) :=
  if (s.ctx.props ref).entailed then some (none,s)
  else
    let s := { s with fires := s.fires+1, ticks := s.ticks+1 }
    if s.ticks % 1024 = 0 ∧ overBudget s then
      some (some .conflict,{ s with ctx := propEnqueue s.ctx ref, aborted := true })
    else
      match gateOf s.ctx ref with
      | .shut => some (none,{ s with ctx := trailMarkEntailed s.ctx ref })
      | .undecided => some (none,s)
      | .through => (fireHeld n s ref).map fun r => afterFire ref r.1 r.2

def propagateLoop (overBudget : Engine → Bool) : ℕ → Engine → Option (PropResult × Engine)
  | 0, _ => none
  | n+1, s =>
    if s.ctx.queue.nonEmptyMask = 0 then some (.ok,s)
    else
      match dequeue s.ctx with
      | none => none
      | some (ref,c) =>
        match visitProp overBudget n { s with ctx := c } ref with
        | none => none
        | some (some r,s) => some (r,s)
        | some (none,s) => propagateLoop overBudget n s

def dvsSolverPropagate (overBudget : Engine → Bool) (n : ℕ) (s : Engine) :
    Option (PropResult × Engine) :=
  if s.aborted then some (.conflict,s)
  else propagateLoop overBudget n { s with conflictProp := none, conflictClause := none }

end Solver
end DvSolve
