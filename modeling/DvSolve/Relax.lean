import DvSolve.Contradiction
import DvSolve.SvExpr

/-! Relaxation suggestions: how far the constant of one constraint of a minimal unsatisfiable
subset has to move before the subset is satisfiable. -/
namespace DvSolve
namespace Contra

open Sv TwosComp

structure VarSpec where
  varId : ℕ
  width : ℕ
  isSigned : Bool
  lo : ℤ
  hi : ℤ
  width_pos : 0 < width

structure Frame where
  vars : List VarSpec
  allDiff : List (List ℕ)

inductive RelaxDirection
  | increase
  | decrease
  | both
  deriving DecidableEq

structure ClassifyResult where
  relaxDirection : RelaxDirection
  varId : ℕ
  originalConst : ℤ
  op : BinOp

def flipOp : BinOp → BinOp
  | .lte => .gte
  | .lt => .gt
  | .gte => .lte
  | .gt => .lt
  | op => op

def classifyOp (op : BinOp) (vid : ℕ) (cv : ℤ) : Option ClassifyResult :=
  match op with
  | .lte | .lt => some ⟨.increase,vid,cv,op⟩
  | .gte | .gt => some ⟨.decrease,vid,cv,op⟩
  | .eq => some ⟨.both,vid,cv,op⟩
  | _ => none

def classifyConstraint : Expr → Option ClassifyResult
  | .binary op (.var vid) (.const cv _ _) => classifyOp op vid cv
  | .binary op (.const cv _ _) (.var vid) => classifyOp (flipOp op) vid cv
  | _ => none

def replaceConst (root : Expr) (newConst : ℤ) : Expr :=
  match root with
  | .binary op (.var v) _ => .binary op (.var v) (.const newConst 0 false)
  | .binary op _ r => .binary op (.const newConst 0 false) r
  | e => e

/-- `_build_relaxed_subproblem`: the variables and the subset, without the all-differents. -/
def buildRelaxedSubproblem (orig : Problem Frame Expr) (musCids : List ℕ) (targetCid : ℕ)
    (newConst : ℤ) : Problem Frame Expr :=
  orig.constraints.foldl (fun sp cs =>
    if cs.constraintId ∈ musCids then
      problemAddConstraint sp
        (if cs.constraintId = targetCid then replaceConst cs.root newConst else cs.root)
    else sp) ⟨{ orig.frame with allDiff := [] },[],[],0⟩

def feasible (S : Solver Frame Expr) (sub : Problem Frame Expr) : Bool :=
  !sub.refused S && S.solve sub []

/-- A sum or difference of `int64_t`, undefined where it overflows. -/
def i64 (v : ℤ) : Option ℤ := if -2^63 ≤ v ∧ v < 2^63 then some v else none

def clampToVar (vars : List VarSpec) (varId : ℕ) (v : ℤ) : ℤ :=
  match vars.find? (·.varId = varId) with
  | none => v
  | some vs =>
    if vs.width < 64 then
      let vmin := if vs.isSigned then -2^(vs.width - 1) else 0
      let vmax := if vs.isSigned then 2^(vs.width - 1) - 1 else 2^vs.width - 1
      let v := if v < vmin then vmin else v
      if vmax < v then vmax else v
    else v

def widened (cls : ClassifyResult) : ℤ :=
  match cls.relaxDirection with
  | .increase | .both => cls.originalConst + 10000
  | .decrease => cls.originalConst - 10000

def probeEnd (vars : List VarSpec) (cls : ClassifyResult) : Option ℤ :=
  (i64 (widened cls)).map (clampToVar vars cls.varId)

/-- The loop between an infeasible and a feasible constant. Its sums stay between the two. -/
def bisect (feas : ℤ → Bool) : ℕ → ℤ → ℤ → Option ℤ
  | 0, _, feasibleVal => some feasibleVal
  | n + 1, infeasibleVal, feasibleVal =>
    (i64 (if infeasibleVal < feasibleVal then feasibleVal - infeasibleVal
      else infeasibleVal - feasibleVal)).bind fun gap =>
    if gap ≤ 1 then some feasibleVal
    else
      let mid := infeasibleVal + (feasibleVal - infeasibleVal).tdiv 2
      if feas mid then bisect feas n infeasibleVal mid else bisect feas n mid feasibleVal

structure RelaxSuggestion where
  isRelaxable : Bool
  relaxedConstant : ℤ
  delta : ℤ

def relaxSearch (S : Solver Frame Expr) (orig : Problem Frame Expr) (musCids : List ℕ)
    (targetCid : ℕ) (cls : ClassifyResult) : Option RelaxSuggestion :=
  let feas c := feasible S (buildRelaxedSubproblem orig musCids targetCid c)
  (probeEnd orig.frame.vars cls).bind fun feasibleVal =>
    if feas feasibleVal then
      (bisect feas 64 cls.originalConst feasibleVal).map fun v =>
        ⟨true,v,v - cls.originalConst⟩
    else some ⟨false,cls.originalConst,0⟩

end Contra
end DvSolve
