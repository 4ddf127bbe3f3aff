import DvSolve.Trail

/-! Learnt clauses and their propagation: `dvs_clause_prop.c`.
A bound change made while a clause is being checked, or a propagator fires, only queues
the clauses it may have made unit; they are checked when the running step is over. -/
namespace DvSolve
namespace Solver

structure Literal where
  varId : ℕ
  isLb : Bool
  bound : BitVec 64
  deriving DecidableEq

def literalIsTrue (vars : ℕ → Variable) (l : Literal) : Bool :=
  let v := vars l.varId
  if l.isLb then !varBLt v (varLo64 v) l.bound else !varBGt v (varHi64 v) l.bound

def literalIsFalse (vars : ℕ → Variable) (l : Literal) : Bool :=
  let v := vars l.varId
  if l.isLb then varBLt v (varHi64 v) l.bound else varBGt v (varLo64 v) l.bound

def literalNegate (l : Literal) : Literal :=
  ⟨l.varId,!l.isLb,if l.isLb then l.bound-1 else l.bound+1⟩

/-- `ClauseDB`: the clauses by index, `none` where one was collected, the clauses that
watch each direction of each variable, and the queue of bound changes to look at. -/
structure ClauseDb where
  clauses : ℕ → Option (List Literal)
  nClauses : ℕ
  watchLb : ℕ → List ℕ
  watchUb : ℕ → List ℕ
  nWatchVars : ℕ
  inNotify : Bool
  pendOver : Bool
  pend : List (ℕ × Bool)
  pendCap : ℕ

/-- The context with its clause database, `none` when learning is off, and what a
propagation reports. -/
structure Engine where
  ctx : Ctx
  db : Option ClauseDb
  aborted : Bool
  conflictProp : Option ℕ
  conflictClause : Option ℕ
  fires : ℕ
  ticks : ℕ

def flagFromClause : ℕ := 2

def notifyHeld (s : Engine) (id : ℕ) (ub : Bool) : Engine :=
  match s.db with
  | none => s
  | some db =>
    if id ≥ db.nWatchVars then s
    else if db.pend.length < db.pendCap then
      { s with db := some { db with pend := (id,ub) :: db.pend } }
    else { s with db := some { db with pendOver := true } }

def moves (t : Tighten) (v : Variable) (b : BitVec 64) : Bool :=
  match t with
  | .lb32 => !(b.setWidth 32).sle v.lo
  | .ub32 => !v.hi.sle (b.setWidth 32)
  | .lb64 => varBGt v b (varLo64 v)
  | .ub64 => varBLt v b (varHi64 v)

def Tighten.isUb : Tighten → Bool
  | .lb32 | .lb64 => false
  | .ub32 | .ub64 => true

def tightenHeld (s : Engine) (t : Tighten) (id : ℕ) (b : BitVec 64) : PropResult × Engine :=
  let r := ctxTighten t s.ctx id b
  let s' := { s with ctx := r.2 }
  if moves t (s.ctx.vars id) b ∧ r.1 = .ok then (r.1,notifyHeld s' id t.isUb) else (r.1,s')

def Engine.withReason (s : Engine) (ref : Option ℕ) (flags : ℕ) : Engine :=
  { s with ctx := { s.ctx with currentPropRef := ref, currentFlags := flags } }

def clauseConflict (s : Engine) (ci : ℕ) : PropResult × Bool × Engine :=
  (.conflict,false,{ s with conflictClause := some ci })

def alreadyTight (vars : ℕ → Variable) (unit : Literal) : Bool :=
  let v := vars unit.varId
  if unit.isLb then !varBLt v (varLo64 v) unit.bound else !varBGt v (varHi64 v) unit.bound

def enforceUnit (s : Engine) (ci : ℕ) (unit : Literal) : PropResult × Bool × Engine :=
  if alreadyTight s.ctx.vars unit then (.ok,false,s)
  else
    let savedRef := s.ctx.currentPropRef
    let savedFlags := s.ctx.currentFlags
    let r := tightenHeld (s.withReason (some ci) (savedFlags ||| flagFromClause))
      (if unit.isLb then .lb64 else .ub64) unit.varId unit.bound
    (r.1,r.1 ≠ .conflict,r.2.withReason savedRef savedFlags)

/-- One clause looked at: a satisfied one is left, a false one conflicts, a unit one is
enforced. The flag says whether a bound was tightened. -/
def visitClause (s : Engine) (ci : ℕ) : PropResult × Bool × Engine :=
  match s.db.bind fun db => db.clauses ci with
  | none => (.ok,false,s)
  | some lits =>
    if lits = [] then (.ok,false,s)
    else if lits.any fun l => l.varId ≥ s.ctx.nVars || literalIsTrue s.ctx.vars l then (.ok,false,s)
    else
      match lits.filter fun l => !literalIsFalse s.ctx.vars l with
      | [] => clauseConflict s ci
      | [unit] => enforceUnit s ci unit
      | _ => (.ok,false,s)

def checkClause (s : Engine) (ci : ℕ) : PropResult × Engine :=
  ((visitClause s ci).1,(visitClause s ci).2.2)

def checkWatch : List ℕ → Engine → PropResult × Engine
  | [], s => (.ok,s)
  | ci :: l, s =>
    let r := checkClause s ci
    if r.1 = .conflict then (.conflict,r.2) else checkWatch l r.2

def scanClauses : List ℕ → Bool → Engine → PropResult × Bool × Engine
  | [], changed, s => (.ok,changed,s)
  | ci :: l, changed, s =>
    let r := visitClause s ci
    if r.1 = .conflict then (.conflict,changed,r.2.2) else scanClauses l (changed || r.2.1) r.2.2

def Engine.nClauses (s : Engine) : ℕ :=
  match s.db with
  | none => 0
  | some db => db.nClauses

def clausePropagate : ℕ → Engine → PropResult × Engine
  | 0, s => (.ok,s)
  | iterations+1, s =>
    let r := scanClauses (List.range s.nClauses) false s
    if r.1 = .conflict then (.conflict,r.2.2)
    else if r.2.1 then clausePropagate iterations r.2.2 else (.ok,r.2.2)

def maxIters : ℕ := 10

def endNotify (s : Engine) : Engine :=
  { s with db := s.db.map fun db => { db with pend := [], pendOver := false, inNotify := false } }

/-- `_drain`; `none` when the bound on its rounds is reached. -/
def drain : ℕ → PropResult → Engine → Option (PropResult × Engine)
  | 0, _, _ => none
  | n+1, res, s =>
    match s.db with
    | none => some (res,s)
    | some db =>
      if res = .conflict then some (res,endNotify s)
      else
        match db.pend with
        | (v,ub) :: rest =>
          let r := checkWatch (if ub then db.watchLb v else db.watchUb v)
            { s with db := some { db with pend := rest } }
          drain n r.1 r.2
        | [] =>
          if db.pendOver then
            let r := clausePropagate maxIters { s with db := some { db with pendOver := false } }
            drain n r.1 r.2
          else some (res,endNotify s)

def clauseNotifyHold (s : Engine) : Bool × Engine :=
  match s.db with
  | none => (false,s)
  | some db => if db.inNotify then (false,s) else (true,{ s with db := some { db with inNotify := true } })

def clauseNotifyRelease (n : ℕ) (s : Engine) (check : Bool) : Option (PropResult × Engine) :=
  if check then drain n .ok s else some (.ok,endNotify s)

end Solver
end DvSolve
