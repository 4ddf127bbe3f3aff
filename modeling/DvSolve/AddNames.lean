import DvSolve.CompileGate
import DvSolve.KeySet

/-! Adding constraints to a compiled context: `dvs_solver_add_constraint` of
`dvs_compile.c`, with the walk that looks up every name before anything changes.
An expression is a place in the pool of its problem, `EXPR_NULL` is `none`. The visited
set and the stack of the walk always get memory. -/
namespace DvSolve
namespace Add

open Solver

abbrev Ref (n : ℕ) := Option (Fin n)

/-- The expression kinds `_kw_visit` tells apart, with what it reads of each. -/
inductive Node (n : ℕ)
  | const
  | constWide
  | var (varId : ℕ)
  | binary (lhs rhs : Ref n)
  | unary (operand : Ref n)
  | ite (cond thenE elseE : Ref n)
  | inRange (value lo hi : Ref n)
  | inSet (value : Ref n) (elems : List (Ref n))
  | inRanges (value : Ref n) (ranges : List (Ref n × Ref n))
  | extend (operand : Ref n)
  | extract (operand : Ref n)
  | svCast (operand : Ref n)
  | cast (operand : Ref n)
  | concat (hi lo : Ref n)
  | sum (result : Ref n) (refs : List (Ref n))
  | countones (result operand : Ref n)
  | clog2 (result operand : Ref n)
  | arraySelect (baseVarId nElems : ℕ) (result index : Ref n)

structure VarSpec where
  varId : ℕ
  width : ℕ
  isSigned : Bool
  aux : Bool
  lo : BitVec 64
  hi : BitVec 64

/-- `dvs_problem_t`: the pool and the lists, each from its head on. Of constraints and
soft constraints the roots are kept, of the others the ids. -/
structure Problem where
  size : ℕ
  nodes : Fin size → Node size
  vars : List VarSpec
  constraints : List (Ref size)
  softs : List (Ref size)
  allDiff : List (List ℕ)
  sources : List (List ℕ)
  dists : List ℕ

/-- Where a variable comes from: a declaration of a problem, a field that the compile splits a
word into, or what the compile makes for itself beside these. -/
inductive Origin
  | declared
  | field
  | made
  deriving DecidableEq

structure AddCtx where
  ctx : Ctx
  origin : ℕ → Origin
  varAlias : ℕ → ℕ
  nVarsCapacity : ℕ
  initialVars : Option (ℕ → Variable)
  initialNVars : ℕ
  nCheckpoints : ℕ
  scopeBounds : List (ℕ × Bool × BitVec 64)
  overflow : Bool
  problemFp : ℕ
  searchSealed : Bool
  searchBase : ℕ

/-- `VAR_DECLARED`. The fields have declarations of their own in the compile's copy of the
problem, so they carry it too. -/
def AddCtx.declared (s : AddCtx) (id : ℕ) : Bool := s.origin id != .made

def nomem : ℤ := -1

def unsat : ℤ := -2

def unsupportedWidth : ℤ := -3

def badVar : ℤ := -4

inductive SvErr
  | nomem
  | unknownVar
  | unsupported
  deriving DecidableEq

def elabErrorCode : SvErr → ℤ
  | .nomem => nomem
  | .unknownVar => badVar
  | .unsupported => unsupportedWidth

structure KnownWalk (n : ℕ) where
  seen : List ℕ
  nSeen : ℕ
  st : List (Fin n)
  bad : Bool

def kwHash (r : ℕ) : ℕ := (r+1) * 2654435761 % 2^32

variable {n : ℕ}

/-- `_kw_id`; `known` are the ids the context has and those the add declares. -/
def kwId (known : ℕ → Bool) (w : KnownWalk n) (id : ℕ) : KnownWalk n :=
  if known id then w else { w with bad := true }

def kwPush (w : KnownWalk n) (r : Ref n) : KnownWalk n :=
  match r with
  | none => w
  | some r =>
    if w.bad then w
    else
      let seen := KeySet.room kwHash w.seen w.nSeen
      if KeySet.has kwHash seen r then { w with seen := seen }
      else
        { w with
          seen := OpenTable.place kwHash seen r r
          nSeen := w.nSeen+1
          st := r :: w.st }

def kwVisit (known : ℕ → Bool) (w : KnownWalk n) : Node n → KnownWalk n
  | .var id => kwId known w id
  | .binary lhs rhs => kwPush (kwPush w lhs) rhs
  | .unary operand => kwPush w operand
  | .ite cond thenE elseE => kwPush (kwPush (kwPush w cond) thenE) elseE
  | .inRange value lo hi => kwPush (kwPush (kwPush w value) lo) hi
  | .inSet value elems => elems.foldl kwPush (kwPush w value)
  | .inRanges value ranges =>
    ranges.foldl (fun w p => kwPush (kwPush w p.1) p.2) (kwPush w value)
  | .extend operand => kwPush w operand
  | .extract operand => kwPush w operand
  | .svCast operand => kwPush w operand
  | .cast operand => kwPush w operand
  | .concat hi lo => kwPush (kwPush w hi) lo
  | .sum result refs => refs.foldl kwPush (kwPush w result)
  | .countones result operand => kwPush (kwPush w result) operand
  | .clog2 result operand => kwPush (kwPush w result) operand
  | .arraySelect base nElems result index =>
    let w := (List.range nElems).foldl (fun w i => kwId known w ((base+i) % 2^32)) w
    kwPush (kwPush w result) index
  | .const => w
  | .constWide => w

def kwDrain (known : ℕ → Bool) (nodes : Fin n → Node n) : ℕ → KnownWalk n → KnownWalk n
  | 0, w => w
  | fuel+1, w =>
    match w.st with
    | [] => w
    | r :: st =>
      if w.bad then w
      else kwDrain known nodes fuel (kwVisit known { w with st := st } (nodes r))

def kwRoot (known : ℕ → Bool) (nodes : Fin n → Node n) (w : KnownWalk n) (root : Ref n) :
    KnownWalk n :=
  kwDrain known nodes n (kwPush w root)

def addHi (base : ℕ) (vars : List VarSpec) : ℕ :=
  vars.foldl (fun hi v => if v.varId ≥ hi then (v.varId+1) % 2^32 else hi) base

def addMine (base : ℕ) (vars : List VarSpec) : ℕ → Bool :=
  vars.foldl (fun mine v => if v.varId ≥ base then Function.update mine (v.varId-base) true else mine)
    fun _ => false

def knownId (s : AddCtx) (p : Problem) (base id : ℕ) : Bool :=
  if id < base then (s.ctx.vars id).width ≠ 0
  else id < addHi base p.vars && addMine base p.vars (id-base)

def kwRoots (known : ℕ → Bool) (nodes : Fin n → Node n) (w : KnownWalk n)
    (roots : List (Ref n)) : KnownWalk n :=
  roots.foldl (fun w r => if w.bad then w else kwRoot known nodes w r) w

def kwIds (known : ℕ → Bool) (w : KnownWalk n) (ids : List ℕ) : KnownWalk n :=
  ids.foldl (kwId known) w

def addNamesKnown (s : AddCtx) (p : Problem) (base : ℕ) : ℤ :=
  let known := knownId s p base
  let w := kwRoots known p.nodes ⟨[],0,[],false⟩ p.constraints
  let w := kwRoots known p.nodes w p.softs
  let w := p.allDiff.foldl (fun w ids => if w.bad then w else kwIds known w ids) w
  let w := p.sources.foldl (fun w ids => if w.bad then w else kwIds known w ids) w
  let w := p.dists.foldl (fun w id => if w.bad then w else kwId known w id) w
  if w.bad then badVar else 0

/-- What an add calls: elaboration and the rewriting of masks, which read the types of
the context's variables, and what runs once the names are checked. Each of the latter
leaves a context and says whether it had the memory or what it found. -/
structure Ops where
  elaborate : (ℕ → Option (ℕ × Bool)) → Problem → Except SvErr Problem
  rewriteMasks : (ℕ → Option (ℕ × Bool)) → Problem → Problem
  reserveVars : ℕ → AddCtx → AddCtx × Bool
  wideBounds : AddCtx → AddCtx × Bool
  compileConstraint : (q : Problem) → Ref q.size → AddCtx → AddCtx × ℤ
  addAllDifferent : List ℕ → AddCtx → AddCtx × Bool
  logScopeBounds : Option ℕ → AddCtx → AddCtx × Bool
  joinSnapshot : Option ℕ → ℕ → AddCtx → AddCtx
  snapshotAddedVars : ℕ → AddCtx → AddCtx × Bool
  propagate : AddCtx → AddCtx × PropResult × Bool

def ctxVarType (s : AddCtx) (id : ℕ) : Option (ℕ × Bool) :=
  if id ≥ s.ctx.nVars then none
  else some ((s.ctx.vars id).width,(s.ctx.vars id).signed)

def checkVars (s : AddCtx) (base : ℕ) : List VarSpec → ℤ
  | [] => 0
  | v :: vs =>
    if v.varId < base then
      if !s.declared v.varId ∨ (s.ctx.vars v.varId).width ≠ v.width then badVar
      else checkVars s base vs
    else if v.width = 0 then badVar
    else if v.width > 64 then unsupportedWidth
    else checkVars s base vs

def wantVars (base : ℕ) (vars : List VarSpec) : ℕ :=
  vars.foldl (fun want v => if (v.varId+1) % 2^32 > want then (v.varId+1) % 2^32 else want) base

def putVar (s : AddCtx) (id : ℕ) (v : Variable) : AddCtx :=
  { s with
    ctx := { s.ctx.setVar id v with nVars := max s.ctx.nVars (id+1) }
    origin := Function.update s.origin id .declared }

/-- The second walk over the declarations; `0` when every new variable is there. -/
def initVars (O : Ops) (base : ℕ) : List VarSpec → AddCtx → AddCtx × ℤ
  | [], s => (s,0)
  | v :: vs, s =>
    if v.varId ≥ s.nVarsCapacity then (s,-1)
    else if v.varId ≥ base then
      if v.width < 32 ∨ v.width = 32 ∧ v.isSigned then
        let x := { initTier0 v.width v.isSigned v.lo v.hi with aux := v.aux }
        initVars O base vs (putVar s v.varId x)
      else if v.width ≤ 64 then
        let (s,ok) := O.wideBounds s
        if ok then
          initVars O base vs
            (putVar s v.varId ⟨0#32,0#32,(v.lo,v.hi),v.width,v.isSigned,true,false,v.aux⟩)
        else (s,-1)
      else (s,unsupportedWidth)
    else initVars O base vs s

def compileConstraints (O : Ops) (q : Problem) :
    List (Ref q.size) → ℕ → AddCtx → AddCtx × ℤ
  | [], k, s => (s,k)
  | root :: roots, k, s =>
    let (s,r) := O.compileConstraint q root s
    if r < 0 then (s,-2) else compileConstraints O q roots (if r = 0 then k+1 else k) s

def compileAllDiff (O : Ops) : List (List ℕ) → AddCtx → AddCtx × Bool
  | [], s => (s,true)
  | ids :: rest, s =>
    let (s,ok) := O.addAllDifferent ids s
    if ok then compileAllDiff O rest s else (s,false)

def compileAdded (O : Ops) (q : Problem) (base : ℕ) (top : Option ℕ) (s : AddCtx) :
    AddCtx × ℤ :=
  let (s,k) := compileConstraints O q q.constraints 0 s
  if k < 0 then (s,k)
  else
    let (s,ok) := compileAllDiff O q.allDiff s
    if !ok then (s,-1)
    else
      let (s,ok) := if s.nCheckpoints > 0 then O.logScopeBounds top s else (s,true)
      if !ok then (s,-1)
      else
        let s := if s.nCheckpoints = 0 ∧ s.initialVars.isSome then O.joinSnapshot top base s else s
        let (s,ok) := O.snapshotAddedVars base s
        if !ok then (s,-1)
        else
          let (s,r,aborted) := O.propagate s
          if r = .conflict then if aborted then (s,k+1) else (s,-2) else (s,k)

def addConstraintBody (O : Ops) (q : Problem) (s : AddCtx) : AddCtx × ℤ :=
  let top := s.ctx.trailTop
  let base := s.ctx.nVars
  let rc := checkVars s base q.vars
  if rc ≠ 0 then (s,rc)
  else
    let nk := addNamesKnown s q base
    if nk ≠ 0 then (s,nk)
    else
      let want := wantVars base q.vars
      let (s,ok) := O.reserveVars want s
      if !ok then (s,-1)
      else
        let (s,rc) := initVars O base q.vars { s with ctx := { s.ctx with nVars := want } }
        if rc ≠ 0 then (s,rc) else compileAdded O q base top s

def nomemCheck (s : AddCtx) (rc : ℤ) : ℤ :=
  if s.overflow ∧ rc ≠ unsupportedWidth ∧ rc ≠ badVar then nomem else rc

def searchDiscard (s : AddCtx) : AddCtx :=
  if !s.searchSealed then s
  else
    match trailBacktrack s.ctx s.searchBase with
    | some c => { s with ctx := c, searchSealed := false }
    | none => s

def solverAddConstraint (O : Ops) (p : Problem) (s : AddCtx) : AddCtx × ℤ :=
  match O.elaborate (ctxVarType s) p with
  | .error e => (s,elabErrorCode e)
  | .ok q =>
    let (s',rc) := addConstraintBody O (O.rewriteMasks (ctxVarType s) q) s
    (s',nomemCheck s' rc)

def addConstraint (O : Ops) (p : Problem) (s : AddCtx) : AddCtx × ℤ :=
  solverAddConstraint O p (searchDiscard { s with problemFp := 0 })

end Add
end DvSolve
