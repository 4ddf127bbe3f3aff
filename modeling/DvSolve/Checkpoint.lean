import Mathlib.Data.List.DropRight
import DvSolve.ClauseDb

/-! Checkpoints: `dvs_checkpoint.c`, with `_alloc_prop` of `dvs_prop_templates.c`.
Pool memory is handed out upwards and a block is named by its offset, so that what was
allocated after a mark lies at or above it. -/
namespace DvSolve
namespace Solver

structure CheckpointMark where
  decisionLevel : ℕ
  nVars : ℕ
  nProps : ℕ
  nClauses : ℕ
  lcgPristine : Bool
  trailTop : Option ℕ
  trailCount : ℕ
  entailTop : Option ℕ
  stackMark : ℕ
  poolMark : ℕ
  initialVars : Option ℕ
  initialNVars : ℕ

/-- The context and the tables beside it. Of a mod or mul link the propagator is kept, of
an entry of the extension memo its variable, and of the reset snapshot where it lies and
how many variables it has. -/
structure Session where
  ctx : Ctx
  db : Option ClauseDb
  nAnalyses : ℕ
  arenaEmpty : Bool
  conflictProp : Option ℕ
  modLinks : List ℕ
  mulLinks : List ℕ
  extMemo : List ℕ
  initialVars : Option ℕ
  initialNVars : ℕ
  poolFloor : ℕ
  checkpoints : List CheckpointMark

def Session.nClauses (s : Session) : ℕ :=
  match s.db with
  | none => 0
  | some db => db.nClauses

def Session.lcgIsPristine (s : Session) : Bool :=
  match s.db with
  | none => true
  | some db => s.nAnalyses == 0 && db.nClauses == 0 && s.arenaEmpty

def Session.withCtx (s : Session) (f : Ctx → Ctx) : Session := { s with ctx := f s.ctx }

def maxProps : ℕ := 0xFFFF

def nextPropCap (cap n : ℕ) : ℕ := min maxProps (max (max (2*cap) 64) n)

/-- `dvs_ctx_room_prop`: the tables reach the next id, `none` when ids run out. -/
def roomProp (c : Ctx) : Option Ctx :=
  if c.nProps < c.propCapacity then some c
  else if c.nProps+1 > maxProps then none
  else some { c with
    propCapacity := nextPropCap c.propCapacity (c.nProps+1)
    propRefs := fun i => if i < c.propCapacity then c.propRefs i else none
    guardVars := fun i => if i < c.propCapacity then c.guardVars i else none }

/-- The block of `_alloc_prop`, at the end of the pool, at the head of the chains of the
variables it watches. -/
def placeProp (c : Ctx) (fire : Fire) (priority : ℕ) (watches : List ℕ) : Ctx :=
  { c.setProp c.poolTop ⟨none,c.nProps,priority,false,false,fire⟩ with
    poolTop := c.poolTop+1
    nProps := c.nProps+1
    watchers := fun v => if v ∈ watches then c.poolTop :: c.watchers v else c.watchers v }

def allocProp (c : Ctx) (fire : Fire) (priority : ℕ) (watches : List ℕ) : Option Ctx :=
  (roomProp c).map fun c =>
    let c' := propEnqueue (placeProp c fire priority watches) c.poolTop
    { c' with propRefs :=
        if c.nProps < c'.propCapacity then Function.update c'.propRefs c.nProps (some c.poolTop)
        else c'.propRefs }

def checkpointMark (s : Session) : CheckpointMark where
  decisionLevel := s.ctx.decisionLevel
  nVars := s.ctx.nVars
  nProps := s.ctx.nProps
  nClauses := s.nClauses
  lcgPristine := s.lcgIsPristine
  trailTop := s.ctx.trailTop
  trailCount := s.ctx.trailCount
  entailTop := s.ctx.entailTop
  stackMark := s.ctx.dynamic.length
  poolMark := s.ctx.poolTop
  initialVars := s.initialVars
  initialNVars := s.initialNVars

def solverCheckpoint (s : Session) : ℕ × Session :=
  (s.checkpoints.length,
    { s with checkpoints := s.checkpoints ++ [checkpointMark s], ctx := trailPushLevel s.ctx })

def resetMark (m : CheckpointMark) (c : Ctx) : Ctx :=
  { c with
    levelMarks := Function.update c.levelMarks m.decisionLevel
      ⟨m.stackMark,m.trailTop,m.trailCount,m.entailTop⟩ }

def dropProp (c : Ctx) (i : ℕ) : Ctx :=
  match c.propRefs i with
  | some ref =>
    { c.setProp ref { c.props ref with entailed := true } with
      propRefs := Function.update c.propRefs i none }
  | none => c

def dropProps (first : ℕ) (c : Ctx) : Ctx :=
  (List.range' first (min c.nProps c.propCapacity-first)).foldl dropProp c

def popLinks (n : ℕ) (links : List ℕ) : List ℕ := links.rdropWhile (n ≤ ·)

def lcgReset (db : ClauseDb) : ClauseDb :=
  { db with
    clauses := fun _ => none, nClauses := 0, watchLb := fun _ => [], watchUb := fun _ => []
    pend := [], pendOver := false }

def restoreClauses (m : CheckpointMark) (s : Session) : Session :=
  match s.db with
  | none => s
  | some db =>
    if m.lcgPristine then
      { s with db := some (lcgReset db), nAnalyses := 0, arenaEmpty := true }
    else
      { s with db := some { db with
          clauses := fun i => if m.nClauses ≤ i ∧ i < db.nClauses then none else db.clauses i
          nClauses := m.nClauses } }

def requeueProp (c : Ctx) (i : ℕ) : Ctx :=
  match c.propRefs i with
  | some ref =>
    propEnqueue (c.setProp ref { c.props ref with entailed := false, inQueue := false }) ref
  | none => c

def requeueProps (n : ℕ) (c : Ctx) : Ctx :=
  (List.range (min n c.propCapacity)).foldl requeueProp { c with queue := .empty }

def rewindPool (m : CheckpointMark) (nVarsWas : ℕ) (s : Session) : Session :=
  let first := max m.poolMark s.poolFloor
  { s with
    ctx := { s.ctx with
      watchers := fun v =>
        if v < m.nVars then (s.ctx.watchers v).dropWhile (first ≤ ·)
        else if v < nVarsWas then [] else s.ctx.watchers v
      currentPropRef := s.ctx.currentPropRef.filter (· < first)
      poolTop := first }
    conflictProp := s.conflictProp.filter (· < first)
    initialVars := m.initialVars
    initialNVars := m.initialNVars }

def restoreTables (m : CheckpointMark) (cp : ℕ) (s : Session) (c : Ctx) : Session :=
  restoreClauses m
    { s with
      ctx := rebuildMask { dropProps m.nProps c with nProps := m.nProps, nVars := m.nVars }
      modLinks := popLinks m.nProps s.modLinks
      mulLinks := popLinks m.nProps s.mulLinks
      extMemo := popLinks m.nVars s.extMemo
      checkpoints := s.checkpoints.take cp }

def solverRestore (s : Session) (cp : ℕ) : Option Session :=
  match s.checkpoints[cp]? with
  | none => some s
  | some m =>
    (trailBacktrack (resetMark m s.ctx) m.decisionLevel).map fun c =>
      rewindPool m s.ctx.nVars ((restoreTables m cp s c).withCtx (requeueProps m.nProps))

/-- What changes a context between checkpoints: variables, propagators and their guards,
pool memory for anything else, trail operations, links and memo entries, learning, a noted
conflict, a new reset snapshot, and a level mark that is overwritten. -/
inductive Act
  | newVar (v : Variable)
  | addProp (fire : Fire) (priority : ℕ) (watches : List ℕ)
  | setGuard (ref v : ℕ)
  | take (size : ℕ)
  | trail (o : Op)
  | modLink (prop : ℕ)
  | mulLink (prop : ℕ)
  | memo (r : ℕ)
  | learn (db : Option ClauseDb) (nAnalyses : ℕ) (arenaEmpty : Bool)
  | conflict (ref : Option ℕ)
  | snapshot (ref : Option ℕ) (n : ℕ)
  | overwrite (l : ℕ) (m : LevelMark)

def addVar (c : Ctx) (v : Variable) : Ctx :=
  { c.setVar c.nVars v with
    nVars := c.nVars+1
    watchers := Function.update c.watchers c.nVars [] }

def Act.run (a : Act) (s : Session) : Session :=
  match a with
  | .newVar v => s.withCtx (addVar · v)
  | .addProp fire priority watches =>
    s.withCtx fun c => (allocProp c fire priority watches).getD c
  | .setGuard ref v => s.withCtx (propSetGuard · ref v)
  | .take size => s.withCtx fun c => { c with poolTop := c.poolTop+size }
  | .trail o => s.withCtx o.run
  | .modLink prop => { s with modLinks := s.modLinks ++ [prop] }
  | .mulLink prop => { s with mulLinks := s.mulLinks ++ [prop] }
  | .memo r => { s with extMemo := s.extMemo ++ [r] }
  | .learn db nAnalyses arenaEmpty =>
    { s with db := db, nAnalyses := nAnalyses, arenaEmpty := arenaEmpty }
  | .conflict ref => { s with conflictProp := ref }
  | .snapshot ref n => { s with initialVars := ref, initialNVars := n }
  | .overwrite l m => s.withCtx fun c => { c with levelMarks := Function.update c.levelMarks l m }

end Solver
end DvSolve
