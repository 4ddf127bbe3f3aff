import Mathlib.Tactic

/-! The dispatcher `dvs_sat.c` over a SAT backend.
A backend is known by the calls it has received; a lazy instance logs them until the
first solve. Frames are selector variables on an incremental backend and clause
counts on another. -/
namespace DvSolve
namespace Sat

def satSat : ℤ := 10
def satUnsat : ℤ := 20
def satUnknown : ℤ := 0

def maxPush : ℕ := 64

inductive Setting
  | reserve | seed | conflicts | decisions | light | sampling | phase
  deriving DecidableEq

inductive Call
  | add (lit : ℤ)
  | set (k : Setting) (v : ℤ)
  | solve (assumps : List ℤ)
  deriving DecidableEq

/-- An op of the lazy log: `add v` stands for the next `v` logged literals. -/
inductive LzOp
  | add (v : ℕ)
  | set (k : Setting) (v : ℤ)
  deriving DecidableEq

/-- `dvs_sat_t`. Stacks hold their innermost frame first; `impl` is the calls the
backend has received, `none` before it is made. -/
structure DvsSat where
  impl : Option (List Call)
  incremental : Bool
  numClauses : ℕ
  maxVar : ℕ
  lastLitWasZero : Bool
  tainted : Bool
  pushNumClauses : List ℕ
  selStack : List ℕ
  selNext : ℕ
  assumeBuf : List ℤ
  lzOps : List LzOp
  lzLits : List ℤ
  deriving DecidableEq

/-- `sat_alloc`, then the backend unless the instance is lazy. -/
def satNew (incremental lazy : Bool) : DvsSat where
  impl := if lazy then none else some []
  incremental := incremental
  numClauses := 0
  maxVar := 0
  lastLitWasZero := true
  tainted := false
  pushNumClauses := []
  selStack := []
  selNext := 0
  assumeBuf := []
  lzOps := []
  lzLits := []

namespace DvsSat

def pushDepth (s : DvsSat) : ℕ :=
  if s.incremental then s.selStack.length else s.pushNumClauses.length

def lzLog (s : DvsSat) (op : LzOp) : DvsSat := { s with lzOps := s.lzOps ++ [op] }

def vtAdd (s : DvsSat) (lit : ℤ) : DvsSat :=
  match s.impl with
  | some calls => { s with impl := some (calls ++ [.add lit]) }
  | none =>
    let s := { s with lzLits := s.lzLits ++ [lit] }
    match s.lzOps.getLast? with
    | some (.add v) => { s with lzOps := s.lzOps.dropLast ++ [.add (v+1)] }
    | _ => s.lzLog (.add 1)

/-- The setters, and `dvs_sat_reserve` short of its own bookkeeping. -/
def vtSet (s : DvsSat) (k : Setting) (v : ℤ) : DvsSat :=
  match s.impl with
  | some calls => { s with impl := some (calls ++ [.set k v]) }
  | none => s.lzLog (.set k v)

def replay : List LzOp → List ℤ → List Call
  | [], _ => []
  | .add v :: ops, lits => (lits.take v).map .add ++ replay ops (lits.drop v)
  | .set k v :: ops, lits => .set k v :: replay ops lits

def materialize (s : DvsSat) : DvsSat :=
  match s.impl with
  | some _ => s
  | none => { s with impl := some (replay s.lzOps s.lzLits), lzOps := [], lzLits := [] }

def dvsSatReserve (s : DvsSat) (maxVar : ℕ) : DvsSat :=
  if 0 < maxVar then
    let s := s.vtSet .reserve maxVar
    { s with maxVar := max s.maxVar maxVar }
  else s

def toLit (sel : ℕ) : ℤ := if sel % 2^32 < 2^31 then (sel % 2^32 : ℕ) else (sel % 2^32 : ℕ) - 2^32

def tagClause (s : DvsSat) : DvsSat :=
  match s.selStack with
  | sel :: _ => if s.incremental then s.vtAdd (-toLit sel) else s
  | [] => s

def dvsSatAdd (s : DvsSat) (lit : ℤ) : DvsSat :=
  if lit = 0 then
    let s := if s.lastLitWasZero then s
      else { s.tagClause with numClauses := s.tagClause.numClauses+1 }
    { s.vtAdd 0 with lastLitWasZero := true }
  else
    let s := { s.vtAdd lit with lastLitWasZero := false }
    { s with maxVar := max s.maxVar lit.natAbs }

def addClause (s : DvsSat) (c : List ℤ) : DvsSat := (c.foldl dvsSatAdd s).dvsSatAdd 0

def dvsSatSolve (answer : List Call → List ℤ → ℤ) (s : DvsSat) : ℤ × DvsSat :=
  if s.tainted then (satUnknown,s)
  else
    let s := s.materialize
    let s := if s.incremental then
      { s with assumeBuf := s.assumeBuf ++ s.selStack.reverse.map toLit } else s
    let calls := s.impl.getD []
    (answer calls s.assumeBuf,{ s with impl := some (calls ++ [.solve s.assumeBuf]), assumeBuf := [] })

def dvsSatPush (s : DvsSat) : DvsSat :=
  if s.pushDepth ≥ maxPush then { s with tainted := true }
  else if s.incremental then
    let s := if s.selNext ≤ s.maxVar then { s with selNext := s.maxVar+1 } else s
    { s with selStack := s.selNext :: s.selStack, selNext := s.selNext+1 }
  else { s with pushNumClauses := s.numClauses :: s.pushNumClauses }

def dvsSatPop (s : DvsSat) : DvsSat :=
  if s.incremental then
    match s.selStack with
    | [] => s
    | sel :: rest => ({ s with selStack := rest }.vtAdd (-toLit sel)).vtAdd 0
  else
    match s.pushNumClauses with
    | [] => s
    | snap :: rest =>
      let s := { s with pushNumClauses := rest }
      if s.numClauses ≠ snap then { s with tainted := true } else s

def dvsSatAssume (s : DvsSat) (lit : ℤ) : DvsSat :=
  if lit = 0 then s
  else { s with assumeBuf := s.assumeBuf ++ [lit], maxVar := max s.maxVar lit.natAbs }

end DvsSat

inductive Op
  | push
  | pop
  | clause (c : List ℤ)
  | assume (lit : ℤ)
  | solve
  | reserve (maxVar : ℕ)
  | set (k : Setting) (v : ℤ)
  deriving DecidableEq

def DvsSat.step (answer : List Call → List ℤ → ℤ) (s : DvsSat) : Op → DvsSat
  | .push => s.dvsSatPush
  | .pop => s.dvsSatPop
  | .clause c => s.addClause c
  | .assume lit => s.dvsSatAssume lit
  | .solve => (s.dvsSatSolve answer).2
  | .reserve n => s.dvsSatReserve n
  | .set k v => s.vtSet k v

end Sat
end DvSolve
