import DvSolve.Maxsat
import DvSolve.Trail

/-! `dvs_solver_optimize`: solve, bound the objective below the value found, and solve again. The
searches are a parameter that is given the record of the objective variable; a reset puts the
record of the compiled problem back. -/
namespace DvSolve
namespace Optimize

open Maxsat Loop
open Solver (Variable PropResult setBound varBLt varBGt varLo64 varHi64 varReprMin)

variable {V : Type*}

structure Objective (V : Type*) where
  var : Variable
  own : Bool
  value : V → BitVec 64

abbrev Engine (V : Type*) := Variable → Search V

def tightenUb (v : Variable) (new : BitVec 64) : PropResult × Variable :=
  if !varBLt v new (varHi64 v) then (.ok,v)
  else if varBLt v new (varReprMin v) then (.conflict,v)
  else
    let v' := setBound v .ub new
    (if varBGt v' (varLo64 v') (varHi64 v') then .conflict else .ok,v')

def solverSolve (F : Engine V) (o : Objective V) (v : Variable) (c : Ctx V) : Option (Res V) :=
  match relaxRound (F v) (c.setMask (entryMask c),false) with
  | .exit r => r
  | .again s => (loop (relaxRound (F o.var)) 65 s).join

structure Saved (V : Type*) where
  objective : BitVec 64
  values : V
  assumptions : ℕ → Bool

structure State (V : Type*) where
  ctx : Ctx V
  record : Variable
  best : Option (Saved V)
  nRounds : ℕ
  round : ℕ
  log : List (BitVec 64)

def better (best : Option (Saved V)) (obj : BitVec 64) : Bool :=
  best.all fun b => obj.slt b.objective

def State.keep (o : Objective V) (s : State V) (c : Ctx V) (m : V) : State V :=
  let obj := o.value m
  { s with
    ctx := reset c
    best := if better s.best obj then some ⟨obj,m,c.value⟩ else s.best
    nRounds := s.round+1
    log := obj::s.log }

inductive Stop
  | answered
  | limit
  deriving DecidableEq

/-- One round; `none` when a shift in the solve has no meaning. The notification of the learnt
clauses is taken with the propagation: a conflict of either ends the loop. -/
def round (F : Engine V) (o : Objective V) (maxRounds : ℕ) (late : ℕ → Bool) (s : State V) :
    Step (State V) (Option (State V × Stop)) :=
  if maxRounds ≤ s.round ∨ late s.round then .exit (some (s,.limit))
  else
    match solverSolve F o s.record s.ctx with
    | some (.ok c) =>
      match c.found with
      | some m =>
        let s := s.keep o c m
        let t := tightenUb o.var (o.value m - 1#64)
        if t.1 = .conflict ∨ !(F t.2).propagate s.ctx.calls s.ctx.value then
          .exit (some (s,.answered))
        else .again { s with record := t.2, round := s.round+1 }
      | none => .exit none
    | some (.unsat c) => .exit (some ({ s with ctx := c },.answered))
    | some (.timeout c) => .exit (some ({ s with ctx := c },.answered))
    | _ => .exit none

def pinBest (c : Ctx V) (b : Saved V) : Option (Ctx V) :=
  if (List.range c.nAssumptions).all b.assumptions then some { reset c with found := some b.values }
  else none

/-- `OptimizeResult`, with the log, how the loop ended and the context that is left; `none` for
that when a pin was refused. -/
structure Result (V : Type*) where
  found : Bool
  bestObjective : BitVec 64
  nRounds : ℕ
  log : List (BitVec 64)
  stop : Stop
  ctx : Option (Ctx V)

def State.result (s : State V) (stop : Stop) : Result V :=
  ⟨s.best.isSome,(s.best.map Saved.objective).getD 0,s.nRounds,s.log,stop,match s.best with
    | some b => pinBest s.ctx b
    | none => some s.ctx⟩

def optimize (F : Engine V) (o : Objective V) (maxRounds : ℕ) (late : ℕ → Bool) (c : Ctx V) :
    Option (Result V) :=
  (loop (round F o maxRounds late) (maxRounds+1) ⟨c,o.var,none,0,0,[]⟩).join.map fun r =>
    r.1.result r.2

end Optimize
end DvSolve
