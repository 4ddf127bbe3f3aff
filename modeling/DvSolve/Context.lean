import DvSolve.Linked

/-! The solver context: variables, propagators, trail and queue.
Pool offsets name propagators and are numbers, `EXPR_NULL` is `none`; the per-id tables
of the source are functions. Bounds are the bit patterns the source stores. -/
namespace DvSolve
namespace Solver

open Function (update)

structure Variable where
  lo : BitVec 32
  hi : BitVec 32
  wide : BitVec 64 × BitVec 64
  width : ℕ
  signed : Bool
  tier1 : Bool
  tier2 : Bool
  aux : Bool
  deriving DecidableEq

def Variable.tier0 (v : Variable) : Bool := !v.tier1 && !v.tier2

def varLo64 (v : Variable) : BitVec 64 :=
  if v.tier0 then if v.signed then v.lo.signExtend 64 else v.lo.setWidth 64 else v.wide.1

def varHi64 (v : Variable) : BitVec 64 :=
  if v.tier0 then if v.signed then v.hi.signExtend 64 else v.hi.setWidth 64 else v.wide.2

/-- Order of bound patterns: unsigned only for an unsigned variable of 64 bits. -/
def varBLt (v : Variable) (a b : BitVec 64) : Bool :=
  if !v.signed && v.width ≥ 64 then a.ult b else a.slt b

def varBGt (v : Variable) (a b : BitVec 64) : Bool := varBLt v b a

def varReprMin (v : Variable) : BitVec 64 :=
  if v.signed then
    if v.width ≥ 64 then BitVec.intMin 64 else -(1#64 <<< (v.width-1))
  else 0#64

def varReprMax (v : Variable) : BitVec 64 :=
  if v.signed then
    if v.width ≥ 64 then BitVec.intMax 64 else (1#64 <<< (v.width-1)) - 1#64
  else if v.width = 64 then BitVec.allOnes 64
  else if v.width > 64 then BitVec.intMax 64
  else (1#64 <<< v.width) - 1#64

inductive PropResult
  | ok
  | conflict
  | entailed
  deriving DecidableEq, Repr

inductive Tighten
  | lb32
  | ub32
  | lb64
  | ub64
  deriving DecidableEq, Repr

/-- A fire function: it reads variables, tightens bounds and ends with a result. -/
inductive Fire
  | done (r : PropResult)
  | read (v : ℕ) (k : Variable → Fire)
  | tighten (t : Tighten) (v : ℕ) (b : BitVec 64) (k : PropResult → Fire)

structure Propagator where
  queueNext : Option ℕ
  propId : ℕ
  priority : ℕ
  entailed : Bool
  inQueue : Bool
  fire : Fire

structure PropQueue where
  nonEmptyMask : ℕ
  heads : ℕ → Option ℕ
  tails : ℕ → Option ℕ

inductive TrailKind
  | lb
  | ub
  | hole
  deriving DecidableEq, Repr

inductive TrailValueSize
  | size32
  | size64
  deriving DecidableEq, Repr

structure TrailEntry where
  prev : Option ℕ
  varId : ℕ
  kind : TrailKind
  valueSize : TrailValueSize
  decisionLevel : ℕ
  oldValue : BitVec 64
  propRef : Option ℕ
  flags : ℕ

structure EntailEntry where
  prev : Option ℕ
  propRef : ℕ

inductive Cell
  | trail (e : TrailEntry)
  | entail (x : EntailEntry)

structure LevelMark where
  stackMark : ℕ
  trailTop : Option ℕ
  trailCount : ℕ
  entailTop : Option ℕ

/-- `guard_ix`: the guards inverted, for the counts it was built with. -/
structure GuardIx where
  nVars : ℕ
  nProps : ℕ
  props : ℕ → List ℕ

/-- `dvs_ctx_t`, the parts that propagation and the trail use. Propagators live at
offsets below `poolTop`; `watchers v` is the chain from `watcher_heads[v]`; `growable` is
`pool.alloc` being set. The records of the dynamic stack are listed oldest first and an
address is a position in it. -/
structure Ctx where
  vars : ℕ → Variable
  nVars : ℕ
  props : ℕ → Propagator
  poolTop : ℕ
  nProps : ℕ
  propRefs : ℕ → Option ℕ
  propCapacity : ℕ
  guardVars : ℕ → Option ℕ
  guardIx : Option GuardIx
  guardDirty : Bool
  growable : Bool
  watchers : ℕ → List ℕ
  queue : PropQueue
  unassignedMask : BitVec 64
  dynamic : List Cell
  trailTop : Option ℕ
  trailCount : ℕ
  entailTop : Option ℕ
  levelMarks : ℕ → LevelMark
  decisionLevel : ℕ
  currentPropRef : Option ℕ
  currentFlags : ℕ

def Ctx.setProp (c : Ctx) (ref : ℕ) (p : Propagator) : Ctx :=
  { c with props := update c.props ref p }

def Ctx.setVar (c : Ctx) (id : ℕ) (v : Variable) : Ctx :=
  { c with vars := update c.vars id v }

def openMask (vars : ℕ → Variable) : ℕ → BitVec 64
  | 0 => 0#64
  | n+1 =>
    if (vars n).aux ∨ varLo64 (vars n) = varHi64 (vars n) then openMask vars n
    else openMask vars n ||| 1#64 <<< n

def nLevels : ℕ := 16

def PropQueue.empty : PropQueue := ⟨0,fun _ => none,fun _ => none⟩

def propEnqueue (c : Ctx) (ref : ℕ) : Ctx :=
  let p := c.props ref
  if p.inQueue || p.entailed then c
  else
    let c := c.setProp ref { p with inQueue := true, queueNext := none }
    let lvl := p.priority
    let q := c.queue
    match q.heads lvl, q.tails lvl with
    | none, _ =>
      { c with queue := ⟨q.nonEmptyMask ||| 2^lvl,update q.heads lvl (some ref),
          update q.tails lvl (some ref)⟩ }
    | some _, some tail =>
      { c.setProp tail { c.props tail with queueNext := some ref } with
        queue := { q with tails := update q.tails lvl (some ref) } }
    | some _, none => c

def takeHead (c : Ctx) (lvl ref : ℕ) : Ctx :=
  let next := (c.props ref).queueNext
  let q := { c.queue with heads := update c.queue.heads lvl next }
  { c.setProp ref { c.props ref with queueNext := none, inQueue := false } with
    queue :=
      if next = none then
        { q with
          tails := update q.tails lvl none
          nonEmptyMask := q.nonEmptyMask &&& (0xFFFF ^^^ 2^lvl) }
      else q }

/-- Take the head of the first level of the mask, if there is one. -/
def dequeue (c : Ctx) : Option (ℕ × Ctx) := do
  let lvl ← (List.range nLevels).find? fun l => c.queue.nonEmptyMask.testBit l
  let ref ← c.queue.heads lvl
  pure (ref,takeHead c lvl ref)

def clearNode (c : Ctx) (ref : ℕ) : Ctx :=
  c.setProp ref { c.props ref with inQueue := false, entailed := false, queueNext := none }

def clearLevel (c : Ctx) (lvl : ℕ) : Option Ctx :=
  (Linked.walk (· == none) (fun c ref => ref < c.poolTop) (fun c ref => (c.props ref).queueNext)
    clearNode (c.poolTop+1) (c.queue.heads lvl) c).map fun c =>
      { c with queue := { c.queue with
          heads := update c.queue.heads lvl none
          tails := update c.queue.tails lvl none } }

def clearQueue (c : Ctx) : Option Ctx :=
  ((List.range nLevels).foldlM clearLevel c).map fun c =>
    { c with queue := { c.queue with nonEmptyMask := 0 } }

end Solver
end DvSolve
