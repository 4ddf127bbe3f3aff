import DvSolve.Context

/-! The trail: `dvs_trail.c` and the bound tightening of `dvs_propagate.c`. -/
namespace DvSolve
namespace Solver

open Linked

def guardedBy (guardVars : ℕ → Option ℕ) (np v : ℕ) : List ℕ :=
  (List.range np).filter fun i => guardVars i == some v

def guardIxBuild (c : Ctx) (nv np : ℕ) : Ctx :=
  match c.guardIx with
  | some ix =>
    if !c.guardDirty ∧ ix.nVars = nv ∧ ix.nProps = np then c
    else { c with guardIx := some ⟨nv,np,guardedBy c.guardVars np⟩, guardDirty := false }
  | none => { c with guardIx := some ⟨nv,np,guardedBy c.guardVars np⟩, guardDirty := false }

/-- Enqueue the propagator with id `i`, if it is registered. -/
def wakeId (c : Ctx) (i : ℕ) : Ctx :=
  match c.propRefs i with
  | some ref => propEnqueue c ref
  | none => c

/-- Enqueue every propagator whose guard is `v`: by the guard index, or by a scan when
the pool cannot grow. -/
def wakeGuards (c : Ctx) (v : ℕ) : Ctx :=
  let lim := min c.nProps c.propCapacity
  if c.growable then
    let c := guardIxBuild c c.nVars lim
    match c.guardIx with
    | some ix => if v ≥ ix.nVars then c else (ix.props v).foldl wakeId c
    | none => c
  else (guardedBy c.guardVars lim v).foldl wakeId c

def wakeVar (c : Ctx) (v : ℕ) : Ctx := wakeGuards ((c.watchers v).foldl propEnqueue c) v

def propSetGuard (c : Ctx) (ref v : ℕ) : Ctx :=
  let id := (c.props ref).propId
  if id < c.propCapacity then
    { c with guardVars := Function.update c.guardVars id (some v), guardDirty := true }
  else c

def trailPushLevel (c : Ctx) : Ctx :=
  { c with
    levelMarks := Function.update c.levelMarks c.decisionLevel
      ⟨c.dynamic.length,c.trailTop,c.trailCount,c.entailTop⟩
    decisionLevel := c.decisionLevel+1 }

def pushEntry (c : Ctx) (e : TrailEntry) : Ctx :=
  { c with
    dynamic := c.dynamic ++ [.trail { e with prev := c.trailTop }]
    trailTop := some c.dynamic.length
    trailCount := c.trailCount+1 }

def storedBound (v : Variable) : TrailKind → BitVec 64
  | .lb => if v.tier0 then v.lo.signExtend 64 else v.wide.1
  | .ub => if v.tier0 then v.hi.signExtend 64 else v.wide.2
  | .hole => 0#64

def setBound (v : Variable) (k : TrailKind) (b : BitVec 64) : Variable :=
  match k with
  | .lb =>
    if v.tier0 then { v with lo := b.setWidth 32 }
    else if v.tier1 then { v with wide := (b,v.wide.2) } else v
  | .ub =>
    if v.tier0 then { v with hi := b.setWidth 32 }
    else if v.tier1 then { v with wide := (v.wide.1,b) } else v
  | .hole => v

def trailRecord (k : TrailKind) (c : Ctx) (id : ℕ) (new : BitVec 64) : Ctx :=
  let v := c.vars id
  if v.tier0 || v.tier1 then
    pushEntry (c.setVar id (setBound v k new))
      ⟨none,id,k,if v.tier0 then .size32 else .size64,c.decisionLevel % 2^16,storedBound v k,
        c.currentPropRef,c.currentFlags⟩
  else c

def trailRecordLb := trailRecord .lb
def trailRecordUb := trailRecord .ub

def trailRecordHole (c : Ctx) (id : ℕ) (removed : BitVec 64) : Ctx :=
  pushEntry c ⟨none,id,.hole,.size32,c.decisionLevel % 2^16,removed,c.currentPropRef,c.currentFlags⟩

def trailMarkEntailed (c : Ctx) (ref : ℕ) : Ctx :=
  { c.setProp ref { c.props ref with entailed := true } with
    dynamic := c.dynamic ++ [.entail ⟨c.entailTop,ref⟩]
    entailTop := some c.dynamic.length }

/-- What follows a recorded tightening: an empty domain conflicts, a single value clears
the unassigned bit, and the watchers wake. -/
def afterTighten (c : Ctx) (id : ℕ) (empty single : Bool) : PropResult × Ctx :=
  if empty then (.conflict,c)
  else
    let c := if single ∧ id < 64 then
        { c with unassignedMask := c.unassignedMask &&& ~~~(1#64 <<< id) } else c
    (.ok,wakeVar c id)

def afterTighten32 (c : Ctx) (id : ℕ) : PropResult × Ctx :=
  let v := c.vars id
  afterTighten c id (v.hi.slt v.lo) (v.lo == v.hi)

def afterTighten64 (c : Ctx) (id : ℕ) : PropResult × Ctx :=
  let v := c.vars id
  afterTighten c id (varBGt v (varLo64 v) (varHi64 v)) (varLo64 v == varHi64 v)

def ctxTightenLb32 (c : Ctx) (id : ℕ) (new : BitVec 32) : PropResult × Ctx :=
  if new.sle (c.vars id).lo then (.ok,c)
  else afterTighten32 (trailRecordLb c id (new.signExtend 64)) id

def ctxTightenUb32 (c : Ctx) (id : ℕ) (new : BitVec 32) : PropResult × Ctx :=
  if (c.vars id).hi.sle new then (.ok,c)
  else afterTighten32 (trailRecordUb c id (new.signExtend 64)) id

def ctxTightenLb64 (c : Ctx) (id : ℕ) (new : BitVec 64) : PropResult × Ctx :=
  let v := c.vars id
  if !varBGt v new (varLo64 v) then (.ok,c)
  else if varBGt v new (varReprMax v) then (.conflict,c)
  else afterTighten64 (trailRecordLb c id new) id

def ctxTightenUb64 (c : Ctx) (id : ℕ) (new : BitVec 64) : PropResult × Ctx :=
  let v := c.vars id
  if !varBLt v new (varHi64 v) then (.ok,c)
  else if varBLt v new (varReprMin v) then (.conflict,c)
  else afterTighten64 (trailRecordUb c id new) id

/-- The four tightenings, without the notification of learnt clauses. -/
def ctxTighten (t : Tighten) (c : Ctx) (id : ℕ) (b : BitVec 64) : PropResult × Ctx :=
  match t with
  | .lb32 => ctxTightenLb32 c id (b.setWidth 32)
  | .ub32 => ctxTightenUb32 c id (b.setWidth 32)
  | .lb64 => ctxTightenLb64 c id b
  | .ub64 => ctxTightenUb64 c id b

def trailAt (c : Ctx) (a : ℕ) : Option TrailEntry :=
  match c.dynamic[a]? with
  | some (.trail e) => some e
  | _ => none

def entailAt (c : Ctx) (a : ℕ) : Option EntailEntry :=
  match c.dynamic[a]? with
  | some (.entail x) => some x
  | _ => none

def undoEntry (c : Ctx) (a : ℕ) : Ctx :=
  match trailAt c a with
  | some e => c.setVar e.varId (setBound (c.vars e.varId) e.kind e.oldValue)
  | none => c

def isLive (c : Ctx) (ref : ℕ) : Bool :=
  let id := (c.props ref).propId
  !(id < c.propCapacity) || c.propRefs id == some ref

def undoEntail (c : Ctx) (a : ℕ) : Ctx :=
  match entailAt c a with
  | some x =>
    if isLive c x.propRef then
      c.setProp x.propRef { c.props x.propRef with entailed := false }
    else c
  | none => c

def undoTrail (c : Ctx) (mark : LevelMark) : Option Ctx :=
  walk (· == mark.trailTop) (fun c a => (trailAt c a).isSome)
    (fun c a => (trailAt c a).bind TrailEntry.prev) undoEntry (c.dynamic.length+1) c.trailTop c

def undoEntails (c : Ctx) (mark : LevelMark) : Option Ctx :=
  walk (fun h => h == none || h == mark.entailTop) (fun c a => (entailAt c a).isSome)
    (fun c a => (entailAt c a).bind EntailEntry.prev) undoEntail (c.dynamic.length+1)
    c.entailTop c

def popToMark (c : Ctx) (level : ℕ) (mark : LevelMark) : Ctx :=
  { c with
    entailTop := mark.entailTop
    dynamic := c.dynamic.take mark.stackMark
    trailTop := mark.trailTop
    trailCount := mark.trailCount
    decisionLevel := level }

def rebuildMask (c : Ctx) : Ctx :=
  if c.nVars ≤ 64 then { c with unassignedMask := openMask c.vars c.nVars } else c

/-- `trail_backtrack`; `none` when a walk leaves the records. -/
def trailBacktrack (c : Ctx) (level : ℕ) : Option Ctx := do
  let mark := c.levelMarks level
  let c ← undoTrail c mark
  let c ← undoEntails c mark
  clearQueue (rebuildMask (popToMark c level mark))

/-- The calls that change the trail, the queue and the bounds between two levels. -/
inductive Op
  | tighten (t : Tighten) (id : ℕ) (b : BitVec 64)
  | hole (id : ℕ) (removed : BitVec 64)
  | markEntailed (ref : ℕ)
  | enqueue (ref : ℕ)
  | setReason (ref : Option ℕ) (flags : ℕ)

def Op.run (o : Op) (c : Ctx) : Ctx :=
  match o with
  | .tighten t id b => (ctxTighten t c id b).2
  | .hole id removed => trailRecordHole c id removed
  | .markEntailed ref => trailMarkEntailed c ref
  | .enqueue ref => propEnqueue c ref
  | .setReason ref flags => { c with currentPropRef := ref, currentFlags := flags }

end Solver
end DvSolve
