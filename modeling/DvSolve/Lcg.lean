import DvSolve.Propagate

/-! Conflict analysis: `lcg_analyze_conflict` of `dvs_lcg.c`.
The trail is read as the list of its entries, newest first. A bail-out returns the state
it leaves, since the bounds rewound on the way are restored from it. -/
namespace DvSolve
namespace Solver

def readBound (v : Variable) (isLb : Bool) : BitVec 64 := if isLb then varLo64 v else varHi64 v

def litHolds (v : Variable) (l : Literal) (x : BitVec 64) : Bool :=
  if l.isLb then !varBLt v x l.bound else !varBGt v x l.bound

def litHoldsNow (vars : ℕ → Variable) (l : Literal) : Bool :=
  litHolds (vars l.varId) l (readBound (vars l.varId) l.isLb)

def litStronger (v : Variable) (a b : Literal) : Bool :=
  if a.isLb then varBGt v a.bound b.bound else varBLt v a.bound b.bound

def followTrail (c : Ctx) : ℕ → Option ℕ → List TrailEntry
  | 0, _ => []
  | _+1, none => []
  | n+1, some a =>
    match trailAt c a with
    | none => []
    | some e => e :: followTrail c n e.prev

def trailEntries (c : Ctx) : List TrailEntry := followTrail c (c.dynamic.length+1) c.trailTop

def kindOf (isLb : Bool) : TrailKind := if isLb then .lb else .ub

def TrailEntry.isLb (e : TrailEntry) : Bool := e.kind == .lb

def TrailEntry.fromClause (e : TrailEntry) : Bool := e.flags.testBit 1

/-- `_mk_index`: the tightenings above the root by variable and direction, oldest first. -/
def mkIndex (nVars : ℕ) (es : List TrailEntry) (v : ℕ) (isLb : Bool) : List TrailEntry :=
  ((es.takeWhile fun e => e.decisionLevel > 0).filter fun e =>
    e.varId == v && e.kind == kindOf isLb && v < nVars).reverse

/-- The binary search of `_lit_maker`: the first index from which `holds` is true. -/
def makerSearch (holds : ℕ → Bool) : ℕ → ℕ → ℕ → ℕ
  | 0, lo, _ => lo
  | n+1, lo, hi =>
    if lo < hi then
      let mid := lo+(hi-lo)/2
      if holds mid then makerSearch holds n lo mid else makerSearch holds n (mid+1) hi
    else lo

def heldBefore (v : Variable) (bucket : List TrailEntry) (l : Literal) (i : ℕ) : Bool :=
  match bucket[i]? with
  | some e => litHolds v l e.oldValue
  | none => false

/-- `_lit_maker`: the entry of a bucket that made `l` true, `none` if it held at the root. -/
def litMaker (v : Variable) (bucket : List TrailEntry) (l : Literal) : Option TrailEntry :=
  let lo := makerSearch (heldBefore v bucket l) (bucket.length+1) 0 bucket.length
  if lo > 0 then bucket[lo-1]? else none

/-- What analysis knows of the propagators: their explainers, those that narrow without
reading the variable's own bound, and the variables they watch. -/
structure Explainers where
  explain : ℕ → Option (Ctx → ℕ → Bool → BitVec 64 → Option (List Literal))
  explainsWithoutOwnBound : ℕ → Bool
  watchedVars : ℕ → List ℕ

structure Analysis where
  vars : ℕ → Variable
  undo : List (ℕ × TrailKind × BitVec 64)
  applied : List TrailEntry
  seen : ℕ → Bool → Option Literal
  nAtCurLevel : ℕ
  learnt : List Literal
  bodyPos : ℕ → Bool → Option ℕ
  btLevel : ℕ
  forceSlot : Option (ℕ × Bool)
  conflictClause : Option ℕ

def maxClauseLits : ℕ := 64

def setSlot {α : Type} (f : ℕ → Bool → α) (v : ℕ) (isLb : Bool) (x : α) : ℕ → Bool → α :=
  Function.update f v (Function.update (f v) isLb x)

/-- A literal made at the current level is to be resolved. -/
def addSeen (v : Variable) (a : Analysis) (l : Literal) : Analysis :=
  match a.seen l.varId l.isLb with
  | none =>
    { a with seen := setSlot a.seen l.varId l.isLb (some l), nAtCurLevel := a.nAtCurLevel+1 }
  | some old =>
    if litStronger v l old then { a with seen := setSlot a.seen l.varId l.isLb (some l) } else a

def addBody (v : Variable) (a : Analysis) (l : Literal) : Except Analysis Analysis :=
  match a.bodyPos l.varId l.isLb with
  | some p =>
    match a.learnt[p]? with
    | some n =>
      if litStronger v l (literalNegate n) then
        .ok { a with learnt := a.learnt.set p (literalNegate l) }
      else .ok a
    | none => .ok a
  | none =>
    if a.learnt.length ≥ maxClauseLits then .error a
    else .ok { a with
      learnt := a.learnt ++ [literalNegate l]
      bodyPos := setSlot a.bodyPos l.varId l.isLb (some a.learnt.length) }

def addExplLit (s : Engine) (a : Analysis) (l : Literal) : Except Analysis Analysis :=
  if l.varId ≥ s.ctx.nVars then .error a
  else if !litHoldsNow a.vars l then .error a
  else
    match litMaker (s.ctx.vars l.varId)
      (mkIndex s.ctx.nVars (trailEntries s.ctx) l.varId l.isLb) l with
    | none => .ok a
    | some m =>
      if m.decisionLevel = 0 then .ok a
      else if m.decisionLevel = s.ctx.decisionLevel then .ok (addSeen (s.ctx.vars l.varId) a l)
      else
        (addBody (s.ctx.vars l.varId) a l).map fun a =>
          { a with btLevel := max a.btLevel m.decisionLevel }

def addExplLits (s : Engine) (a : Analysis) (ls : List Literal) : Except Analysis Analysis :=
  ls.foldlM (addExplLit s) a

def conflictVar (c : Ctx) : Option ℕ :=
  (List.range c.nVars).find? fun i => varBGt (c.vars i) (varLo64 (c.vars i)) (varHi64 (c.vars i))

def ubCrossed (es : List TrailEntry) (v : ℕ) : Bool :=
  match es.find? fun t => t.varId == v && t.kind != .hole with
  | some t => t.kind == .ub
  | none => true

def crossingLits (c : Ctx) (v : ℕ) : List Literal :=
  let clo := varLo64 (c.vars v)
  let chi := varHi64 (c.vars v)
  if ubCrossed (trailEntries c) v then [⟨v,true,clo⟩,⟨v,false,clo-1⟩]
  else [⟨v,true,chi+1⟩,⟨v,false,chi⟩]

def guardLit (c : Ctx) (ref : ℕ) : List Literal :=
  match propGuard c ref with
  | some gid => [⟨gid,true,1#64⟩]
  | none => []

def watchLits (c : Ctx) (watched : List ℕ) : List Literal :=
  (watched.filter fun v => v < c.nVars).flatMap fun v =>
    [⟨v,true,varLo64 (c.vars v)⟩,⟨v,false,varHi64 (c.vars v)⟩]

def clauseAt (s : Engine) (ci : ℕ) : Option (List Literal) :=
  match s.db with
  | none => none
  | some db => if ci < db.nClauses then db.clauses ci else none

def needCurrent (a : Analysis) : Except Analysis Analysis :=
  if a.nAtCurLevel = 0 then .error a else .ok a

def seedEmptyDomain (s : Engine) (a : Analysis) (v : ℕ) : Except Analysis Analysis := do
  let a ← addExplLits s a (crossingLits s.ctx v)
  let a ← needCurrent a
  pure { a with forceSlot := some (v,!ubCrossed (trailEntries s.ctx) v) }

def seedClause (s : Engine) (a : Analysis) (lits : List Literal) : Except Analysis Analysis := do
  let a ← addExplLits s a (lits.map literalNegate)
  needCurrent { a with conflictClause := none }

def seedProp (x : Explainers) (s : Engine) (a : Analysis) (ref : ℕ) : Except Analysis Analysis :=
  if x.watchedVars ref = [] then .error a
  else do
    let a ← addExplLits s a (watchLits s.ctx (x.watchedVars ref) ++ guardLit s.ctx ref)
    needCurrent a

def seedConflict (x : Explainers) (s : Engine) (a : Analysis) : Except Analysis Analysis :=
  match conflictVar s.ctx with
  | some v => seedEmptyDomain s a v
  | none =>
    match s.conflictClause.bind (clauseAt s) with
    | some lits => seedClause s a lits
    | none =>
      match s.conflictProp with
      | some ref => seedProp x s a ref
      | none => .error a

def rewindStep (a : Analysis) (t : TrailEntry) : Analysis :=
  if t.kind = .hole then a
  else
    let v := a.vars t.varId
    { a with
      undo := (t.varId,t.kind,readBound v t.isLb) :: a.undo
      vars := Function.update a.vars t.varId (setBound v t.kind t.oldValue) }

def rewindBefore (stop : ℕ) : List TrailEntry → Analysis → Analysis
  | [], a => { a with applied := [] }
  | t :: ts, a =>
    if (t :: ts).length = stop then { a with applied := t :: ts }
    else rewindBefore stop ts (rewindStep a t)

def restoreRewound (vars : ℕ → Variable) (undo : List (ℕ × TrailKind × BitVec 64)) :
    ℕ → Variable :=
  undo.foldl (fun vars u => Function.update vars u.1 (setBound (vars u.1) u.2.1 u.2.2)) vars

def resolveClause (s : Engine) (e : TrailEntry) (a : Analysis) : Except Analysis Analysis :=
  match e.propRef.bind (clauseAt s) with
  | none => .error a
  | some lits => addExplLits s a
      ((lits.filter fun l => !(l.varId == e.varId && l.isLb == e.isLb)).map literalNegate)

/-- Replace a literal by the explanation of the propagator that made it true with `e`,
read in the bounds before `e`, whose older entries number `stop`. -/
def resolveProp (x : Explainers) (s : Engine) (stop : ℕ) (e : TrailEntry) (need : Literal)
    (ref : ℕ) (a : Analysis) : Except Analysis Analysis :=
  match x.explain ref with
  | none => .error a
  | some explain =>
    let a := rewindBefore stop a.applied a
    match explain { s.ctx with vars := a.vars } e.varId e.isLb need.bound with
    | none => .error a
    | some lits => addExplLits s a (lits ++ guardLit s.ctx ref ++
        if x.explainsWithoutOwnBound ref then [] else [⟨e.varId,e.isLb,e.oldValue⟩])

def Analysis.forced (a : Analysis) : Bool :=
  match a.forceSlot with
  | some (v,isLb) => (a.seen v isLb).isSome
  | none => false

def Analysis.unsee (a : Analysis) (e : TrailEntry) : Analysis :=
  { a with seen := setSlot a.seen e.varId e.isLb none, nAtCurLevel := a.nAtCurLevel-1 }

def resolve (x : Explainers) (s : Engine) : List TrailEntry → Analysis → Except Analysis Analysis
  | [], a => .ok a
  | e :: es, a =>
    if !(a.nAtCurLevel > 1 || a.forced) then .ok a
    else
      match a.seen e.varId e.isLb with
      | none => resolve x s es a
      | some need =>
        if e.decisionLevel ≠ s.ctx.decisionLevel ∨ e.kind = .hole ∨
            litHolds (s.ctx.vars e.varId) need e.oldValue = true then resolve x s es a
        else if e.fromClause then do
          let a ← resolveClause s e (a.unsee e)
          resolve x s es a
        else
          match e.propRef with
          | none => .ok { a with nAtCurLevel := 1, forceSlot := none }
          | some ref => do
            let a ← resolveProp x s es.length e need ref (a.unsee e)
            resolve x s es a

/-- Emit the literals left at the current level; the first goes to the front. A literal
that finds the buffer full is dropped. -/
def emit (cur : ℕ) : List TrailEntry → Bool → (ℕ → Bool → Option Literal) → List Literal → List Literal
  | [], _, _, learnt => learnt
  | e :: es, uipSet, seen, learnt =>
    if e.decisionLevel ≠ cur then emit cur es uipSet seen learnt
    else
      match seen e.varId e.isLb with
      | none => emit cur es uipSet seen learnt
      | some l =>
        emit cur es true (setSlot seen e.varId e.isLb none)
          (if learnt.length < maxClauseLits then
            if uipSet then learnt ++ [literalNegate l] else literalNegate l :: learnt
          else learnt)

def negationLevel (es : List TrailEntry) (l : Literal) : ℕ :=
  match es.find? fun t => t.varId == l.varId && t.kind == kindOf !l.isLb with
  | some t => t.decisionLevel
  | none => 0

def blockDistance (es : List TrailEntry) (lits : List Literal) : ℕ :=
  min 32 ((lits.map (negationLevel es)).filter fun lvl => lvl != 0).dedup.length

def tautological (vars : ℕ → Variable) (lits : List Literal) : Bool :=
  lits.any fun a => lits.any fun b =>
    a.isLb && !b.isLb && b.varId == a.varId &&
      (!varBGt (vars a.varId) a.bound b.bound || a.bound == b.bound+1)

/-- Whether one of the last eight clauses has the same literals. -/
def duplicates (s : Engine) (lits : List Literal) : Bool :=
  (List.range (min s.nClauses 8)).any fun k =>
    match clauseAt s (s.nClauses-1-k) with
    | some cl => cl.length == lits.length && lits.all fun a => cl.contains a
    | none => false

structure LearntClause where
  lits : List Literal
  btLevel : ℕ
  lbd : ℕ

def Analysis.start (s : Engine) : Analysis where
  vars := s.ctx.vars
  undo := []
  applied := trailEntries s.ctx
  seen := fun _ _ => none
  nAtCurLevel := 0
  learnt := []
  bodyPos := fun _ _ => none
  btLevel := 0
  forceSlot := none
  conflictClause := s.conflictClause

def resolved (x : Explainers) (s : Engine) : Except Analysis Analysis := do
  let a ← seedConflict x s (Analysis.start s)
  let a ← resolve x s (trailEntries s.ctx) a
  needCurrent a

def emitClause (s : Engine) (a : Analysis) : Except Analysis (LearntClause × Analysis) :=
  let es := trailEntries s.ctx
  let lits := emit s.ctx.decisionLevel es false a.seen a.learnt
  if tautological s.ctx.vars lits || duplicates s lits then .error a
  else .ok (⟨lits,a.btLevel,blockDistance es lits⟩,a)

def analyze (x : Explainers) (s : Engine) : Except Analysis (LearntClause × Analysis) :=
  if s.ctx.decisionLevel = 0 then .ok (⟨[],0,0⟩,Analysis.start s)
  else do
    let a ← resolved x s
    emitClause s a

def afterAnalysis (s : Engine) (a : Analysis) : Engine :=
  { s with
    ctx := { s.ctx with vars := restoreRewound a.vars a.undo }
    conflictClause := a.conflictClause }

/-- `lcg_analyze_conflict`: the learnt clause, or `none` for a bail-out. -/
def lcgAnalyzeConflict (x : Explainers) (s : Engine) : Option LearntClause × Engine :=
  match s.db with
  | none => (none,s)
  | some _ =>
    match analyze x s with
    | .error a => (none,afterAnalysis s a)
    | .ok (clause,a) => (some clause,afterAnalysis s a)

end Solver
end DvSolve
