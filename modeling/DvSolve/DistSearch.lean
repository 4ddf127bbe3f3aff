import DvSolve.Dist

/-! The search of `dvs_search.c`.
One step is one turn of the decision loop or of the conflict loop. Propagation, clause
learning, the choice of the variable and the sampling tiers are given by an engine. -/
namespace DvSolve
namespace Dist

open Solver
open Function (update)

abbrev Dom := ℕ → BitVec 64 × BitVec 64

namespace Dom

variable (vars : ℕ → Variable)

def tightenLb (d : Dom) (x : ℕ) (b : BitVec 64) : Option Dom :=
  if !varBGt (vars x) b (d x).1 then some d
  else if varBGt (vars x) b (varReprMax (vars x)) then none
  else if varBGt (vars x) b (d x).2 then none
  else some (update d x (b,(d x).2))

def tightenUb (d : Dom) (x : ℕ) (b : BitVec 64) : Option Dom :=
  if !varBLt (vars x) b (d x).2 then some d
  else if varBLt (vars x) b (varReprMin (vars x)) then none
  else if varBGt (vars x) (d x).1 b then none
  else some (update d x ((d x).1,b))

def Within (d' d : Dom) : Prop :=
  ∀ x, varBLt (vars x) (d' x).1 (d x).1 = false ∧ varBGt (vars x) (d' x).2 (d x).2 = false

def Single (d : Dom) (x : ℕ) : Prop := (d x).1 = (d x).2

instance (d : Dom) (x : ℕ) : Decidable (d.Single x) := inferInstanceAs (Decidable (_ = _))

end Dom

inductive Verdict
  | ok
  | unsat
  | timeout
  deriving DecidableEq

inductive Sampled
  | solution (d : Dom)
  | unsat
  | none

structure Opts where
  seed : BitVec 64
  fairPick : Bool
  seqPick : Bool
  usePhaseSave : Bool
  maxConflicts : ℕ
  maxRestarts : ℕ
  maxShaveIters : ℕ
  maxDepth : ℕ
  splitRandom : Bool
  keepDraws : Bool

/-- What the search calls. The state `σ` holds the propagators, the clauses, the
activities, the holes and the clocks; `none` is a conflict. The generator's state goes
through the calls that draw. -/
structure Engine (p : Problem) (σ : Type*) where
  propagate : σ → Dom → σ × Option Dom
  shave : σ → Dom → σ × Option Dom
  assertLearnt : σ → Dom → σ × Option Dom
  analyze : σ → ℕ → σ × Option ℕ
  undo : σ → ℕ → σ
  select : σ → Dom → BitVec 64 → Option ℕ × BitVec 64
  active : σ → ℕ → Bool
  accept : σ → ℕ → Option Dom → BitVec 64 → (σ × BitVec 64) × Bool
  drawOther : σ → ℕ → BitVec 64 → BitVec 64 → BitVec 64 → BitVec 64 × BitVec 64
  sample : σ → Bool → Dom → BitVec 64 → (σ × BitVec 64) × Sampled
  boxSkip : ℕ → Bool
  holes : σ → ℕ → List (BitVec 64)
  stop : σ → Bool
  propagate_within : ∀ s d s' d', propagate s d = (s',some d') → d'.Within p.vars d
  select_none : ∀ s d rng, (select s d rng).1 = none → ∀ x < p.nVars, p.resolve x = x → d.Single x
  sample_single : ∀ s b d rng d', (sample s b d rng).2 = .solution d' →
    ∀ x < p.nVars, p.resolve x = x → d'.Single x

inductive Keep
  | none
  | set (v : BitVec 64)
  | dead
  deriving DecidableEq

inductive Bound
  | value
  | upper
  | lower
  deriving DecidableEq

structure Decision where
  varId : ℕ
  tried : BitVec 64
  isSplit : Bool
  upperFirst : Bool
  secondPhase : Bool
  bound : Bound
  deriving DecidableEq

structure Level where
  decision : Decision
  saved : Dom

inductive Pc
  | root
  | decide
  | conflict (fresh : Bool)
  | done (v : Verdict)
  deriving DecidableEq

structure Search (σ : Type*) where
  pc : Pc
  dom : Dom
  levels : List Level
  rng : BitVec 64
  keepOn : Bool
  keep : ℕ → Keep
  phase : ℕ → BitVec 64
  fails : ℕ → ℕ
  conflicts : ℕ
  restarts : ℕ
  lubyIdx : ℕ
  eng : σ

def luby : ℕ → ℕ → ℕ
  | 0, _ => 1
  | fuel+1, n =>
    let k := Nat.log2 (n+1)
    if n+1 = 2^k then 2^(k-1) else luby fuel (n+1-2^k)

namespace Search

variable {p : Problem} {σ : Type*} (E : Engine p σ) (o : Opts)

def splitUpperFirst (rng dlo val dhi : BitVec 64) : Bool × BitVec 64 :=
  if o.seed = 0#64 ∨ o.splitRandom = false then (false,rng)
  else
    let nLo := val-dlo
    let tot := nLo+(dhi-val)
    if tot = 0#64 then (false,rng)
    else
      let (x,rng) := rand64 rng
      (decide (nLo ≤ x%tot),rng)

local instance lawfulBEq_word : LawfulBEq (BitVec 64) := inferInstance

/-- Inside `[lo,hi]`, in the order of the variable, and no hole. -/
def feasible (s : Search σ) (x : ℕ) (v : BitVec 64) : Bool :=
  !varBLt (p.vars x) v (s.dom x).1 && !varBGt (p.vars x) v (s.dom x).2 && v ∉ E.holes s.eng x

def newDraw (s : Search σ) (x : ℕ) : BitVec 64 × Search σ :=
  let (v,rng) := match p.distOffsets x with
    | some es => pickValueDist (p.vars x) es s.rng (s.dom x).1 (s.dom x).2
    | none => E.drawOther s.eng x s.rng (s.dom x).1 (s.dom x).2
  let (v,rng) := pickAvoidingHoles (E.holes s.eng x) v rng (s.dom x).1 (s.dom x).2
  (v,{ s with
    rng := rng
    keep := if s.keepOn = true ∧ s.keep x = .none then update s.keep x (.set v)
      else s.keep })

/-- `_pick_value`: a saved phase, a kept draw, or a new one. -/
def pickValue (s : Search σ) (x : ℕ) : BitVec 64 × Search σ :=
  if o.usePhaseSave = true ∧ o.seed = 0#64 ∧ feasible E s x (s.phase x) = true then
    (s.phase x,s)
  else
    match s.keepOn,s.keep x with
    | true,.set v => if feasible E s x v then (v,s) else newDraw E s x
    | _,_ => newDraw E s x

def boundDecisionMin : BitVec 64 := 64#64

def boundDecisionTries : ℕ := 32

def boundDecision (s : Search σ) (x : ℕ) (v : BitVec 64) : Bound × BitVec 64 :=
  if !E.active s.eng x then (.value,s.rng)
  else if o.seed ≠ 0#64 ∧ s.fails x < boundDecisionTries then (.value,s.rng)
  else if (s.dom x).2-(s.dom x).1 ≤ boundDecisionMin then (.value,s.rng)
  else if v = (s.dom x).1 then (.upper,s.rng)
  else if v = (s.dom x).2 then (.lower,s.rng)
  else
    let (up,rng) := splitUpperFirst o s.rng (s.dom x).1 v (s.dom x).2
    (if up then .lower else .upper,rng)

def assign (vars : ℕ → Variable) (d : Dom) (x : ℕ) (v : BitVec 64) : Bound → Option Dom
  | .upper => d.tightenUb vars x v
  | .lower => d.tightenLb vars x v
  | .value => (d.tightenLb vars x v).bind fun d => d.tightenUb vars x v

def propagate (eng : σ) : Option Dom → σ × Option Dom
  | none => (eng,none)
  | some d => E.propagate eng d

/-- The tiers decline while a variable with a distribution is open, unless it is defined
by the others. -/
def tierOpen (d : Dom) : Bool :=
  (List.range p.nVars).all fun x => p.resolve x != x || decide (d.Single x) || E.boxSkip x ||
    (p.distOffsets x).isNone

def trySample (lastStage : Bool) (s : Search σ) : Search σ × Sampled :=
  if o.seed ≠ 0#64 ∧ o.fairPick = true ∧ o.seqPick = false ∧ tierOpen E s.dom = true then
    let r := E.sample s.eng lastStage s.dom s.rng
    ({ s with eng := r.1.1, rng := r.1.2 },r.2)
  else (s,.none)

/-- The conflict loop goes on after a conflict, else the search decides. -/
def resume (s : Search σ) (fresh : Bool) (r : σ × Option Dom) : Search σ :=
  match r with
  | (eng,none) => { s with eng := eng, pc := .conflict fresh }
  | (eng,some d) => { s with eng := eng, dom := d, pc := .decide }

def backtrack (s : Search σ) (n : ℕ) : Search σ :=
  match s.levels.drop (s.levels.length-n-1) with
  | [] => s
  | l :: rest =>
    if s.levels.length ≤ n then s
    else { s with dom := l.saved, levels := rest, eng := E.undo s.eng n }

def setKeep (s : Search σ) (x : ℕ) (k : Keep) : Search σ :=
  if s.keepOn then { s with keep := update s.keep x k } else s

/-- The domains of merged variables meet in their root; `none` is a conflict. -/
def mergeDomains (p : Problem) : Option Dom :=
  (List.range p.nVars).foldlM (fun d i =>
    let r := p.resolve i
    if r = i then some d
    else (d.tightenLb p.vars r (varLo64 (p.vars i))).bind fun d =>
      d.tightenUb p.vars r (varHi64 (p.vars i)))
    fun x => (varLo64 (p.vars x),varHi64 (p.vars x))

def start (p : Problem) (rng : BitVec 64) (eng : σ) : Search σ :=
  let d := mergeDomains p
  let dom : Dom := d.getD fun x => (varLo64 (p.vars x),varHi64 (p.vars x))
  { pc := if d.isSome then .root else .done .unsat
    dom := dom
    levels := []
    rng := rng
    keepOn := o.seed != 0#64 && o.keepDraws
    keep := fun _ => .none
    phase := fun x => (dom x).1
    fails := fun _ => 0
    conflicts := 0
    restarts := 0
    lubyIdx := 1
    eng := eng }

/-- `dvs_solver_get_value`: a merged variable reads its root's. -/
def value (p : Problem) (s : Search σ) (v : ℕ) : BitVec 64 := (s.dom (p.resolve v)).1

def tierResult : Search σ × Sampled → Search σ
  | (s,.solution d) => { s with dom := d, pc := .done .ok }
  | (s,.unsat) => { s with pc := .done .unsat }
  | (s,.none) => { s with pc := .decide }

def shaveStep (s : Search σ) : Search σ :=
  let r := if o.maxShaveIters > 0 then E.shave s.eng s.dom else (s.eng,some s.dom)
  if E.stop r.1 then { s with eng := r.1, pc := .done .timeout }
  else
    match r.2 with
    | none => { s with eng := r.1, pc := .done .unsat }
    | some d => tierResult (trySample E o false { s with eng := r.1, dom := d })

def rootStep (s : Search σ) : Search σ :=
  let r := E.propagate s.eng s.dom
  match r.2 with
  | none => { s with eng := r.1, pc := .done (if E.stop r.1 then .timeout else .unsat) }
  | some d =>
    if (List.range p.nVars).any fun x => varBGt (p.vars x) (d x).1 (d x).2 then
      { s with eng := r.1, dom := d, pc := .done .unsat }
    else shaveStep E o { s with eng := r.1, dom := d }

def decideValue (s : Search σ) (x : ℕ) (v : BitVec 64) : Search σ :=
  let b := boundDecision E o s x v
  let r := propagate E s.eng (assign p.vars s.dom x v b.1)
  let a := if b.1 = .value then E.accept r.1 x r.2 b.2 else ((r.1,b.2),true)
  let s' := { s with eng := a.1.1, rng := a.1.2 }
  if a.2 = false then setKeep { s' with pc := .decide } x .dead
  else
    let s' := { s' with levels := ⟨⟨x,v,false,false,false,b.1⟩,s.dom⟩ :: s.levels }
    match r.2 with
    | some d => { s' with dom := d, pc := .decide }
    | none =>
      let s' := { setKeep s' x .dead with pc := .conflict true }
      if b.1 = .value ∧ o.seed ≠ 0#64 ∧ s.fails x < 255 then
        { s' with fails := update s.fails x (s.fails x+1) }
      else s'

def decideVar (s : Search σ) (x : ℕ) : Search σ :=
  let r := pickValue E o s x
  if s.levels.length ≥ o.maxDepth then { r.2 with pc := .done .timeout }
  else decideValue E o r.2 x r.1

def decideStep (s : Search σ) : Search σ :=
  if E.stop s.eng then { s with pc := .done .timeout }
  else
    let q := E.select s.eng s.dom s.rng
    let s := { s with rng := q.2 }
    match q.1 with
    | none => { s with pc := .done .ok }
    | some x =>
      let r := trySample E o true s
      match r.2 with
      | .solution d => { r.1 with dom := d, pc := .done .ok }
      | _ => decideVar E o r.1 x

def redraw (s : Search σ) (x : ℕ) (counted : Bool) : Bool × Search σ :=
  if o.seed = 0#64 ∨ o.fairPick = false then (false,s)
  else
    let fails := if counted = false ∧ s.fails x < 255 then
      update s.fails x (s.fails x+1) else s.fails
    if fails x > boundDecisionTries then (false,{ s with fails := fails })
    else (true,setKeep { s with fails := fails } x .dead)

/-- The bisection: the level of the failed decision `d` is undone, and what it excludes is
tightened, at a new level where it excludes by a split. -/
def bisect (p : Problem) (s : Search σ) (d : Decision) (counted : Bool) : Search σ × Option Dom :=
  let lo := (s.dom d.varId).1
  let hi := (s.dom d.varId).2
  match d.bound with
  | .upper => (s,s.dom.tightenLb p.vars d.varId (d.tried+1#64))
  | .lower => (s,s.dom.tightenUb p.vars d.varId (d.tried-1#64))
  | .value =>
    if d.isSplit then
      if d.secondPhase then (s,none)
      else
        ({ s with levels := ⟨{ d with secondPhase := true },s.dom⟩ :: s.levels },if d.upperFirst then
          s.dom.tightenUb p.vars d.varId (d.tried-1#64)
          else s.dom.tightenLb p.vars d.varId (d.tried+1#64))
    else if varBGt (p.vars d.varId) lo hi then (s,none)
    else if !varBGt (p.vars d.varId) d.tried lo then
      (s,s.dom.tightenLb p.vars d.varId (lo+1#64))
    else if !varBLt (p.vars d.varId) d.tried hi then
      (s,s.dom.tightenUb p.vars d.varId (hi-1#64))
    else
      let r := redraw o s d.varId counted
      if r.1 then (r.2,some s.dom)
      else
        let u := splitUpperFirst o r.2.rng lo d.tried hi
        let d := { d with isSplit := true, secondPhase := false, upperFirst := u.1 }
        ({ r.2 with rng := u.2, levels := ⟨d,s.dom⟩ :: s.levels },
          if u.1 then s.dom.tightenLb p.vars d.varId (d.tried+1#64)
          else s.dom.tightenUb p.vars d.varId (d.tried-1#64))

def savePhase (s : Search σ) (x : ℕ) (v : BitVec 64) : Search σ :=
  if o.usePhaseSave = true ∧ o.seed = 0#64 then
    { s with phase := update s.phase x ((v.setWidth 32).signExtend 64) }
  else s

def restart (s : Search σ) : Search σ :=
  let s := { backtrack E s 0 with
    conflicts := 0
    restarts := s.restarts+1
    keepOn := false
    lubyIdx := s.lubyIdx+1 }
  if o.maxRestarts > 0 ∧ s.restarts ≥ o.maxRestarts then { s with pc := .done .timeout }
  else
    let r := E.propagate s.eng s.dom
    match r.2 with
    | none => { s with eng := r.1, pc := .done (if E.stop r.1 then .timeout else .unsat) }
    | some d => { s with eng := r.1, dom := d, pc := .decide }

def backjump (s : Search σ) (bt : ℕ) : Search σ :=
  let s := backtrack E s (min bt (s.levels.length-1))
  resume s false (E.assertLearnt s.eng s.dom)

/-- Without one, the level of the failed decision is undone and bisected. -/
def chronological (s : Search σ) (fresh : Bool) : Search σ :=
  match s.levels with
  | [] => { s with pc := .done .unsat }
  | l :: _ =>
    let b := bisect o p (backtrack E s (s.levels.length-1)) l.decision fresh
    let r := propagate E b.1.eng b.2
    resume (if r.2.isSome then savePhase o b.1 l.decision.varId l.decision.tried else b.1) false r

def conflictStep (s : Search σ) (fresh : Bool) : Search σ :=
  if E.stop s.eng then { s with pc := .done .timeout }
  else
    let s := { s with conflicts := s.conflicts+1 }
    if s.levels.length = 0 then { s with pc := .done .unsat }
    else if s.conflicts ≥ luby s.lubyIdx s.lubyIdx*o.maxConflicts then restart E o s
    else
      let r := E.analyze s.eng s.levels.length
      match r.2 with
      | some bt => backjump E { s with eng := r.1 } bt
      | none => chronological E o { s with eng := r.1 } fresh

def step (s : Search σ) : Search σ :=
  match s.pc with
  | .root => rootStep E o s
  | .decide => decideStep E o s
  | .conflict fresh => conflictStep E o s fresh
  | .done _ => s

def run (rng : BitVec 64) (eng : σ) (n : ℕ) : Search σ := (step E o)^[n] (start o p rng eng)

end Search
end Dist
end DvSolve
