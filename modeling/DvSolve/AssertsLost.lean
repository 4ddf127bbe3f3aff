import DvSolve.Diversify

/-! The bit-blast solver over its entry points: what is asserted, what of it is recorded in
`assert_nodes`, and the model that is read back.
The samplers and the simulation of `dvs_bbsolver.c` are entered here, not modelled: what they
would answer is part of the circumstances of a call, as is the SAT solver's answer. A call
that is refused outright changes nothing and is left out. -/
namespace DvSolve
namespace Bbsolver

open Aig Aigsim

inductive Answer
  | sat (v : ℕ → Bool)
  | unsat
  | unknown

def Answer.isSat : Answer → Bool
  | .sat _ => true
  | _ => false

def Answer.isUnknown : Answer → Bool
  | .unknown => true
  | _ => false

/-- One assertion: its scope (0 outside the scopes), its literal, and whether its tag and its
node can be stored when the arrays are full. -/
structure Asserted where
  scope : ℕ
  lit : ℤ
  tagged : Bool
  stored : Bool

/-- The circumstances of a call: the graph it builds and what it asserts, whether that works
out (`bits` for the list of hashed bits), what each search answers, and the flip-check's
variables and allocations. -/
structure Env where
  aig : Aig
  asserted : List Asserted
  ready : Bool
  bits : Bool
  answer : Answer
  samplers : List Answer
  enumsamp : Answer
  sim : Answer
  simExact : Bool
  satFresh : Answer
  portfolio : Option Answer
  vars : List (Option (List ℤ))
  memoOff : Bool
  buffers : Bool
  scratch : Bool
  listed : Bool
  slotted : Bool
  table : Bool
  junk : ℕ → Bool

/-- The solver. `clauses` is what the SAT instance holds, each literal with its scope,
`recorded` is `assert_nodes` with its tags, `satVal` the assignment of the SAT instance.
`asked` is not in the source: once an assertion is lost it holds, from a SAT answer until
something more is asserted, the assertions and the model of that answer. -/
structure Bb where
  aig : Aig
  clauses : List (ℕ × ℤ)
  recorded : List (ℕ × ℤ)
  tagsCap : ℕ
  assertsCap : ℕ
  lost : Bool
  sess : Bool
  frames : List ℕ
  nodeVal : Option (ℕ → Bool)
  satVal : ℕ → Bool
  modelInSat : Bool
  baseSim : Bool
  lastSat : Bool
  seed : BitVec 64
  presim : Bool
  resample : Bool
  noDiversify : Bool
  sampleReady : Bool
  redivs : ℕ
  asked : Option (List ℤ × (ℕ → Bool))

def Bb.new (m : Aig) : Bb :=
  { aig := m, clauses := [], recorded := [], tagsCap := 0, assertsCap := 0, lost := false
    sess := false, frames := [], nodeVal := none, satVal := fun _ => false, modelInSat := false
    baseSim := false, lastSat := false, seed := 0#64, presim := false, resample := false
    noDiversify := false, sampleReady := false, redivs := 0, asked := none }

def Bb.live (s : Bb) : List ℤ := s.clauses.map Prod.snd

/-- The assertions of a solve that assumes the scopes' selectors, or that does not. -/
def Bb.held (s : Bb) (assumes : Bool) : List ℤ :=
  (s.clauses.filter fun c => assumes || c.1 == 0).map Prod.snd

def grow (cap : ℕ) : ℕ := if cap ≠ 0 then 2*cap else 64

def Bb.assertTop (s : Bb) (a : Asserted) : Bb :=
  let s := { s with clauses := s.clauses ++ [(a.scope,a.lit)], asked := none }
  let full := s.sess && !s.lost && s.recorded.length == s.tagsCap
  if full && !a.tagged then { s with lost := true }
  else
    let s := if full then { s with tagsCap := grow s.tagsCap } else s
    if s.recorded.length = s.assertsCap then
      if !a.stored then { s with lost := true }
      else { s with assertsCap := grow s.assertsCap, recorded := s.recorded ++ [(a.scope,a.lit)] }
    else { s with recorded := s.recorded ++ [(a.scope,a.lit)] }

def Bb.encode (s : Bb) (e : Env) : Bb :=
  let s := e.asserted.foldl Bb.assertTop { s with aig := e.aig }
  if e.ready then s else { s with lastSat := false }

def Bb.verdict (s : Bb) (r : Answer) : Bb :=
  { s with
    lastSat := r.isSat
    asked := match r with
      | .sat v => if s.lost then some (s.live,v) else none
      | _ => none }

def Bb.satSolve (s : Bb) (e : Env) : Bb × Answer :=
  match e.answer with
  | .sat v => ({ s with satVal := v, modelInSat := true },.sat v)
  | r => ({ s with modelInSat := false },r)

def Bb.install (s : Bb) (v : ℕ → Bool) : Bb :=
  { s with nodeVal := some v, modelInSat := false, baseSim := true }

def Bb.simulates (s : Bb) : Bool := s.presim && !s.lost && !s.recorded.isEmpty

def Bb.sampler (s : Bb) (a : Answer) : Bb × Answer :=
  if !s.simulates then (s,.unknown)
  else match a with
    | .sat v => (s.install v,.sat v)
    | r => (s,r)

def Bb.sampled (go : Answer → Bool) : List Answer → Bb → Bb × Answer
  | [], s => (s,.unknown)
  | a :: as, s =>
    let r := s.sampler a
    if go r.2 then r.1.sampled go as else r

def Bb.solveWithSim (s : Bb) (e : Env) : Bb × Answer :=
  if !s.simulates then s.satSolve e
  else match e.sim with
    | .sat v => (s.install v,.sat v)
    | .unsat => (s,.unsat)
    | .unknown => s.satSolve e

def Env.diversifier (e : Env) (s : Bb) : Diversifier :=
  ⟨s.recorded.map Prod.snd,e.vars,s.seed,s.noDiversify,e.memoOff,e.buffers,e.scratch,e.listed,
    e.slotted,e.table⟩

def Bb.diversify (s : Bb) (e : Env) (sweeps : ℕ) : Bb :=
  if (e.diversifier s).Idle s.aig then s
  else { s with
    nodeVal := some ((diversifySweeps s.aig (e.diversifier s) sweeps
      (s.nodeVal.getD s.satVal)).getD e.junk) }

def Bb.drop (s : Bb) : Bb := { s with nodeVal := none }

def Bb.setSeed (s : Bb) (seed : BitVec 64) : Bb := { s with seed := seed }

/-- The samplers, then simulation and SAT, whose model is diversified. -/
def Bb.search (s : Bb) (e : Env) (samplers : List Answer) : Bb :=
  let p := s.drop.sampled Answer.isUnknown samplers
  if p.2.isUnknown then
    let r := p.1.solveWithSim e
    if r.2.isSat then (r.1.verdict r.2).diversify e 1 else r.1.verdict r.2
  else p.1.verdict p.2

def Bb.plainSolve (s : Bb) (e : Env) : Bb :=
  let r := s.satSolve e
  if r.2.isSat then (r.1.drop.verdict r.2).diversify e 1 else r.1.verdict r.2

def diversifySweepCount : ℕ := 16

def Bb.sampleSolve (s : Bb) (e : Env) (seed : BitVec 64) : Bb :=
  let r := s.satSolve e
  if r.2.isSat then
    ((r.1.drop.setSeed (if seed = 0#64 then 1#64 else seed)).verdict r.2).diversify e
      diversifySweepCount
  else r.1.verdict r.2

def Bb.installWorkerModel (s : Bb) (v : ℕ → Bool) : Bb :=
  { s with nodeVal := some v, modelInSat := false }.verdict (.sat v)

def Bb.sameBase (s : Bb) (e : Env) (seed : BitVec 64) : Bb :=
  if s.modelInSat then (s.drop.setSeed seed).diversify e 1
  else if s.nodeVal.isNone then s
  else (s.setSeed seed).diversify e 1

def Bb.freshBase (s : Bb) (e : Env) (seed : BitVec 64) : Bb × Bool :=
  let s := s.setSeed seed
  let p := s.sampled (fun a => !a.isSat) (e.samplers ++ if s.frames.isEmpty then [e.enumsamp] else [])
  if p.2.isSat then ({ p.1 with redivs := 0 }.verdict p.2,true)
  else
    match if s.baseSim && !s.lost then e.sim else .unknown with
    | .sat v =>
      let s := { s.install v with redivs := 0 }.verdict (.sat v)
      (if e.simExact then s else s.diversify e 1,true)
    | _ =>
      match if s.resample then e.satFresh else .unknown with
      | .sat v => ((({ s with redivs := 0 }).installWorkerModel v).diversify e 1,true)
      | _ => (s,false)

def redivEpoch : ℕ := 8

def Bb.rediversify (s : Bb) (e : Env) (seed : BitVec 64) : Bb :=
  if !s.lastSat then s
  else
    let s := { s with redivs := s.redivs+1 }
    let r := s.freshBase e seed
    if s.redivs ≥ redivEpoch ∧ s.frames = [] ∧ seed ≠ 0#64 ∧ (s.resample ∨ (s.baseSim ∧ !s.lost)) then
      if r.2 then r.1 else r.1.sameBase e seed
    else s.sameBase e seed

def Bb.resampled (s : Bb) (e : Env) (seed : BitVec 64) : Bb :=
  if !s.lastSat then s
  else if s.frames ≠ [] ∨ seed = 0#64 then s.rediversify e seed
  else
    let r := s.freshBase e seed
    if r.2 then r.1 else r.1.sameBase e seed

inductive Entry
  | check (seed : BitVec 64)
  | prepare (seed : BitVec 64)
  | assert
  | resolve (seed : BitVec 64)
  | resolveRaw
  | solveAssuming
  | sample (seed : BitVec 64)
  | rediversify (seed : BitVec 64)
  | resample (seed : BitVec 64)
  | sessBegin
  | sessPush
  | sessPop
  | sessAdd
  | sessSolve (seed : BitVec 64)
  | installWorkerModel
  | setDiversify (on : Bool)
  | setPresim (on : Bool)
  | setResample (on : Bool)

def Bb.built (s : Bb) (e : Env) : Entry → Bb
  | .check _ | .prepare _ | .assert => s.encode e
  | .sample _ => if s.sampleReady then { s with aig := e.aig } else s.encode e
  | .sessAdd => if s.sess then s.encode e else s
  | .sessPush => if s.sess then { s with aig := e.aig } else s
  | _ => s

/-- `dvs_bbsolver_sess_pop`: without the list to go by, the recorded assertions stay. -/
def Bb.sessPop (s : Bb) : Bb :=
  match s.frames.getLast? with
  | none => s
  | some f =>
    { s with
      frames := s.frames.dropLast
      clauses := s.clauses.filter fun c => decide (c.1 < s.frames.length)
      recorded := if s.lost then s.recorded else s.recorded.take f ++
        (s.recorded.drop f).filter fun c => decide (c.1 < s.frames.length)
      nodeVal := none
      lastSat := false
      asked := none }

def Bb.run (s : Bb) (e : Env) (c : Entry) : Bb :=
  let t := s.built e c
  match c with
  | .check seed =>
    let t := { t.setSeed seed with baseSim := false }
    if !e.ready then t
    else match e.portfolio with
      | some (.sat v) => t.installWorkerModel v
      | some r => t.verdict r
      | none => t.search e (e.samplers ++ if t.frames.isEmpty then [e.enumsamp] else [])
  | .prepare seed => t.setSeed seed
  | .assert => t
  | .resolve seed => (t.drop.setSeed seed).plainSolve e
  | .resolveRaw =>
    let r := (t.drop.setSeed 0#64).satSolve e
    r.1.verdict r.2
  | .solveAssuming => t.plainSolve e
  | .sample seed =>
    let t := if s.sampleReady then t else t.setSeed seed
    if !s.sampleReady && !e.ready then t
    else if !e.bits then { t with sampleReady := true }
    else { t with sampleReady := true }.sampleSolve e seed
  | .rediversify seed => t.rediversify e seed
  | .resample seed => t.resampled e seed
  | .sessBegin => if t.sess ∨ t.recorded ≠ [] then t else { t with sess := true }
  | .sessPush => if t.sess then { t with frames := t.frames ++ [t.recorded.length] } else t
  | .sessPop => if t.sess then t.sessPop else t
  | .sessAdd => t
  | .sessSolve seed =>
    if t.sess && e.ready then (t.setSeed seed).search e e.samplers else t
  | .installWorkerModel =>
    match e.answer with
    | .sat v => t.installWorkerModel v
    | _ => t
  | .setDiversify on => { t with noDiversify := !on }
  | .setPresim on => { t with presim := on }
  | .setResample on => { t with resample := on }

end Bbsolver
end DvSolve
