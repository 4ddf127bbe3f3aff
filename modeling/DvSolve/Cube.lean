import Mathlib.Tactic

/-! Cube and conquer: `dvs_cube.c`.
What a run cannot choose (the answers of the solvers, the allocations that succeed, the
order in which the workers take the lock) is given with each step. -/
namespace DvSolve
namespace Cubes

inductive Answer
  | sat (v : ℕ → Bool)
  | unsat
  | unknown

structure Cube where
  lits : List ℤ
  budget : ℕ
  depth : ℕ
  orDepth : ℕ
  deriving DecidableEq

/-- The shared read-only data: the or-groups held for deepening, narrowest first, and
the candidate split bits. -/
structure Config where
  ors : List (List ℤ)
  bits : List ℤ
  growth : ℕ
  maxDepth : ℕ
  maxCubes : ℕ
  lookahead : Bool
  laMax : ℕ

def makeChild (ok : Bool) (parent : Cube) (extra : ℤ) (growth : ℕ) : Option Cube :=
  if ok then
    let b := parent.budget * growth
    some ⟨parent.lits ++ [extra],if b > 0xFFFFFFFF then 0xFFFFFFFF else b,parent.depth+1,0⟩
  else none

def makeChildren (alloc : ℕ → Bool) (growth : ℕ) (c : Cube) (orDepth : ℕ) :
    ℕ → List ℤ → Option (List Cube)
  | _, [] => some []
  | i, d :: ds => do
    let k ← makeChild (alloc i) c d growth
    let ks ← makeChildren alloc growth c orDepth (i+1) ds
    pure ({ k with orDepth := orDepth } :: ks)

def pickSplitBit (c : Cube) (bits : List ℤ) : ℤ :=
  (bits.find? fun var => !(c.lits.any fun l => (l.natAbs : ℤ) == var)).getD 0

def splitBit (cfg : Config) (alloc : ℕ → Bool) (totalCubes : ℕ) (c : Cube) : List Cube :=
  if totalCubes+2 > cfg.maxCubes then []
  else
    let sb := pickSplitBit c cfg.bits
    if sb = 0 then [] else (makeChildren alloc cfg.growth c c.orDepth 0 [sb,-sb]).getD []

def splitChildren (cfg : Config) (alloc : ℕ → Bool) (totalCubes : ℕ) (c : Cube) : List Cube :=
  if c.depth ≥ cfg.maxDepth then []
  else
    match cfg.ors[c.orDepth]? with
    | some g =>
      if 2 ≤ g.length ∧ totalCubes + g.length ≤ cfg.maxCubes then
        (makeChildren alloc cfg.growth c (c.orDepth+1) 0 g).getD []
      else splitBit cfg alloc totalCubes c
    | none => splitBit cfg alloc totalCubes c

inductive LaResult
  | fallback
  | sat (v : ℕ → Bool)
  | dead
  | split (kids : List Cube)

def laLoop (cfg : Config) (probe : ℕ → Answer) (alloc : ℕ → Bool) (nprobe totalCubes : ℕ)
    (c : Cube) : ℕ → List Cube → List ℤ → LaResult
  | _, kids, [] => if kids = [] then .dead else .split kids
  | i, kids, d :: ds =>
    match if i < nprobe then probe i else .unknown with
    | .sat v => .sat v
    | .unsat => laLoop cfg probe alloc nprobe totalCubes c (i+1) kids ds
    | .unknown =>
      if totalCubes + kids.length + 1 > cfg.maxCubes then .fallback
      else
        match makeChild (alloc i) c d cfg.growth with
        | none => .fallback
        | some k => laLoop cfg probe alloc nprobe totalCubes c (i+1)
            (kids ++ [{ k with orDepth := c.orDepth+1 }]) ds

def lookaheadChildren (cfg : Config) (probe : ℕ → Answer) (buf : Bool) (alloc : ℕ → Bool)
    (totalCubes : ℕ) (c : Cube) : LaResult :=
  if c.depth ≥ cfg.maxDepth then .fallback
  else
    match cfg.ors[c.orDepth]? with
    | none => .fallback
    | some g =>
      if g.length < 2 then .fallback
      else if !buf then .fallback
      else laLoop cfg probe alloc (min g.length cfg.laMax) totalCubes c 0 [] g

def seedCubes (push : ℕ → Bool) (budget : ℕ) (lits : List ℤ) : List Cube :=
  if (List.range lits.length).all push then lits.map fun l => ⟨[l],budget,0,0⟩ else []

def buildFrontier (push : ℕ → Bool) (orlits bits : List ℤ) (budget : ℕ) : List Cube :=
  if 2 ≤ orlits.length then seedCubes push budget orlits
  else
    match bits with
    | [] => []
    | b :: _ => seedCubes push budget [b,-b]

def foldGroups (cap : ℕ) : List (List ℤ) → ℕ → ℕ → ℕ × ℕ
  | [], nfold, product => (nfold,product)
  | g :: gs, nfold, product =>
    if g.length < 2 then foldGroups cap gs nfold product
    else if product > cap / g.length then (nfold,product)
    else foldGroups cap gs (nfold+1) (product * g.length)

def seedLits : List (List ℤ) → ℕ → List ℤ
  | [], _ => []
  | g :: gs, rem => g.getD (rem % g.length) 0 :: seedLits gs (rem / g.length)

def buildCartesianFrontier (push : ℕ → Bool) (cap budget : ℕ) (groups : List (List ℤ)) :
    List Cube × List (List ℤ) :=
  if groups.length < 2 then ([],[])
  else
    let ors := groups.mergeSort fun a b => a.length ≤ b.length
    let (nfold,product) := foldGroups cap ors 0 1
    if nfold < 1 then ([],[])
    else
      let pushed := (List.range product).takeWhile push
      if pushed.length < 2 ∨ pushed.length < product then ([],[])
      else (pushed.map fun j => ⟨seedLits (ors.take nfold) j,budget,0,nfold⟩,ors)

def initialFrontier (useCart : Bool) (pushCart push : ℕ → Bool) (cap budget : ℕ)
    (groups : List (List ℤ)) (orlits bits : List ℤ) : List Cube × List (List ℤ) :=
  let cart := if useCart then buildCartesianFrontier pushCart cap budget groups else ([],[])
  if cart.1 = [] then (buildFrontier push orlits bits budget,[]) else cart

/-- What the solves and allocations on one popped cube come to: the answer of its solve,
those of the probes, and the allocations that succeed. -/
structure Choice where
  rc : Answer
  probe : ℕ → Answer
  buf : Bool
  laAlloc : ℕ → Bool
  splitAlloc : ℕ → Bool
  push : ℕ → Bool

inductive Outcome
  | sat (v : ℕ → Bool)
  | refuted
  | kids (ks : List Cube)

/-- A budget-hit cube: look ahead against the count seen when it was popped, else split
against the present one. -/
def deepen (cfg : Config) (ch : Choice) (tcSnap totalCubes : ℕ) (c : Cube) : Outcome :=
  match if cfg.lookahead then lookaheadChildren cfg ch.probe ch.buf ch.laAlloc tcSnap c
    else .fallback with
  | .sat v => .sat v
  | .dead => .refuted
  | .split ks => .kids ks
  | .fallback => .kids (splitChildren cfg ch.splitAlloc totalCubes c)

def conquer (cfg : Config) (ch : Choice) (tcSnap totalCubes : ℕ) (c : Cube) : Outcome :=
  match ch.rc with
  | .sat v => .sat v
  | .unsat => .refuted
  | .unknown => deepen cfg ch tcSnap totalCubes c

def pushKids (push : ℕ → Bool) : ℕ → List Cube → ℕ → List Cube → List Cube × ℕ × Bool
  | _, q, total, [] => (q,total,false)
  | i, q, total, k :: ks =>
    if push i then pushKids push (i+1) (q ++ [k]) (total+1) ks else (q,total,true)

inductive CubeResult
  | sat | unsat | unknown | error
  deriving DecidableEq

/-- The loop of `run_sequential`: one choice a round, `none` an engine error. The result
carries the model left in the engine; there is none when the choices run out. -/
def runSequential (cfg : Config) :
    List (Option Choice) → List Cube → ℕ → Bool → Option (CubeResult × Option (ℕ → Bool))
  | _, [], _, unresolved => some (if unresolved then .unknown else .unsat,none)
  | [], _ :: _, _, _ => none
  | none :: _, _ :: _, _, _ => some (.error,none)
  | some ch :: chs, c :: q, total, unresolved =>
    match conquer cfg ch total total c with
    | .sat v => some (.sat,some v)
    | .refuted => runSequential cfg chs q total unresolved
    | .kids [] => runSequential cfg chs q total true
    | .kids (k :: ks) =>
      let (q,total,failed) := pushKids ch.push 0 q total (k :: ks)
      runSequential cfg chs q total (unresolved || failed)

/-- A cube worker: building its instance, at the head of its loop, solving a popped cube
outside the lock, or gone. -/
inductive Worker
  | starting
  | looping
  | solving (c : Cube) (tcSnap : ℕ)
  | exited
  deriving DecidableEq

structure Pool where
  q : List Cube
  active : ℕ
  totalCubes : ℕ
  stop : Bool
  result : CubeResult
  unresolved : Bool
  portUnsat : Bool
  winner : Option (ℕ → Bool)
  workers : List Worker
  ports : List Bool

def Pool.init (q : List Cube) (totalCubes spCube spPort : ℕ) : Pool where
  q := q
  active := 0
  totalCubes := totalCubes
  stop := false
  result := .unsat
  unresolved := spCube = 0
  portUnsat := false
  winner := none
  workers := List.replicate spCube .starting
  ports := List.replicate spPort true

def Pool.loopHead (s : Pool) (i : ℕ) : Pool :=
  if s.stop then { s with workers := s.workers.set i .exited }
  else
    match s.q with
    | [] =>
      if s.active > 0 then { s with workers := s.workers.set i .looping }
      else { s with stop := !s.unresolved, workers := s.workers.set i .exited }
    | c :: q => { s with
        q := q
        active := s.active+1
        workers := s.workers.set i (.solving c s.totalCubes) }

def Pool.win (s : Pool) (v : ℕ → Bool) : Pool :=
  if s.stop then s else { s with result := .sat, winner := some v, stop := true }

def Pool.finish (cfg : Config) (s : Pool) (i : ℕ) (ch : Choice) (c : Cube) (tcSnap : ℕ) : Pool :=
  match conquer cfg ch tcSnap s.totalCubes c with
  | .sat v => { s.win v with active := s.active-1, workers := s.workers.set i .exited }
  | .refuted => { s with active := s.active-1, workers := s.workers.set i .looping }
  | .kids [] => { s with
      unresolved := true
      active := s.active-1
      workers := s.workers.set i .looping }
  | .kids (k :: ks) =>
    let (q,total,failed) := pushKids ch.push 0 s.q s.totalCubes (k :: ks)
    { s with
      q := q
      totalCubes := total
      unresolved := s.unresolved || failed
      active := s.active-1
      workers := s.workers.set i .looping }

def Pool.port (s : Pool) (j : ℕ) : Answer → Pool
  | .sat v => { s.win v with ports := s.ports.set j false }
  | .unsat =>
    let s := if s.stop then s
      else { s with result := .unsat, portUnsat := true, stop := true }
    { s with ports := s.ports.set j false }
  | .unknown => if s.stop then { s with ports := s.ports.set j false } else s

/-- A step of one worker: it fails to start, is at its loop's head or finishes a solve; a
portfolio worker fails to start, sees the stop flag or finishes a chunk. -/
inductive Event
  | fail (i : ℕ)
  | loop (i : ℕ)
  | finish (i : ℕ) (ch : Choice)
  | portFail (j : ℕ)
  | portStop (j : ℕ)
  | port (j : ℕ) (rc : Answer)

def Pool.step (cfg : Config) (s : Pool) : Event → Option Pool
  | .fail i =>
    match s.workers[i]? with
    | some .starting => some { s with workers := s.workers.set i .exited }
    | _ => none
  | .loop i =>
    match s.workers[i]? with
    | some .starting => some (s.loopHead i)
    | some .looping => some (s.loopHead i)
    | _ => none
  | .finish i ch =>
    match s.workers[i]? with
    | some (.solving c tcSnap) => some (s.finish cfg i ch c tcSnap)
    | _ => none
  | .portFail j => if s.ports[j]? = some true then some { s with ports := s.ports.set j false }
      else none
  | .portStop j => if s.ports[j]? = some true ∧ s.stop then
      some { s with ports := s.ports.set j false } else none
  | .port j rc => if s.ports[j]? = some true then some (s.port j rc) else none

def Pool.Joined (s : Pool) : Prop :=
  (∀ w ∈ s.workers, w = .exited) ∧ ∀ p ∈ s.ports, p = false

instance (s : Pool) : Decidable s.Joined := inferInstanceAs (Decidable (_ ∧ _))

def Pool.verdict (s : Pool) (install : Bool) : CubeResult :=
  let unresolved := s.unresolved || !s.q.isEmpty
  let result := if s.result = .unsat ∧ unresolved ∧ ¬ s.portUnsat then .unknown else s.result
  if result = .sat ∧ s.winner.isSome ∧ ¬ install then .unknown else result

def Pool.run (cfg : Config) : Pool → List Event → Option Pool
  | s, [] => some s
  | s, e :: es => (s.step cfg e).bind fun s => Pool.run cfg s es

/-- `run_parallel` with `spCube` and `spPort` threads started: without any, the frontier
is run sequentially. `setup` says that the lock and the arrays are made. There is no
result while a thread runs. -/
def runParallel (cfg : Config) (q : List Cube) (totalCubes : ℕ) (setup : Bool)
    (spCube spPort : ℕ) (events : List Event) (choices : List (Option Choice))
    (install : Bool) : Option (CubeResult × Option (ℕ → Bool)) :=
  if !setup then some (.error,none)
  else if spCube + spPort = 0 then runSequential cfg choices q totalCubes false
  else
    match Pool.run cfg (.init q totalCubes spCube spPort) events with
    | some s => if s.Joined then some (s.verdict install,s.winner) else none
    | none => none

end Cubes
end DvSolve
