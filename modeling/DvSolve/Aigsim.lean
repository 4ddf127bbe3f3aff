import DvSolve.Aig

/-! Bit-parallel simulation of the assertions of a graph: `dvs_aigsim.c`.
The cone of the assertions is renumbered: slot 0 is TRUE, then come the inputs, then the
gates in ascending order of ids. Each slot holds eight words of 64 lanes. -/
namespace DvSolve
namespace Aigsim

open BitVec (allOnes)
open Function (update)

def logW : ℕ := 3

def words : ℕ := 2^logW

def lanes : ℕ := words*64

def inPass : ℕ := 6+logW

def lanePat : ℕ → BitVec 64
  | 0 => 0xAAAAAAAAAAAAAAAA#64
  | 1 => 0xCCCCCCCCCCCCCCCC#64
  | 2 => 0xF0F0F0F0F0F0F0F0#64
  | 3 => 0xFF00FF00FF00FF00#64
  | 4 => 0xFFFF0000FFFF0000#64
  | _ => 0xFFFFFFFF00000000#64

abbrev Words := ℕ → BitVec 64

/-- `dvs_aigsim_s`. An operand is packed as twice its slot, plus one under a negation. -/
structure Sim where
  N : ℕ
  L : ℕ → ℤ
  R : ℕ → ℤ
  inputs : List ℕ
  nInputs : ℕ
  gateId : List ℕ
  gates : List (ℕ × ℕ)
  nGates : ℕ
  asl : List ℕ
  asserts : List ℤ
  val : ℕ → Words
  hitLane : ℕ
  hasHit : Bool
  hitExh : Bool
  hitIndex : ℕ
  vectors : ℕ

def leftOf (m : Aig) (id : ℕ) : ℤ :=
  if 2 ≤ id ∧ m.isAndId id then (m.childrenOf id).1 else 0

def rightOf (m : Aig) (id : ℕ) : ℤ :=
  if 2 ≤ id ∧ m.isAndId id then (m.childrenOf id).2 else 0

structure Cone where
  marked : Finset ℕ
  stack : List ℕ
  nInputs : ℕ
  nGates : ℕ

def Cone.mark (c : Cone) (l : ℤ) : Cone :=
  if l.natAbs > 1 ∧ l.natAbs ∉ c.marked then
    { c with marked := insert l.natAbs c.marked, stack := l.natAbs :: c.stack }
  else c

/-- The assertions, `none` when one names no node. -/
def seedCone (N : ℕ) : List ℤ → Cone → Option Cone
  | [], c => some c
  | a :: as, c => if a.natAbs > N then none else seedCone N as (c.mark a)

def coneRound (L R : ℕ → ℤ) (c : Cone) : Loop.Step Cone Cone :=
  match c.stack with
  | [] => .exit c
  | id :: stack =>
    let c := { c with stack := stack }
    if L id = 0 then .again { c with nInputs := c.nInputs+1 }
    else .again ((Cone.mark { c with nGates := c.nGates+1 } (L id)).mark (R id))

def slotOf (inputs gateId : List ℕ) (nInputs id : ℕ) : ℕ :=
  if id ∈ inputs then 1+inputs.idxOf id
  else if id ∈ gateId then 1+nInputs+gateId.idxOf id else 0

def pack (slot : ℕ → ℕ) (l : ℤ) : ℕ := 2*slot l.natAbs + if l < 0 then 1 else 0

def ofCone (m : Aig) (asserts : List ℤ) (c : Cone) : Sim :=
  let N := m.nodes.size
  let L := leftOf m
  let R := rightOf m
  let ids := (List.range' 2 (N-1)).filter (· ∈ c.marked)
  let inputs := ids.filter fun id => L id = 0
  let gateId := ids.filter fun id => L id ≠ 0
  let slot := slotOf inputs gateId c.nInputs
  { N := N, L := L, R := R
    inputs := inputs
    nInputs := c.nInputs
    gateId := gateId
    gates := gateId.map fun id => (pack slot (L id),pack slot (R id))
    nGates := c.nGates
    asl := asserts.map (pack slot)
    asserts := asserts
    val := fun slot _ => if slot = 0 then allOnes 64 else 0#64
    hitLane := 0
    hasHit := false
    hitExh := false
    hitIndex := 0
    vectors := 0 }

def new (m : Aig) (asserts : List ℤ) : Option Sim :=
  if m.nodes.size = 0 ∨ m.nodes.size > 0x3FFFFFF0 then none
  else
    (seedCone m.nodes.size asserts ⟨∅,[],0,0⟩).bind fun c =>
      (Loop.loop (coneRound (leftOf m) (rightOf m)) (m.nodes.size+1) c).map (ofCone m asserts)

def operand (val : ℕ → Words) (p : ℕ) : Words := fun w =>
  val (p/2) w ^^^ if p % 2 = 1 then allOnes 64 else 0#64

def runGates : ℕ → List (ℕ × ℕ) → (ℕ → Words) → ℕ → Words
  | _, [], val => val
  | dst, g :: gs, val =>
    runGates (dst+1) gs
      (update val dst fun w => operand val g.1 w &&& operand val g.2 w)

def pass (s : Sim) : Words × Sim :=
  let val := runGates (1+s.nInputs) s.gates s.val
  (fun w => s.asl.foldl (fun ok a => ok &&& operand val a w) (allOnes 64), { s with val := val })

def anyLane (ok : Words) : Bool := (List.range words).any fun w => ok w != 0#64

def recordHit (s : Sim) (ok : Words) : Sim :=
  match (List.range words).find? fun w => ok w != 0#64 with
  | some w => { s with hitLane := w*64+(ok w).ctz.toNat, hasHit := true }
  | none => s

def rng (st : BitVec 64) : BitVec 64 × BitVec 64 :=
  let x0 := st+0x9E3779B97F4A7C15#64
  let x := (x0 ^^^ (x0 >>> 30))*0xBF58476D1CE4E5B9#64
  let x := (x ^^^ (x >>> 27))*0x94D049BB133111EB#64
  (x0,x ^^^ (x >>> 31))

inductive Verdict
  | undecided
  | sat
  | unsat
  deriving DecidableEq, Repr

def laneInputs (n : ℕ) (val : ℕ → Words) : ℕ → Words := fun slot w =>
  if 1 ≤ slot ∧ slot ≤ min n inPass then
    if slot-1 < 6 then lanePat (slot-1)
    else if w.testBit (slot-1-6) then allOnes 64 else 0#64
  else val slot w

def passInputs (n b : ℕ) (val : ℕ → Words) : ℕ → Words := fun slot w =>
  if inPass+1 ≤ slot ∧ slot ≤ n then
    if b.testBit (slot-1-inPass) then allOnes 64 else 0#64
  else val slot w

/-- The lanes that are distinct, when there are fewer inputs than a pass enumerates. -/
def liveLanes (n : ℕ) : ℕ := if n ≥ inPass then lanes else 2^n

def laneMask (live : ℕ) : Words := fun w =>
  if live ≥ w*64+64 then allOnes 64
  else if live > w*64 then (1#64 <<< (live-w*64))-1#64 else 0#64

def clearLowest : ℕ → BitVec 64 → BitVec 64
  | 0, x => x
  | r+1, x => clearLowest r (x &&& (x-1#64))

def pickLane (ok : Words) : List ℕ → ℕ → Option ℕ
  | [], _ => none
  | w :: ws, r =>
    let k := (ok w).cpop.toNat
    if r ≥ k then pickLane ok ws (r-k)
    else some (w*64+(clearLowest r (ok w)).ctz.toNat)

def hitCount (ok : Words) : ℕ := ((List.range words).map fun w => (ok w).cpop.toNat).sum

/-- What a pass with hits does to the kept assignment: with seed 0 the first is taken and
the sweep ends, else the pass replaces the one kept with probability `c` of `seen`. -/
def keepHit (seed : BitVec 64) (b : ℕ) (ok : Words) (s : Sim) (st : BitVec 64) (seen : ℕ) :
    Option Sim × Sim × BitVec 64 × ℕ :=
  if seed = 0#64 then
    let s := recordHit s ok
    (some { s with hitExh := true, hitIndex := s.hitLane ||| b <<< inPass },s,st,seen)
  else
    let c := hitCount ok
    let seen := seen+c
    let st' := (rng st).1
    let r := (rng st).2.toNat % seen
    if r ≥ c then (none,s,st',seen)
    else
      match pickLane ok (List.range words) r with
      | some lane => (none,{ s with
          hasHit := true, hitExh := true, hitIndex := lane ||| b <<< inPass },st',seen)
      | none => (none,s,st',seen)

/-- The passes from `b` on, as many as are left; `stop b` is what `*stop` reads. -/
def sweep (stop : ℕ → Bool) (seed : BitVec 64) (live : ℕ) :
    ℕ → ℕ → Sim → BitVec 64 → ℕ → Verdict × Sim
  | 0, _, s, _, seen => (if seen ≠ 0 then .sat else .unsat,s)
  | left+1, b, s, st, seen =>
    if stop b then (.undecided,s)
    else
      let r := pass { s with val := passInputs s.nInputs b s.val }
      let s := { r.2 with vectors := r.2.vectors+live }
      let ok : Words := fun w => r.1 w &&& laneMask live w
      if anyLane r.1 ∧ anyLane ok then
        match keepHit seed b ok s st seen with
        | (some s,_) => (.sat,s)
        | (none,s,st,seen) => sweep stop seed live left (b+1) s st seen
      else sweep stop seed live left (b+1) s st seen

def exhaustive (s : Sim) (stop : ℕ → Bool) (seed : BitVec 64) : Verdict × Sim :=
  if s.nInputs > 32 then (.undecided,s)
  else
    sweep stop seed (liveLanes s.nInputs) (if s.nInputs > inPass then 2^(s.nInputs-inPass) else 1) 0
      { s with val := laneInputs s.nInputs s.val } seed 0

def bit (nv : ℕ → Bool) (l : ℤ) : Bool := if l < 0 then !nv l.natAbs else nv l.natAbs

/-- The value of input number `k` in the recorded assignment. -/
def hitBit (s : Sim) (k : ℕ) : Bool :=
  if s.hitExh then s.hitIndex.testBit k
  else (s.val (1+k) (s.hitLane/64)).getLsbD (s.hitLane % 64)

def setInputs (f : ℕ → Bool) : ℕ → List ℕ → (ℕ → Bool) → ℕ → Bool
  | _, [], nv => nv
  | k, id :: ids, nv => setInputs f (k+1) ids (update nv id (f k))

def setGates (L R : ℕ → ℤ) (N : ℕ) (nv : ℕ → Bool) : ℕ → Bool :=
  (List.range' 2 (N-1)).foldl (fun nv id =>
    if L id ≠ 0 then update nv id (bit nv (L id) && bit nv (R id)) else nv) nv

def model (s : Sim) : Option (ℕ → Bool) :=
  if s.hasHit then
    let nv := setGates s.L s.R s.N (setInputs (hitBit s) 0 s.inputs fun id => id = 1)
    if s.asserts.all (bit nv) then some nv else none
  else none

/-- `_uf_find`, with path halving; `none` when the rounds run out. -/
def ufFind : ℕ → (ℕ → ℕ) → ℕ → Option (ℕ × (ℕ → ℕ))
  | 0, _, _ => none
  | n+1, p, x =>
    if p x = x then some (x,p)
    else
      let p := update p x (p (p x))
      ufFind n p (p x)

structure Union where
  par : ℕ → ℕ
  cone : Finset ℕ
  stack : List ℕ

def unionChild (N id : ℕ) (l : ℤ) (u : Union) : Option Union :=
  if l.natAbs ≤ 1 then some u
  else
    (ufFind (N+1) u.par id).bind fun a =>
      (ufFind (N+1) a.2 l.natAbs).map fun b =>
        let par := if a.1 ≠ b.1 then update b.2 a.1 b.1 else b.2
        if l.natAbs ∈ u.cone then { u with par := par }
        else ⟨par,insert l.natAbs u.cone,l.natAbs :: u.stack⟩

def unionRound (m : Aig) (u : Union) : Loop.Step Union (Option Union) :=
  match u.stack with
  | [] => .exit (some u)
  | id :: stack =>
    let u := { u with stack := stack }
    if m.isAndId id then
      match (unionChild m.nodes.size id (m.childrenOf id).1 u).bind
          (unionChild m.nodes.size id (m.childrenOf id).2) with
      | some u => .again u
      | none => .exit none
    else .again u

/-- The assertions, `none` when one is constant or names no node. -/
def seedUnion (N : ℕ) : List ℤ → Union → Option Union
  | [], u => some u
  | a :: as, u =>
    if a.natAbs ≤ 1 ∨ a.natAbs > N then none
    else if a.natAbs ∈ u.cone then seedUnion N as u
    else seedUnion N as { u with cone := insert a.natAbs u.cone, stack := a.natAbs :: u.stack }

structure Groups where
  par : ℕ → ℕ
  grp : ℕ → Option ℕ
  ng : ℕ
  ag : List ℕ

def groupAsserts (N : ℕ) : List ℤ → Groups → Option Groups
  | [], g => some g
  | a :: as, g =>
    (ufFind (N+1) g.par a.natAbs).bind fun f =>
      match g.grp f.1 with
      | some k => groupAsserts N as { g with par := f.2, ag := g.ag ++ [k] }
      | none => groupAsserts N as
          ⟨f.2,update g.grp f.1 (some g.ng),g.ng+1,g.ag ++ [g.ng]⟩

def countNodes (m : Aig) (cone : Finset ℕ) : List ℕ → Groups → (ℕ → ℕ) → (ℕ → ℕ) →
    Option (Groups × (ℕ → ℕ) × (ℕ → ℕ))
  | [], g, gin, gand => some (g,gin,gand)
  | id :: ids, g, gin, gand =>
    if id ∈ cone then
      (ufFind (m.nodes.size+1) g.par id).bind fun f =>
        let g := { g with par := f.2 }
        let k := (g.grp f.1).getD 0xFFFFFFFF
        if m.isAndId id then countNodes m cone ids g gin (update gand k (gand k+1))
        else countNodes m cone ids g (update gin k (gin k+1)) gand
    else countNodes m cone ids g gin gand

def exhWork (nInputs perPass : ℕ) : Option ℕ :=
  if nInputs > 32 then none else some ((if nInputs > 6 then 2^(nInputs-6) else 1)*perPass)

def withinWork (maxWork : ℕ) (work : ℕ → Option ℕ) : List ℕ → ℕ → Bool
  | [], _ => true
  | g :: gs, total =>
    match work g with
    | none => false
    | some w => w ≤ maxWork && total+w ≤ maxWork && withinWork maxWork work gs (total+w)

def groupSeed (seed : BitVec 64) (g : ℕ) : BitVec 64 :=
  if seed = 0#64 then seed
  else (rng (seed ^^^ (BitVec.ofNat 64 (g+1)*0xD1B54A32D192ED03#64))).2 ||| 1#64

def groupOf (asserts : List ℤ) (ag : List ℕ) (g : ℕ) : List ℤ :=
  ((asserts.zip ag).filter fun x => x.2 == g).map Prod.fst

def sweepGroups (m : Aig) (asserts : List ℤ) (ag : List ℕ) (seed : BitVec 64) :
    List ℕ → (ℕ → Bool) → ℕ → Verdict × (ℕ → Bool) × ℕ
  | [], nv, work => (.sat,nv,work)
  | g :: gs, nv, work =>
    match new m (groupOf asserts ag g) with
    | none => (.undecided,nv,work)
    | some s =>
      let r := exhaustive s (fun _ => false) (groupSeed seed g)
      let s := r.2
      let work := work+s.vectors/64*(s.nGates+s.asserts.length)
      match r.1 with
      | .sat =>
        sweepGroups m asserts ag seed gs
          (if s.hitExh then setInputs s.hitIndex.testBit 0 s.inputs nv else nv) work
      | .unsat => (.unsat,nv,work)
      | .undecided => (.undecided,nv,work)

structure SplitResult where
  verdict : Verdict
  nv : Option (ℕ → Bool)
  work : ℕ

def SplitResult.undecided (work : ℕ) : SplitResult := ⟨.undecided,none,work⟩

/-- Every group swept; a valuation that joins their assignments is checked. -/
def sweepAll (m : Aig) (asserts : List ℤ) (g : Groups) (seed : BitVec 64) : SplitResult :=
  let r := sweepGroups m asserts g.ag seed (List.range g.ng) (fun id => id = 1) 0
  match r.1 with
  | .sat =>
    let nv := setGates (leftOf m) (rightOf m) m.nodes.size r.2.1
    if asserts.all (bit nv) then ⟨.sat,some nv,r.2.2⟩ else .undecided r.2.2
  | v => ⟨v,none,r.2.2⟩

def sweepUnion (m : Aig) (asserts : List ℤ) (maxWork : ℕ) (seed : BitVec 64) (u : Union) :
    Option SplitResult :=
  let N := m.nodes.size
  (groupAsserts N asserts ⟨u.par,fun _ => none,0,[]⟩).bind fun g =>
    if g.ng < 2 ∨ g.ng*N > 2^24 then some (.undecided 0)
    else
      (countNodes m u.cone (List.range' 2 (N-1)) g (fun _ => 0) fun _ => 0).map fun c =>
        let g := c.1
        let work k := exhWork (c.2.1 k) (c.2.2 k+g.ag.count k)
        if withinWork maxWork work (List.range g.ng) 0 then sweepAll m asserts g seed
        else .undecided 0

/-- `dvs_aigsim_split_exhaustive`; `none` when a union-find search runs out of rounds. -/
def splitExhaustive (m : Aig) (asserts : List ℤ) (maxWork : ℕ) (seed : BitVec 64) :
    Option SplitResult :=
  let N := m.nodes.size
  if N = 0 ∨ N > 0x3FFFFFF0 ∨ asserts.length < 2 then some (.undecided 0)
  else
    match seedUnion N asserts ⟨id,∅,[]⟩ with
    | none => some (.undecided 0)
    | some u =>
      match Loop.loop (unionRound m) (N+1) u with
      | some (some u) => sweepUnion m asserts maxWork seed u
      | _ => none

end Aigsim
end DvSolve
