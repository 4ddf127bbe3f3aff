import DvSolve.Aig

/-! Classification of gates in `dvs_affine.c`.
A gate is affine when it has the three-AND shape of an XOR, or when its cone over
linear nodes is a small table whose 256 simulated lanes spell an affine function.
The arrays of the source indexed by node id are functions of the id. -/
namespace DvSolve
namespace Affine

open Loop
open BitVec (allOnes)
open Function (update)

def idOf (lit : ℤ) : ℕ := lit.natAbs

/-- The parts of `aff_t` that describe gates. `sm` holds the leaves of a small table
with coefficient 1 and its constant, `none` where the source has `SM_NONE`. -/
structure Gates where
  N : ℕ
  L : ℕ → ℤ
  R : ℕ → ℤ
  xa : ℕ → ℤ
  xb : ℕ → ℤ
  sm : ℕ → Option (List ℕ × Bool)

def smLeaves : ℕ := 8
def smCut : ℕ := 16
def smInternal : ℕ := 256

def gateAffine (a : Gates) (id : ℕ) : Bool := a.xa id ≠ 0 || (a.sm id).isSome

def findXor (L R : ℕ → ℤ) (id : ℕ) : ℤ × ℤ :=
  let l := L id
  let r := R id
  if l = 0 ∨ l ≥ 0 ∨ r ≥ 0 then (0,0)
  else
    let p := idOf l
    let q := idOf r
    if L p = 0 ∨ L q = 0 then (0,0)
    else if (L q = -L p ∧ R q = -R p) ∨ (L q = -R p ∧ R q = -L p) then (L p,R p)
    else (0,0)

def loadGates (m : Aig) : Gates :=
  let N := m.nodes.size
  let L := fun id => if 2 ≤ id ∧ id ≤ N ∧ m.isAndId id then (m.childrenOf id).1 else 0
  let R := fun id => if 2 ≤ id ∧ id ≤ N ∧ m.isAndId id then (m.childrenOf id).2 else 0
  let x := fun id => if 2 ≤ id ∧ id ≤ N then findXor L R id else (0,0)
  ⟨N,L,R,fun id => (x id).1,fun id => (x id).2,fun _ => none⟩

/-- The search for a cut: leaves and inner gates found, nodes visited, the stack
(top first) and the node visits left. -/
structure Cut where
  leaves : List ℕ
  inner : List ℕ
  visited : Finset ℕ
  stack : List ℕ
  budget : ℕ

/-- One node of the cut; the result is `none` where the source gives up. -/
def cutRound (a : Gates) (lin : ℕ → Bool) (pierce : Bool) (s : Cut) :
    Step Cut (Option (List ℕ × List ℕ) × ℕ) :=
  match s.stack with
  | [] => .exit (some (s.leaves,s.inner),s.budget)
  | c :: stack =>
    if c = 1 ∨ c ∈ s.visited then .again { s with stack := stack }
    else if s.budget = 0 then .exit (none,0)
    else if lin c && !(pierce && (a.sm c).isSome) then
      if s.leaves.length = smCut then .exit (none,s.budget-1)
      else .again ⟨s.leaves ++ [c],s.inner,insert c s.visited,stack,s.budget-1⟩
    else if s.inner.length = smInternal then .exit (none,s.budget-1)
    else .again ⟨s.leaves,s.inner ++ [c],insert c s.visited,
      idOf (a.R c) :: idOf (a.L c) :: stack,s.budget-1⟩

def findCut (a : Gates) (lin : ℕ → Bool) (pierce : Bool) (budget id : ℕ) :
    Option (Option (List ℕ × List ℕ) × ℕ) :=
  loop (cutRound a lin pierce) (2 * smInternal + 3)
    ⟨[],[],∅,[idOf (a.R id),idOf (a.L id)],budget⟩

def derivedLeaf (a : Gates) (earlier : List ℕ) (leaf : ℕ) : Bool :=
  a.xa leaf ≠ 0 && (a.sm leaf).isNone &&
    ((idOf (a.xa leaf) = 1 || idOf (a.xa leaf) ∈ earlier) &&
      (idOf (a.xb leaf) = 1 || idOf (a.xb leaf) ∈ earlier))

def smPatWord (j w : ℕ) : BitVec 64 :=
  match j with
  | 0 => 0xAAAAAAAAAAAAAAAA#64
  | 1 => 0xCCCCCCCCCCCCCCCC#64
  | 2 => 0xF0F0F0F0F0F0F0F0#64
  | 3 => 0xFF00FF00FF00FF00#64
  | 4 => 0xFFFF0000FFFF0000#64
  | 5 => 0xFFFFFFFF00000000#64
  | j => if (w >>> (j-6)) &&& 1 ≠ 0 then allOnes 64 else 0#64

abbrev Lanes := BitVec 256

def smPat (j : ℕ) : Lanes :=
  smPatWord j 3 ++ smPatWord j 2 ++ smPatWord j 1 ++ smPatWord j 0

def negMask (b : Bool) : Lanes := if b then allOnes 256 else 0#256

def laneLit (val : ℕ → Lanes) (lit : ℤ) : Lanes := val (idOf lit) ^^^ negMask (lit < 0)

/-- Simulated leaves: the lanes by node, the leaves read so far, and the
independent ones among them in order. -/
structure Sim where
  val : ℕ → Lanes
  earlier : List ℕ
  indep : List ℕ

def simLeaf (a : Gates) (s : Sim) (leaf : ℕ) : Sim :=
  if derivedLeaf a s.earlier leaf then
    { s with
      val := update s.val leaf (laneLit s.val (a.xa leaf) ^^^ laneLit s.val (a.xb leaf))
      earlier := s.earlier ++ [leaf] }
  else
    ⟨update s.val leaf (smPat s.indep.length),s.earlier ++ [leaf],s.indep ++ [leaf]⟩

def simLeaves (a : Gates) (leaves : List ℕ) : Sim :=
  leaves.foldl (simLeaf a) ⟨update (fun _ => 0#256) 1 (allOnes 256),[],[]⟩

def simGate (a : Gates) (val : ℕ → Lanes) (g : ℕ) : ℕ → Lanes :=
  update val g (laneLit val (a.L g) &&& laneLit val (a.R g))

def coef (f : Lanes) (k : ℕ) : Bool := f.getLsbD (2^k) ^^ f.getLsbD 0

def affineOf (f : Lanes) : ℕ → Lanes
  | 0 => negMask (f.getLsbD 0)
  | n+1 => if coef f n then affineOf f n ^^^ smPat n else affineOf f n

/-- The table of gate `id` over a cut: its leaves with coefficient 1 and its
constant, if it is affine in at most 8 independent leaves. -/
def affineTable (a : Gates) (id : ℕ) (leaves inner : List ℕ) : Option (List ℕ × Bool) :=
  let s := simLeaves a (leaves.mergeSort (· ≤ ·))
  if s.indep.length > smLeaves then none
  else
    let val := (inner.mergeSort (· ≤ ·) ++ [id]).foldl (simGate a) s.val
    let f := val id
    if affineOf f s.indep.length = f then
      some ((s.indep.zipIdx.filter fun jk => coef f jk.2).map Prod.fst,f.getLsbD 0)
    else none

def findSmall (a : Gates) (lin : ℕ → Bool) (budget id : ℕ) (pierce : Bool) :
    Option (Option (List ℕ × Bool) × ℕ) := do
  let (cut,budget) ← findCut a lin pierce budget id
  match cut with
  | none => pure (none,budget)
  | some (leaves,inner) => pure (affineTable a id leaves inner,budget)

def coneRound (a : Gates) (s : Finset ℕ × List ℕ) : Step (Finset ℕ × List ℕ) (Finset ℕ) :=
  match s.2 with
  | [] => .exit s.1
  | id :: stack =>
    if id ≤ 1 ∨ id ∈ s.1 then .again (s.1,stack)
    else if a.L id ≠ 0 then .again (insert id s.1,idOf (a.R id) :: idOf (a.L id) :: stack)
    else .again (insert id s.1,stack)

def findCone (a : Gates) (asserts : List ℤ) : Option (Finset ℕ) :=
  loop (coneRound a) (asserts.length + 2 * a.N + 3) (∅,(asserts.map idOf).reverse)

def sigBit (id : ℕ) : ℕ := 1 <<< ((id * 0x9E3779B97F4A7C15 % 2^64) >>> 58)

def popcount (x : ℕ) : ℕ := (List.range 64).countP fun k => x.testBit k

/-- State of the pass: the gates with the tables found, the linear nodes, the two
support signatures and the node visits left. -/
structure Tables where
  gates : Gates
  lin : ℕ → Bool
  sig1 : ℕ → ℕ
  sig2 : ℕ → ℕ
  budget : ℕ
  nSmall : ℕ

def Tables.addSmall (s : Tables) (id : ℕ) (t : List ℕ × Bool) (budget : ℕ) : Tables :=
  { s with
    gates := { s.gates with sm := update s.gates.sm id (some t) }
    lin := update s.lin id true
    sig1 := update s.sig1 id (sigBit id)
    budget := budget
    nSmall := s.nSmall+1 }

def trySig (s : Tables) (sig budget id : ℕ) (pierce : Bool) :
    Option (Option (List ℕ × Bool) × ℕ) :=
  if popcount sig ≤ smCut then findSmall s.gates s.lin budget id pierce else some (none,budget)

def trySmall (s : Tables) (id : ℕ) : Option Tables := do
  match ← trySig s (s.sig1 id) s.budget id false with
  | (some t,budget) => pure (s.addSmall id t budget)
  | (none,budget) =>
    match ← trySig s (s.sig2 id) budget id true with
    | (some t,budget) => pure (s.addSmall id t budget)
    | (none,budget) => pure { s with budget := budget }

def tableStep (cone : Finset ℕ) (read : ℕ → Bool) (s : Tables) (id : ℕ) : Option Tables :=
  let a := s.gates
  if id ∉ cone then some s
  else if a.L id = 0 ∨ (a.xa id ≠ 0 ∧ s.lin (idOf (a.xa id)) ∧ s.lin (idOf (a.xb id))) then
    some { s with
      lin := update s.lin id true
      sig1 := update s.sig1 id (sigBit id)
      sig2 := update s.sig2 id (sigBit id) }
  else
    let s := { s with
      sig1 := update s.sig1 id (s.sig1 (idOf (a.L id)) ||| s.sig1 (idOf (a.R id)))
      sig2 := update s.sig2 id (s.sig2 (idOf (a.L id)) ||| s.sig2 (idOf (a.R id))) }
    if !read id || s.budget = 0 then some s else trySmall s id

def findTables (a : Gates) (asserts : List ℤ) : Option (Gates × ℕ) := do
  let cone ← findCone a asserts
  let ids := List.range' 2 (a.N-1)
  let read := fun id => id ∈ asserts.map idOf ||
    ids.any fun x => x ∈ cone && a.xa x ≠ 0 && (idOf (a.xa x) = id || idOf (a.xb x) = id)
  let budget := 3 * (ids.countP fun id => id ∈ cone) + 4096
  let s ← ids.foldlM (tableStep cone read)
    ⟨a,update (fun _ => false) 1 true,fun _ => 0,fun _ => 0,budget,0⟩
  pure (s.gates,s.nSmall)

end Affine
end DvSolve
