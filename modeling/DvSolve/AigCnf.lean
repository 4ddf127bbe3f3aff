import DvSolve.AigBuild

/-! The incremental CNF encoder of `dvs_aig_cnf.c`.
Node `n` of the graph is SAT variable `n`. The encoder remembers which nodes it
has emitted, asserts a top-level root leaf by leaf and encodes the subtree of a
node with a work stack, as an ITE where two inner ANDs serve it alone. -/
namespace DvSolve

/-- Encoder state, with the clauses the solver has received in their order.
The bitmaps are the sets of their set bits. -/
structure Cnf where
  encoded : Finset ℕ
  visited : Finset ℕ
  touched : List ℕ
  clauses : List (List ℤ)
  numVars : ℕ
  numClauses : ℕ
  numLiterals : ℕ
  deriving DecidableEq

namespace Cnf

def new : Cnf := ⟨∅,∅,[],[],0,0,0⟩

def isNodeEncoded (e : Cnf) (n : ℤ) : Bool := n.natAbs = 0 ∨ n.natAbs ∈ e.encoded

def markEncoded (e : Cnf) (n : ℤ) : Cnf :=
  { e with encoded := insert n.natAbs e.encoded, numVars := e.numVars + 1 }

def emit (e : Cnf) (cs : List (List ℤ)) : Cnf :=
  { e with
    clauses := e.clauses ++ cs
    numClauses := e.numClauses + cs.length
    numLiterals := e.numLiterals + (cs.map List.length).sum }

def emitAndClauses (e : Cnf) (x a b : ℤ) : Cnf :=
  e.emit [[-x,a],[-x,b],[x,-a,-b]]

def emitIteClauses (e : Cnf) (x c a b : ℤ) : Cnf :=
  e.emit [[-x,-c,a],[-x,c,b],[x,-c,-a],[x,c,-b]]

/-- `(c, ¬a, ¬b)` when the AND `cur` is `ite c a b` over two inner ANDs without
another parent, as found in the graph. -/
def detectIte (aig : Aig) (cur : ℤ) : Option (ℤ × ℤ × ℤ) :=
  if cur < 0 || !aig.isAndId cur then none
  else
    let l := (aig.childrenOf cur).1
    let r := (aig.childrenOf cur).2
    if l ≥ 0 || r ≥ 0 then none
    else if !aig.isAndId l || !aig.isAndId r then none
    else if aig.parents l > 1 || aig.parents r > 1 then none
    else
      let ll := (aig.childrenOf l).1
      let lr := (aig.childrenOf l).2
      let rl := (aig.childrenOf r).1
      let rr := (aig.childrenOf r).2
      Aig.firstRule
        [(-lr == rl,(rl,rr,ll)),(-ll == rl,(rl,rr,lr)),(-lr == rr,(rr,rl,ll)),(-ll == rr,(rr,rl,lr))]

def gateOperands (aig : Aig) (cur : ℤ) : List ℤ :=
  match detectIte aig cur with
  | some (c,notA,notB) => [c,notA,notB]
  | none => [(aig.childrenOf cur).1,(aig.childrenOf cur).2]

def emitGate (aig : Aig) (e : Cnf) (cur : ℤ) : Cnf :=
  let x : ℤ := cur.natAbs
  match detectIte aig cur with
  | some (c,notA,notB) => (e.markEncoded x).emitIteClauses x c (-notA) (-notB)
  | none => (e.markEncoded x).emitAndClauses x (aig.childrenOf cur).1 (aig.childrenOf cur).2

def encodeRound (aig : Aig) : Cnf × List ℤ → Loop.Step (Cnf × List ℤ) Cnf
  | (e,[]) => .exit e
  | (e,cur :: rest) =>
    if e.isNodeEncoded cur then .again (e,rest)
    else if cur = aigTrue ∨ cur = aigFalse then
      .again ((e.markEncoded cur).emit [[aigTrue]],rest)
    else if aig.isInput cur then .again (e.markEncoded cur,rest)
    else if (gateOperands aig cur).all e.isNodeEncoded then .again (emitGate aig e cur,rest)
    else .again (e,(gateOperands aig cur).reverse ++ cur :: rest)

def encodeSubtree (aig : Aig) (e : Cnf) (root : ℤ) : Option Cnf :=
  Loop.loop (encodeRound aig) (4 * aig.nodes.size + 2) (e,[root])

def visitBit (cur : ℤ) : ℕ := 2 * (cur.natAbs - 1) + (if cur < 0 then 1 else 0)

/-- One round of the top-level flattening: encoder, visit stack (top first) and
the leaves collected so far. -/
def flattenRound (aig : Aig) :
    Cnf × List ℤ × List ℤ → Loop.Step (Cnf × List ℤ × List ℤ) (Cnf × List ℤ)
  | (e,[],leaves) => .exit (e,leaves)
  | (e,cur :: rest,leaves) =>
    let bit := visitBit cur
    if bit ∈ e.visited then .again (e,rest,leaves)
    else
      let e := { e with visited := insert bit e.visited, touched := e.touched ++ [bit] }
      if cur > 0 ∧ aig.isAndId cur then
        .again (e,(aig.childrenOf cur).2 :: (aig.childrenOf cur).1 :: rest,leaves)
      else .again (e,rest,leaves ++ [cur])

def flatten (aig : Aig) (e : Cnf) (root : ℤ) : Option (Cnf × List ℤ) :=
  Loop.loop (flattenRound aig) (6 * aig.nodes.size + 2) (e,[root],[])

def clearTouched (e : Cnf) : Cnf :=
  { e with visited := e.touched.foldl Finset.erase e.visited, touched := [] }

def assertLeaves (aig : Aig) (e : Cnf) : List ℤ → Option Cnf
  | [] => some e
  | leaf :: leaves => do
    let e ← encodeSubtree aig e leaf
    assertLeaves aig (e.emit [[leaf]]) leaves

def encode (aig : Aig) (e : Cnf) (root : ℤ) (topLevel : Bool) : Option Cnf :=
  if root = 0 then some e
  else if !topLevel then encodeSubtree aig e root
  else do
    let (e,leaves) ← flatten aig e root
    assertLeaves aig e.clearTouched leaves

end Cnf
end DvSolve
