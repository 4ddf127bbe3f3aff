import Mathlib.Tactic
import DvSolve.Loop

/-! The and-inverter graph manager of `dvs_aig.c`.
Nodes live in a flat arena addressed by signed ids, AND gates are hash-consed in
a chained table, and every new gate first goes through the two-level rewriter.
Ids are unbounded integers: having an id left for a new node is part of an
allocation succeeding. -/
namespace DvSolve

/- A literal (`dvs_aig_node_t`) is a signed node id: `-l` negates `l`, `0` is no node. -/
def aigNull : ℤ := 0
def aigTrue : ℤ := 1
def aigFalse : ℤ := -1

structure Node where
  left : ℤ
  right : ℤ
  parents : ℕ
  deriving DecidableEq, Repr

/-- The manager. A bucket is its chain of node ids from the head on, which the
source threads through `next_in_bucket`. -/
structure Aig where
  nodes : Array Node
  buckets : Array (List ℕ)
  numInTable : ℕ
  numInputs : ℕ
  numAnds : ℕ
  numShared : ℕ
  deriving DecidableEq, Repr

abbrev Build := StateM Aig

namespace Aig

def node (m : Aig) (i : ℕ) : Node := m.nodes.getD (i-1) ⟨0,0,0⟩

def bucketsMask (m : Aig) : ℕ := m.buckets.size - 1

def bucketHash (l r : ℤ) (mask : ℕ) : ℕ :=
  (547789289 * l.natAbs + 786695309 * r.natAbs) % 2^32 &&& mask

def pushBucket (buckets : Array (List ℕ)) (h idx : ℕ) : Array (List ℕ) :=
  buckets.modify h (idx :: ·)

def rehash (m : Aig) (newCap : ℕ) (old : Array (List ℕ)) : Array (List ℕ) :=
  old.toList.flatten.foldl (fun bs idx =>
    pushBucket bs (bucketHash (m.node idx).left (m.node idx).right (newCap-1)) idx)
    (Array.replicate newCap [])

def bucketsResize (m : Aig) : Aig :=
  { m with buckets := m.rehash (m.buckets.size * 2) m.buckets }

def bumpParents (m : Aig) (l : ℤ) : Aig :=
  { m with nodes := m.nodes.modify (l.natAbs-1) fun d => { d with parents := d.parents+1 } }

def newAnd (m : Aig) (l r : ℤ) : ℤ × Aig :=
  let m := if m.numInTable ≥ m.bucketsMask + 1 then m.bucketsResize else m
  let h := bucketHash l r m.bucketsMask
  let newIdx := m.nodes.size + 1
  let m := { m with
    nodes := m.nodes.push ⟨l,r,0⟩
    buckets := pushBucket m.buckets h newIdx
    numInTable := m.numInTable + 1
    numAnds := m.numAnds + 1 }
  ((newIdx : ℤ),(m.bumpParents l).bumpParents r)

def internAnd (l r : ℤ) : Build ℤ := fun m =>
  let h := bucketHash l r m.bucketsMask
  match (m.buckets.getD h []).find? fun idx => (m.node idx).left = l ∧ (m.node idx).right = r with
  | some idx => ((idx : ℤ),{ m with numShared := m.numShared + 1 })
  | none => m.newAnd l r

/-- `dvs_aig_new`: the arena holds TRUE alone and the table has 64 buckets. -/
def new : Aig where
  nodes := #[⟨0,0,0⟩]
  buckets := Array.replicate 64 []
  numInTable := 0
  numInputs := 0
  numAnds := 0
  numShared := 0

def mkInput : Build ℤ := fun m =>
  (((m.nodes.size + 1 : ℕ) : ℤ),{ m with nodes := m.nodes.push ⟨0,0,0⟩, numInputs := m.numInputs + 1 })

def parents (m : Aig) (n : ℤ) : ℕ :=
  if n = 0 ∨ n = aigTrue ∨ n = aigFalse then 0
  else if n.natAbs > m.nodes.size then 0
  else (m.node n.natAbs).parents

def isAndId (m : Aig) (id : ℤ) : Bool :=
  if id = 0 ∨ id = aigTrue ∨ id = aigFalse then false
  else if id.natAbs > m.nodes.size then false
  else (m.node id.natAbs).left ≠ 0

def isInput (m : Aig) (n : ℤ) : Bool :=
  if n = 0 ∨ n = aigTrue ∨ n = aigFalse then false
  else if n.natAbs > m.nodes.size then false
  else (m.node n.natAbs).left = 0

def childrenOf (m : Aig) (id : ℤ) : ℤ × ℤ :=
  ((m.node id.natAbs).left,(m.node id.natAbs).right)

inductive Rewritten
  | found (res : ℤ)
  | gate (l r : ℤ)
  deriving DecidableEq, Repr

def normalize (left right : ℤ) : Rewritten :=
  if left.natAbs > right.natAbs then .gate right left else .gate left right

/-- What the rules read of an operand: the literal, whether it is an AND and
under a negation, and its stored children (`0` when it has none). -/
structure Operand where
  lit : ℤ
  isAnd : Bool
  isNeg : Bool
  fst : ℤ
  snd : ℤ

def operand (m : Aig) (l : ℤ) : Operand :=
  let isAnd := m.isAndId l
  let (a,b) := if isAnd then m.childrenOf l else (0,0)
  ⟨l,isAnd,decide (l < 0),a,b⟩

def firstRule {α : Type} : List (Bool × α) → Option α
  | [] => none
  | (c,x) :: rules => if c then some x else firstRule rules

def level1 (left right : ℤ) : Option ℤ :=
  firstRule
    [(left == aigTrue || left == right,right),(right == aigTrue,left),
     (left == aigFalse || right == aigFalse || left == -right,aigFalse)]

/-- Level 2, on `left` with children `a`, `b` and `right` with children `c`, `d`:
contradiction, subsumption (each asymmetric, then symmetric), idempotence, resolution. -/
def level2 : Operand → Operand → Option ℤ
  | ⟨left,leftIsAnd,leftIsNeg,a,b⟩, ⟨right,rightIsAnd,rightIsNeg,c,d⟩ =>
    firstRule
      [(!leftIsNeg && leftIsAnd && (a == -right || b == -right),aigFalse),
       (!rightIsNeg && rightIsAnd && (c == -left || d == -left),aigFalse),
       (!leftIsNeg && !rightIsNeg && leftIsAnd && rightIsAnd
          && (a == -c || a == -d || b == -c || b == -d),aigFalse),
       (leftIsNeg && leftIsAnd && (a == -right || b == -right),right),
       (rightIsNeg && rightIsAnd && (c == -left || d == -left),left),
       (leftIsNeg && !rightIsNeg && leftIsAnd && rightIsAnd
          && (a == -c || a == -d || b == -c || b == -d),right),
       (rightIsNeg && !leftIsNeg && rightIsAnd && leftIsAnd
          && (c == -a || c == -b || d == -a || d == -b),left),
       (!leftIsNeg && leftIsAnd && (a == right || b == right),left),
       (!rightIsNeg && rightIsAnd && (c == left || d == left),right),
       (leftIsNeg && rightIsNeg && leftIsAnd && rightIsAnd
          && ((a == c && b == -d) || (a == d && b == -c)),-a),
       (leftIsNeg && rightIsNeg && leftIsAnd && rightIsAnd
          && ((d == b && c == -a) || (d == a && c == -b)),-d)]

def level3 : Operand → Operand → Option (ℤ × ℤ)
  | ⟨left,leftIsAnd,leftIsNeg,a,b⟩, ⟨right,rightIsAnd,rightIsNeg,c,d⟩ =>
    firstRule
      [(leftIsNeg && leftIsAnd && a == right,(-b,right)),
       (leftIsNeg && leftIsAnd && b == right,(-a,right)),
       (rightIsNeg && rightIsAnd && c == left,(left,-d)),
       (rightIsNeg && rightIsAnd && d == left,(left,-c)),
       (leftIsNeg && !rightIsNeg && leftIsAnd && rightIsAnd && (a == c || a == d),(-b,right)),
       (leftIsNeg && !rightIsNeg && leftIsAnd && rightIsAnd && (b == c || b == d),(-a,right)),
       (rightIsNeg && !leftIsNeg && rightIsAnd && leftIsAnd && (c == a || c == b),(left,-d)),
       (rightIsNeg && !leftIsNeg && rightIsAnd && leftIsAnd && (d == a || d == b),(left,-c))]

def level4 : Operand → Operand → Option (ℤ × ℤ)
  | ⟨left,leftIsAnd,leftIsNeg,a,b⟩, ⟨_,rightIsAnd,rightIsNeg,c,d⟩ =>
    firstRule
      [(!leftIsNeg && !rightIsNeg && leftIsAnd && rightIsAnd && (a == c || b == c),(left,d)),
       (!leftIsNeg && !rightIsNeg && leftIsAnd && rightIsAnd && (a == d || b == d),(left,c))]

/-- One round of `rewrite_and`: levels 1 and 2 return, levels 3 and 4 go on with
new operands, and when no rule applies the operands are those of a new gate. -/
def rewriteRound (m : Aig) (p : ℤ × ℤ) : Loop.Step (ℤ × ℤ) Rewritten :=
  match level1 p.1 p.2 with
  | some res => .exit (.found res)
  | none =>
    match level2 (m.operand p.1) (m.operand p.2) with
    | some res => .exit (.found res)
    | none =>
      match level3 (m.operand p.1) (m.operand p.2) with
      | some q => .again q
      | none =>
        match level4 (m.operand p.1) (m.operand p.2) with
        | some q => .again q
        | none => .exit (normalize p.1 p.2)

/-- The rewriter. A round that goes on replaces an operand by a child, so the
sum of the absolute ids bounds the number of rounds. -/
def rewriteAnd (m : Aig) (l r : ℤ) : Option Rewritten :=
  Loop.loop m.rewriteRound (l.natAbs + r.natAbs + 1) (l,r)

def mkAnd (a b : ℤ) : Build ℤ := do
  match (← get).rewriteAnd a b with
  | some (.found res) => pure res
  | some (.gate l r) => internAnd l r
  | none => pure aigNull

def mkOr (a b : ℤ) : Build ℤ := do
  let r ← mkAnd (-a) (-b)
  pure (-r)

def mkXor (a b : ℤ) : Build ℤ := do
  let l ← mkAnd a (-b)
  let r ← mkAnd (-a) b
  mkOr l r

def mkIff (a b : ℤ) : Build ℤ := do
  let r ← mkXor a b
  pure (-r)

def mkIte (c t e : ℤ) : Build ℤ := do
  if c = aigTrue then pure t
  else if c = aigFalse then pure e
  else if t = e then pure t
  else
    let lhs ← mkAnd c t
    let rhs ← mkAnd (-c) e
    mkOr lhs rhs

end Aig
end DvSolve
