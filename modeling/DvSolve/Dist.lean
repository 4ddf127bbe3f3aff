import DvSolve.Context

/-! Distributions.
The weighted draw of `dvs_search.c`, the table of `dvs_compile.c` and the encoding of
`dvs_bbsolver.c`; values are the bit patterns of the bounds. -/
namespace DvSolve
namespace Dist

open Solver

structure Entry where
  lo : BitVec 64
  hi : BitVec 64
  weight : BitVec 32
  isPerValue : Bool
  deriving DecidableEq

structure Spec where
  varId : ℕ
  entries : List Entry
  deriving DecidableEq

def varBMin (v : Variable) (a b : BitVec 64) : BitVec 64 := if varBLt v a b then a else b

def varBMax (v : Variable) (a b : BitVec 64) : BitVec 64 := if varBLt v a b then b else a

def rand64 (s : BitVec 64) : BitVec 64 × BitVec 64 :=
  let x := if s = 0#64 then 0xDEADBEEF12345678#64 else s
  let x := x ^^^ (x <<< 13)
  let x := x ^^^ (x >>> 7)
  let s := x ^^^ (x <<< 17)
  let x := (s ^^^ (s >>> 30))*0xBF58476D1CE4E5B9#64
  let x := (x ^^^ (x >>> 27))*0x94D049BB133111EB#64
  (x ^^^ (x >>> 31),s)

def randRange64 (s lo hi : BitVec 64) : BitVec 64 × BitVec 64 :=
  let span := hi-lo+1#64
  let (x,s) := rand64 s
  (if span = 0#64 then x else lo+x%span,s)

namespace Entry

def clip (e : Entry) (v : Variable) (lo hi : BitVec 64) : BitVec 64 × BitVec 64 :=
  (varBMax v e.lo lo,varBMin v e.hi hi)

def live (e : Entry) (v : Variable) (lo hi : BitVec 64) : Bool :=
  e.weight != 0#32 && !varBGt v (e.clip v lo hi).1 (e.clip v lo hi).2

/-- `ew`: a per-value weight counts once for each value. -/
def effective (e : Entry) (v : Variable) (lo hi : BitVec 64) : BitVec 64 :=
  if e.isPerValue then e.weight.setWidth 64*((e.clip v lo hi).2-(e.clip v lo hi).1+1#64)
  else e.weight.setWidth 64

end Entry

def totalWeight (v : Variable) (lo hi : BitVec 64) (es : List Entry) : BitVec 64 :=
  es.foldl (fun t e => if e.live v lo hi then t+e.effective v lo hi else t) 0#64

def rollEntry (v : Variable) (lo hi roll : BitVec 64) :
    BitVec 64 → List Entry → Option (BitVec 64 × BitVec 64)
  | _, [] => none
  | cum, e :: es =>
    if e.live v lo hi then
      if roll < cum+e.effective v lo hi then some (e.clip v lo hi)
      else rollEntry v lo hi roll (cum+e.effective v lo hi) es
    else rollEntry v lo hi roll cum es

def pickValueDist (v : Variable) (es : List Entry) (s lo hi : BitVec 64) :
    BitVec 64 × BitVec 64 :=
  let total := totalWeight v lo hi es
  if total = 0#64 then randRange64 s lo hi
  else
    let (x,s) := rand64 s
    match rollEntry v lo hi (x%total) 0#64 es with
    | some r => randRange64 s r.1 r.2
    | none => randRange64 s lo hi

def rejectHoles (holes : List (BitVec 64)) (lo hi : BitVec 64) :
    ℕ → BitVec 64 → Option (BitVec 64) × BitVec 64
  | 0, s => (none,s)
  | n+1, s =>
    let (x,s) := randRange64 s lo hi
    if x ∈ holes then rejectHoles holes lo hi n s else (some x,s)

def kthValue (lo hi : BitVec 64) : List (BitVec 64) → BitVec 64 → BitVec 64 → BitVec 64
  | [], cur, k => cur+k
  | h :: hs, cur, k =>
    if h.slt lo then kthValue lo hi hs cur k
    else if hi.slt h then cur+k
    else if k < h-cur then cur+k
    else kthValue lo hi hs (h+1#64) (k-(h-cur))

def pickAvoidingHoles (holes : List (BitVec 64)) (candidate s lo hi : BitVec 64) :
    BitVec 64 × BitVec 64 :=
  if candidate ∉ holes then (candidate,s)
  else
    match rejectHoles holes lo hi 32 s with
    | (some x,s) => (x,s)
    | (none,s) =>
      let nTotal := hi-lo+1#64
      let nHoles := BitVec.ofNat 64 (holes.countP fun h => !h.slt lo && !hi.slt h)
      if nTotal ≤ nHoles then (lo,s)
      else
        let (x,s) := rand64 s
        (kthValue lo hi holes lo (x%(nTotal-nHoles)),s)

def aliasUnion (find : ℕ → ℕ) (x : ℕ × ℕ) : ℕ → ℕ :=
  let ra := find x.1
  let rb := find x.2
  if ra = rb then find
  else if ra < rb then fun i => if find i = rb then ra else find i
  else fun i => if find i = ra then rb else find i

/-- The variables as declared, those merged, the distributions, newest first, and what the
constraints say of the values. -/
structure Problem where
  nVars : ℕ
  vars : ℕ → Variable
  merged : List (ℕ × ℕ)
  dists : List Spec
  holds : (ℕ → BitVec 64) → Prop

namespace Problem

def resolve (p : Problem) : ℕ → ℕ := p.merged.foldl aliasUnion id

/-- `dist_offsets`: of the distributions of one merged variable the last read is kept. -/
def distOffsets (p : Problem) : ℕ → Option (List Entry) :=
  p.dists.foldl (fun t d => Function.update t (p.resolve d.varId) (some d.entries)) fun _ => none

structure Solves (p : Problem) (a : ℕ → BitVec 64) : Prop where
  domain : ∀ v < p.nVars, varBLt (p.vars v) (a v) (varLo64 (p.vars v)) = false ∧
    varBGt (p.vars v) (a v) (varHi64 (p.vars v)) = false
  holds : p.holds a

end Problem

end Dist
end DvSolve
