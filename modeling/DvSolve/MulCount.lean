import DvSolve.FireSem
import DvSolve.Numth

/-! The number of solutions left below a decision: `_mul_leftover_count` of
`dvs_search.c`. -/
namespace DvSolve
namespace MulCount

open Solver

structure MulLink where
  r : ℕ
  a : ℕ
  b : ℕ
  prop : ℕ
  width : ℕ

structure ExtMemo where
  src : ℕ
  r : ℕ

/-- The kinds of propagator that are told apart. A relation is what a propagator states of
the numbers of its variables; the code does not read it. -/
inductive PropKind
  | boundsEq (x y : ℕ)
  | bvmul (r a b width : ℕ)
  | diffcycle (rel : (ℕ → ℤ) → Prop)
  | other (rel : (ℕ → ℤ) → Prop)

structure PropEntry where
  kind : PropKind
  watched : List ℕ
  guard : Option ℕ

structure CountCtx where
  vars : ℕ → Variable
  nVars : ℕ
  varAlias : ℕ → ℕ
  holes : ℕ → List (BitVec 64)
  mulLinks : List MulLink
  extMemo : List ExtMemo
  props : List PropEntry
  divisors : Numth.Divisors

def valueSrcFrom (memo : List ExtMemo) : ℕ → ℕ → ℕ
  | 0, id => id
  | hop+1, id =>
    match memo.find? (fun m => m.r = id) with
    | none => id
    | some m => valueSrcFrom memo hop m.src

def valueSrc (s : CountCtx) (id : ℕ) : ℕ := valueSrcFrom s.extMemo 8 id

def scanHoles (value : BitVec 64) : List (BitVec 64) → Bool
  | [] => false
  | h :: hs => if h = value then true else if value.slt h then false else scanHoles value hs

def isHole (s : CountCtx) (id : ℕ) (value : BitVec 64) : Bool := scanHoles value (s.holes id)

def isFixed (s : CountCtx) (id : ℕ) : Bool := varLo64 (s.vars id) = varHi64 (s.vars id)

def findProduct (s : CountCtx) : List MulLink → Option MulLink → Option (Option MulLink)
  | [], ml => some ml
  | m :: ms, ml =>
    if m.a = m.b ∨ !isFixed s m.r ∨ isFixed s m.a ∨ isFixed s m.b then findProduct s ms ml
    else if ml.isSome then none
    else findProduct s ms (some m)

def PropEntry.prunesNothing (p : PropEntry) : Bool :=
  match p.kind with
  | .boundsEq .. | .diffcycle _ => true
  | _ => false

def onlyCopies (s : CountCtx) (sa sb : ℕ) : Bool :=
  (List.range s.nVars).all fun i =>
    s.varAlias i ≠ i || isFixed s i || valueSrc s i = sa || valueSrc s i = sb

def onlyProduct (s : CountCtx) (prop : ℕ) : Bool :=
  s.props.zipIdx.all fun pi =>
    pi.2 = prop || pi.1.watched.all (isFixed s ·) || pi.1.prunesNothing

def countPairs (s : CountCtx) (ml : MulLink) (sa sb : ℕ) (bound : ℕ) :
    Option (Numth.Divisors × ℕ) :=
  let rv := s.vars ml.r
  let av := s.vars ml.a
  let bv := s.vars ml.b
  if rv.signed ∨ av.signed ∨ bv.signed then some (s.divisors,0)
  else
    let K := (varLo64 rv).toNat
    let alo := (varLo64 av).toNat
    let ahi := (varHi64 av).toNat
    let blo := (varLo64 bv).toNat
    let bhi := (varHi64 bv).toNat
    let mask := if ml.width ≥ 64 then 2^64-1 else 2^ml.width-1
    if K = 0 ∨ bhi = 0 ∨ (ahi ≠ 0 ∧ bhi > mask/ahi) then some (s.divisors,0)
    else
      let L := K/bhi + if K % bhi ≠ 0 then 1 else 0
      let U := if blo ≠ 0 then K/blo else ahi
      let L := if L < alo then alo else L
      let U := if U > ahi then ahi else U
      if L > U then some (s.divisors,0)
      else
        (Numth.dvsDivisors bound s.divisors K (2^17)).map fun (d,k) =>
          if k = 0 then (d,0)
          else
            (d,((d.divs.take (Numth.divisorsUpper d U)).drop (Numth.divisorsLower d L)).countP
              fun x =>
                let x' := BitVec.ofNat 64 x
                let y' := BitVec.ofNat 64 (K/x)
                !isHole s ml.a x' && !isHole s sa x' && !isHole s ml.b y' && !isHole s sb y')

/-- `_mul_leftover_count`; `none` when the factorization needs more than `bound` rounds. -/
def mulLeftoverCount (s : CountCtx) (bound : ℕ) : Option (Numth.Divisors × ℕ) :=
  match findProduct s s.mulLinks none with
  | none => some (s.divisors,0)
  | some none =>
    if (List.range s.nVars).all fun i => s.varAlias i ≠ i || isFixed s i then some (s.divisors,1)
    else some (s.divisors,0)
  | some (some ml) =>
    let sa := valueSrc s ml.a
    let sb := valueSrc s ml.b
    if sa = sb then some (s.divisors,0)
    else if !onlyCopies s sa sb then some (s.divisors,0)
    else if !onlyProduct s ml.prop then some (s.divisors,0)
    else countPairs s ml sa sb bound

end MulCount
end DvSolve
