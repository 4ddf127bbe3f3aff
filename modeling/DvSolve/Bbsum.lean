import Mathlib.Data.Nat.Size
import DvSolve.BvKey
import DvSolve.OpenTable

/-! Word-level sum normalization of `dvs_bbsum.c`.
A remembered sum keeps its terms; an addition whose operand is one splices the
terms in, folds the constants and adds them in a canonical order. -/
namespace DvSolve
namespace Bbsum

open Aig Bitblast BvKey

def trunc (t : Bv) (w : ℕ) : Bv := if t.length ≤ w then t else strip (t.drop (t.length-w))

structure Bound where
  hi : ℕ
  lo : ℕ
  deriving DecidableEq, Repr

def satHi : ℕ := 2^62

def sat : Bound := ⟨satHi,0⟩

def isSat (b : Bound) : Bool := satHi ≤ b.hi

def fromU64 (v : ℕ) : Bound := ⟨0,v⟩

def halvesAdd (a b : Bound) : Bound :=
  let lo := (a.lo + b.lo) % 2^64
  ⟨a.hi + b.hi + if lo < a.lo then 1 else 0,lo⟩

def satAdd (a b : Bound) : Bound :=
  if isSat a || isSat b then sat
  else if isSat (halvesAdd a b) then sat else halvesAdd a b

def maxVal (t : Bv) : Bound :=
  if t.length ≤ 64 ∧ isConst t then fromU64 (constVal t)
  else if t.length ≥ 126 then sat
  else if t.length ≤ 64 then fromU64 (if t.length = 64 then 2^64 - 1 else 2^t.length - 1)
  else ⟨2^(t.length-64) - 1,2^64 - 1⟩

def bitlen (b : Bound) : ℕ := if b.hi ≠ 0 then 64 + b.hi.size else b.lo.size

def bitsFor (b : Bound) (w : ℕ) : ℕ :=
  if isSat b then w
  else
    let n := if bitlen b = 0 then 1 else bitlen b
    if n < w then n else w

def fits (b : Bound) (w : ℕ) : Bool := if isSat b then false else bitlen b ≤ w

def termCmp (a b : Bv) : Ordering :=
  if isConst a ≠ isConst b then (if isConst a then .gt else .lt)
  else litsCmp a.reverse b.reverse

/-- `bbsum_entry_t` without its key: the key is the sum of `terms` modulo
`2^width`, and equal to it when `exact`. -/
structure Entry where
  width : ℕ
  terms : List Bv
  exact : Bool
  single : Bool
  deriving DecidableEq, Repr

end Bbsum

structure Bbsum where
  table : OpenTable Bv Bbsum.Entry
  adds : ℕ
  flattened : ℕ
  work : ℕ
  off : Bool

namespace Bbsum

open Aig Bitblast BvKey

def new (off : Bool) : Bbsum := ⟨.empty,0,0,0,off⟩

def lookup (T : Bbsum) (key : Bv) : Option Entry :=
  if key.length = 0 then none else T.table.find hash key

def remember (T : Bbsum) (key : Bv) (e : Entry) : Bbsum :=
  if key.length = 0 ∨ (T.lookup key).isSome then T
  else { T with table := T.table.add hash key e }

def maxTerms : ℕ := 64

def zext (t : Bv) (w : ℕ) : Bv :=
  if t.length = 0 then bbValueU64 w 0
  else if t.length < w then bbZeroExt t (w-t.length) else t

def operandEntry (T : Bbsum) (w : ℕ) (op : Bv) : Option Entry :=
  match T.lookup op with
  | none => none
  | some e => if e.single && (e.exact || w ≤ e.width) then some e else none

def operandTerms (ent : Option Entry) (op : Bv) : List Bv :=
  match ent with
  | none => [op]
  | some e => e.terms

/-- One term of the flat sum: reduced modulo `2^w`, and folded into the running
constant when it is one of at most 64 bits. -/
def flattenTerm (w : ℕ) (s : List Bv × ℕ) (t : Bv) : List Bv × ℕ :=
  let t := trunc t w
  if t.length = 0 then s
  else if w ≤ 64 ∧ isConst t then (s.1,(s.2 + constVal t) % 2^64)
  else (s.1 ++ [t],s.2)

def hasRepeat : List Bv → Bool
  | s :: t :: ts => s = t || hasRepeat (t :: ts)
  | _ => false

def flatten (w : ℕ) (ts : List Bv) : List Bv × ℕ :=
  let (ts,cval) := ts.foldl (flattenTerm w) ([],0)
  (ts.mergeSort fun a b => (termCmp a b).isLE,cval)

def constTerm (w cval : ℕ) : List Bv :=
  if w ≤ 64 then
    let cval := if w < 64 then cval % 2^w else cval
    if cval ≠ 0 then [strip (bbValueU64 (bitsFor (fromU64 cval) 64) cval)] else []
  else []

/-- One addition of the flat sum on `(acc, bound, work)`; `acc` is `none` before
the first term. -/
def sumTerm (w : ℕ) (s : Option Bv × Bound × ℕ) (t : Bv) : Build (Option Bv × Bound × ℕ) := do
  let (acc,bound,work) := s
  let bound := satAdd bound (maxVal t)
  let wp := bitsFor bound w
  match acc with
  | none => pure (some (zext t wp),bound,work)
  | some acc =>
    let r ← bbAdd (zext acc wp) (zext t wp)
    pure (some r,bound,work+1)

/-- An addition as written, remembered with its two operands. -/
def addPlain (T : Bbsum) (a b : Bv) (single : Bool) : Build (Bv × Bbsum) := do
  let w := a.length
  let r ← bbAdd a b
  let bound := satAdd (maxVal (strip a)) (maxVal (strip b))
  pure (r,T.remember (strip r) ⟨w,[strip a,strip b],fits bound w,single⟩)

def result (w : ℕ) (acc : Option Bv) : Bv :=
  match acc with
  | none => bbValueU64 w 0
  | some acc => zext acc w

/-- The sum of `ts`, each partial sum as wide as its bound needs. -/
def addFlat (T : Bbsum) (w : ℕ) (ts : List Bv) (single : Bool) : Build (Bv × Bbsum) := do
  let (acc,bound,work) ← ts.foldlM (sumTerm w) (none,fromU64 0,T.work)
  let r := result w acc
  let T := { T with flattened := T.flattened+1, work := work }
  pure (r,T.remember (strip r) ⟨w,ts,fits bound w,single⟩)

def add (T : Bbsum) (a b : Bv) (single : Bool) : Build (Bv × Bbsum) := do
  if T.off then
    let r ← bbAdd a b
    pure (r,T)
  else
    let w := a.length
    let T := { T with adds := T.adds+1 }
    let ea := T.operandEntry w (strip a)
    let eb := T.operandEntry w (strip b)
    let ta := operandTerms ea (strip a)
    let tb := operandTerms eb (strip b)
    let splice := (ea.isSome || eb.isSome) &&
      !(ta.length + tb.length > maxTerms || T.work > 4 * T.adds + 4096)
    let flat := flatten w (ta ++ tb)
    if splice && !hasRepeat flat.1 then T.addFlat w (flat.1 ++ constTerm w flat.2) single
    else T.addPlain a b single

end Bbsum
end DvSolve
