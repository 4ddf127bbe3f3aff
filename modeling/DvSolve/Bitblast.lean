import DvSolve.Aig

/-! The bit-blaster of `dvs_bitblast.c`.
A vector is its list of literals, most significant bit first; a vector under
construction is a list whose entries are set in the order of the source. -/
namespace DvSolve

/-- `dvs_bv_t`: literals, index `0` the most significant. -/
abbrev Bv := List ℤ

namespace Bitblast

open Aig

def bits (v : Bv) (i : ℕ) : ℤ := v.getD i 0

def bbAlloc (n : ℕ) : Bv := List.replicate n 0

def forRange {σ : Type} (lo hi : ℕ) (s : σ) (body : ℕ → σ → Build σ) : Build σ :=
  (List.range' lo (hi-lo)).foldlM (fun s i => body i s) s

def bbValueU64 (size value : ℕ) : Bv :=
  (List.range size).map fun i =>
    let bit := size-1-i
    let v := if bit < 64 then value >>> bit &&& 1 else 0
    if v ≠ 0 then aigTrue else aigFalse

def bbNot (a : Bv) : Bv := a.map (- ·)

/-- A vector built entry by entry from two others, from index `0` on. -/
def bbZip (op : ℤ → ℤ → Build ℤ) (a b : Bv) : Build Bv :=
  forRange 0 a.length (bbAlloc a.length) fun i r => do
    let x ← op (bits a i) (bits b i)
    pure (r.set i x)

def bbAnd (a b : Bv) : Build Bv := bbZip mkAnd a b
def bbOr (a b : Bv) : Build Bv := bbZip mkOr a b
def bbXor (a b : Bv) : Build Bv := bbZip mkXor a b

def bbEq (a b : Bv) : Build Bv := do
  let res ← mkIff (bits a 0) (bits b 0)
  let res ← forRange 1 a.length res fun i res => do
    let x ← mkIff (bits a i) (bits b i)
    mkAnd res x
  pure [res]

def bbExtract (a : Bv) (upper lower : ℕ) : Bv :=
  (a.drop (a.length-1-upper)).take (upper-lower+1)

def ultHelper (a b : Bv) : Build ℤ := do
  let lsb := a.length-1
  let res ← mkAnd (-bits a lsb) (bits b lsb)
  forRange 1 a.length res fun i res => do
    let j := a.length-1-i
    let lt ← mkAnd (-bits a j) (bits b j)
    let gt ← mkAnd (bits a j) (-bits b j)
    let carry ← mkAnd (-gt) res
    mkOr lt carry

def bbUlt (a b : Bv) : Build Bv := do
  let res ← ultHelper a b
  pure [res]

def bbSlt (a b : Bv) : Build Bv := do
  let aSign := bits a 0
  let bSign := bits b 0
  let strictNeg ← mkAnd aSign (-bSign)
  if a.length = 1 then pure [strictNeg]
  else
    let ult ← ultHelper (bbExtract a (a.length-2) 0) (bbExtract b (b.length-2) 0)
    let strictPos ← mkAnd (-aSign) bSign
    let eqSign ← mkAnd (-strictNeg) (-strictPos)
    let x ← mkAnd eqSign ult
    let res ← mkOr strictNeg x
    pure [res]

def halfAdder (a b : ℤ) : Build (ℤ × ℤ) := do
  let aAndB ← mkAnd a b
  let aOrB ← mkOr a b
  let sum ← mkAnd (-aAndB) aOrB
  pure (sum,aAndB)

def fullAdder (a b cin : ℤ) : Build (ℤ × ℤ) := do
  let (s1,c1) ← halfAdder a b
  let (s2,c2) ← halfAdder s1 cin
  let cout ← mkOr c1 c2
  pure (s2,cout)

def bbAdd (a b : Bv) : Build Bv := do
  let size := a.length
  let (s,cout) ← halfAdder (bits a (size-1)) (bits b (size-1))
  let (r,_) ← forRange 1 size ((bbAlloc size).set (size-1) s,cout) fun i (r,cout) => do
    let j := size-1-i
    let (s,cout) ← fullAdder (bits a j) (bits b j) cout
    pure (r.set j s,cout)
  pure r

def bbNeg (a : Bv) : Build Bv :=
  bbAdd (bbNot a) (bbValueU64 a.length 1)

def bbSub (a b : Bv) : Build Bv := do
  let nb ← bbNeg b
  bbAdd a nb

/-- Inner loop of `dvs_bb_mul` on `(r, cout, ir, ia)`. The indices are integers:
where the source's `uint32_t` wraps below `0` they are not read again. Its `break`
at `ir == 0` falls on the last column. -/
def mulColumn (a : Bv) (bBit : ℤ) (s : Bv × ℤ × ℤ × ℤ) : Build (Bv × ℤ × ℤ × ℤ) := do
  let (r,cout,ir,ia) := s
  if bits a ia.toNat = aigFalse ∧ cout = aigFalse then pure (r,cout,ir-1,ia-1)
  else
    let p ← mkAnd (bits a ia.toNat) bBit
    let (sum,cout) ← fullAdder (bits r ir.toNat) p cout
    pure (r.set ir.toNat sum,cout,ir-1,ia-1)

/-- One multiplier bit: add the multiplicand, shifted to its column, to `r`. -/
def mulRow (a b : Bv) (i : ℕ) (r : Bv) : Build Bv := do
  let size := a.length
  let ib := size-1-i
  let bBit := bits b ib
  if bBit = aigFalse then pure r
  else
    let p ← mkAnd (bits a (size-1)) bBit
    let (s,cout) ← halfAdder (bits r ib) p
    let (r,_) ← forRange 1 (ib+1) (r.set ib s,cout,(ib : ℤ)-1,(size : ℤ)-2)
      fun _ s => mulColumn a bBit s
    pure r

def bbMul (a b : Bv) : Build Bv := do
  let size := a.length
  let r ← forRange 0 size (bbAlloc size) fun i r => do
    let x ← mkAnd (bits a i) (bits b (size-1))
    pure (r.set i x)
  forRange 1 size r fun i r => mulRow a b i r

/-- `while (v < n) { v <<= 1; r++; }`, for at most `k` rounds. -/
def ceilLog2Loop (n : ℕ) : ℕ → ℕ → ℕ → ℕ
  | 0, _, r => r
  | k+1, v, r => if v < n then ceilLog2Loop n k (v <<< 1) (r+1) else r

/-- `v` doubles from `1`, so it reaches `n` within `n` rounds. -/
def ceilLog2 (n : ℕ) : ℕ := ceilLog2Loop n n 1 0

def shiftSize (b : Bv) : ℕ := min (ceilLog2 b.length) b.length

def bbIte (cond : ℤ) (a b : Bv) : Build Bv :=
  forRange 0 a.length (bbAlloc a.length) fun i r => do
    let x ← mkIte cond (bits a i) (bits b i)
    pure (r.set i x)

def shlStage (size : ℕ) (b : Bv) (i : ℕ) (work : Bv) : Build Bv := do
  let shiftStep := 1 <<< i
  let shiftBit := bits b (b.length-1-i)
  let work ← forRange 0 (size-shiftStep) work fun j work => do
    let x ← mkIte shiftBit (bits work (j+shiftStep)) (bits work j)
    pure (work.set j x)
  forRange (size-shiftStep) size work fun j work => do
    let x ← mkAnd (-shiftBit) (bits work j)
    pure (work.set j x)

/-- The entries of a right shift that are read from `work`, written from the
bottom up: `k` is `size-1-j`. -/
def shrMove (size : ℕ) (shiftBit : ℤ) (shiftStep : ℕ) (work : Bv) : Build Bv :=
  forRange 0 (size-shiftStep) work fun j work => do
    let k := size-1-j
    let x ← mkIte shiftBit (bits work (k-shiftStep)) (bits work k)
    pure (work.set k x)

def shrStage (size : ℕ) (b : Bv) (i : ℕ) (work : Bv) : Build Bv := do
  let shiftStep := 1 <<< i
  let shiftBit := bits b (b.length-1-i)
  let work ← shrMove size shiftBit shiftStep work
  forRange 0 shiftStep work fun j work => do
    let x ← mkAnd (-shiftBit) (bits work j)
    pure (work.set j x)

def ashrStage (size : ℕ) (b : Bv) (i : ℕ) (work : Bv) : Build Bv := do
  let shiftStep := 1 <<< i
  let shiftBit := bits b (b.length-1-i)
  let work ← shrMove size shiftBit shiftStep work
  forRange 0 shiftStep work fun j work => do
    let x ← mkIte shiftBit (bits work 0) (bits work j)
    pure (work.set j x)

def doShlOrShr (a b : Bv) (isShl : Bool) : Build Bv := do
  let size := a.length
  if size = 1 then
    let l ← mkAnd (bits a 0) (-bits b 0)
    pure [l]
  else
    let work ← forRange 0 (shiftSize b) a fun i work =>
      if isShl then shlStage size b i work else shrStage size b i work
    let sizeConst := bbValueU64 b.length size
    let inRange ← ultHelper b sizeConst
    let zero := bbValueU64 size 0
    bbIte inRange work zero

def bbShl (a b : Bv) : Build Bv := doShlOrShr a b true

def bbShr (a b : Bv) : Build Bv := doShlOrShr a b false

def bbAshr (a b : Bv) : Build Bv := do
  let size := a.length
  if size = 1 then pure a
  else
    let work ← forRange 0 (shiftSize b) a fun i work => ashrStage size b i work
    let sizeConst := bbValueU64 b.length size
    let inRange ← ultHelper b sizeConst
    forRange 0 size work fun i work => do
      let x ← mkIte inRange (bits work i) (bits a 0)
      pure (work.set i x)

def faDivCarry (r d c : ℤ) : Build ℤ := do
  let x ← mkOr d c
  let y ← mkAnd x r
  let z ← mkAnd d c
  mkOr y z

def faDivSum (r d c q : ℤ) : Build ℤ := do
  let dc ← mkXor d c
  let dq ← mkAnd dc q
  mkXor dq r

def divCarries (size : ℕ) (rem d : List ℤ) : Build (List ℤ) :=
  forRange 0 size ((List.replicate (size+1) 0).set 0 aigTrue) fun j carry => do
    let c ← faDivCarry (bits rem j) (bits d j) (bits carry j)
    pure (carry.set (j+1) c)

/-- The next partial remainder, stored one slot up; `prevR` is the entry about to
be overwritten. -/
def divRemainder (size : ℕ) (rem d carry : List ℤ) : Build (List ℤ) := do
  let qi := bits carry size
  let (rem,_) ← forRange 0 size (rem,bits rem 0) fun j (rem,prevR) => do
    let tmp ← faDivSum prevR (bits d j) (bits carry j) qi
    pure (rem.set (j+1) tmp,bits rem (j+1))
  pure rem

def divRound (a : Bv) (d : List ℤ) (i : ℕ) (s : List ℤ × Bv) : Build (List ℤ × Bv) := do
  let size := a.length
  let rem := s.1.set 0 (bits a i)
  let carry ← divCarries size rem d
  let q := s.2.set i (bits carry size)
  let rem ← divRemainder size rem d carry
  pure (rem,q)

def udivUremHelper (a b : Bv) : Build (Bv × Bv) := do
  let size := a.length
  let d := (List.range size).map fun i => -bits b (size-1-i)
  let (rem,q) ← forRange 0 size (List.replicate (size+1) aigFalse,bbAlloc size)
    fun i s => divRound a d i s
  pure (q,(List.range size).map fun i => bits rem (size-i))

def bbUdiv (a b : Bv) : Build Bv := do
  let (q,_) ← udivUremHelper a b
  pure q

def bbUrem (a b : Bv) : Build Bv := do
  let (_,r) ← udivUremHelper a b
  pure r

def bbZeroExt (a : Bv) (n : ℕ) : Bv := List.replicate n aigFalse ++ a

end Bitblast
end DvSolve
