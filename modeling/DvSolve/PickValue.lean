import DvSolve.ClauseNotify
import DvSolve.Dist
import DvSolve.MulCount

/-! Value selection: `_pick_value` of `dvs_search.c` and the choices it is made of. -/
namespace DvSolve
namespace Pick

open Solver

structure ModLink where
  a : ℕ
  r : ℕ
  b : BitVec 64

inductive Keep
  | none
  | set
  | dead
  deriving DecidableEq

structure Opts where
  seed : ℕ
  usePhaseSave : Bool
  seqPick : Bool

/-- What value selection reads and changes of a context: `varAlias` names a merged variable's
representative, `varNValues` is 0 where nothing is known, `wpickOn` is `_wpick_enabled`. -/
structure PickCtx where
  engine : Engine
  rngState : BitVec 64
  holes : ℕ → List (BitVec 64)
  distOffsets : ℕ → Option (List Dist.Entry)
  phaseSave : Option (ℕ → BitVec 64)
  keepOn : Bool
  keepCap : ℕ
  keepState : ℕ → Keep
  keepVal : ℕ → BitVec 64
  fairPick : Bool
  wpickOn : Bool
  wpickLeft : ℕ
  maxDepth : ℕ
  varAlias : ℕ → ℕ
  nDeclVars : ℕ
  varOrder : Option (ℕ → ℕ)
  boxSkip : ℕ → Bool
  decTier : ℕ → ℕ
  varNValues : ℕ → BitVec 64
  eqGrp : List (List ℕ)
  modLinks : List ModLink
  mulLinks : List MulCount.MulLink
  extMemo : List MulCount.ExtMemo
  divisors : Numth.Divisors

namespace PickCtx

def vars (p : PickCtx) : ℕ → Variable := p.engine.ctx.vars

def isHole (p : PickCtx) (id : ℕ) (value : BitVec 64) : Bool :=
  MulCount.scanHoles value (p.holes id)

def valueSrc (p : PickCtx) (id : ℕ) : ℕ := MulCount.valueSrcFrom p.extMemo 8 id

def orderKey (p : PickCtx) (id : ℕ) : ℕ :=
  match p.varOrder with
  | none => 256
  | some o => if id ≥ p.nDeclVars then 256 else if o id ≠ 0 then o id else 256

def isDefined (p : PickCtx) (id : ℕ) : Bool := p.boxSkip id && p.orderKey id == 256

def domSize (p : PickCtx) (id : ℕ) (lo hi : BitVec 64) : BitVec 64 :=
  if p.varNValues id ≠ 0#64 ∧ p.varNValues id-1#64 < hi-lo then p.varNValues id-1#64 else hi-lo

end PickCtx

def aliasRoot (next : ℕ → ℕ) : ℕ → ℕ → ℕ
  | 0, i => i
  | n+1, i => if next i = i then i else aliasRoot next n (next i)

/-- `v` with the remainder `t`, one `b` further down or up where that leaves the domain, or
`v` itself. -/
def alignTo (v b lo hi t : BitVec 64) : BitVec 64 :=
  let rem := v%b
  let c := v-rem+t
  let c := if c > hi ∨ c < v-rem then c-b else c
  let c := if c < lo then c+b else c
  if lo ≤ c ∧ c ≤ hi then c else v

/-- One link of `_pick_mod_aligned`: the value drawn and the state of the generator. -/
def pickModLink (p : PickCtx) (x : ℕ) (lo hi : BitVec 64) (vs : BitVec 64 × BitVec 64)
    (ml : ModLink) : BitVec 64 × BitVec 64 :=
  let (v,s) := vs
  let n := p.engine.ctx.nVars
  if aliasRoot p.varAlias n ml.a ≠ x then (v,s)
  else
    let rv := p.vars (aliasRoot p.varAlias n ml.r)
    let rlo := varLo64 rv
    let rhi := if varHi64 rv > ml.b-1#64 then ml.b-1#64 else varHi64 rv
    if rlo > rhi ∨ (rlo = 0#64 ∧ rhi = ml.b-1#64) then (v,s)
    else
      let rem := v%ml.b
      if rlo ≤ rem ∧ rem ≤ rhi then (v,s)
      else
        let (r,s) := Dist.rand64 s
        (alignTo v ml.b lo hi (rlo+r%(rhi-rlo+1#64)),s)

def pickModAligned (p : PickCtx) (x : ℕ) (v lo hi s : BitVec 64) : BitVec 64 × BitVec 64 :=
  if (p.vars x).signed then (v,s) else p.modLinks.foldl (pickModLink p x lo hi) (v,s)

/-- `[L,U]`: what `[ylo,yhi]` leaves of `[lo,hi]` for the other operand of a product `K`. -/
def cofactors (K ylo yhi lo hi : ℕ) : ℕ × ℕ :=
  let L := K/yhi + if K % yhi ≠ 0 then 1 else 0
  let U := if ylo ≠ 0 then K/ylo else hi
  (if L < lo then lo else L,if U > hi then hi else U)

/-- The divisors that one side of a link leaves for `x`, `none` where it leaves the draw to
the next; the outer `none` when the factorization needs more than `bound` rounds. -/
def mulSide (p : PickCtx) (bound x : ℕ) (lo hi : BitVec 64) (ds : Numth.Divisors)
    (ml : MulCount.MulLink) (side : Bool) : Option (Numth.Divisors × Option (List ℕ)) :=
  let y := if side then ml.a else ml.b
  let x' := if side then ml.b else ml.a
  let rv := p.vars ml.r
  let yv := p.vars y
  if ml.a = ml.b ∨ (x' ≠ x ∧ p.valueSrc x' ≠ x) then some (ds,none)
  else if rv.signed ∨ yv.signed ∨ (p.vars x').signed then some (ds,none)
  else
    let K := (varLo64 rv).toNat
    let ylo := (varLo64 yv).toNat
    let yhi := (varHi64 yv).toNat
    let mask := if ml.width ≥ 64 then 2^64-1 else 2^ml.width-1
    if K = 0 ∨ (varHi64 rv).toNat ≠ K ∨ ylo = yhi ∨ yhi = 0 then some (ds,none)
    else if hi.toNat ≠ 0 ∧ yhi > mask/hi.toNat then some (ds,none)
    else
      let (L,U) := cofactors K ylo yhi lo.toNat hi.toNat
      if L > U then some (ds,none)
      else
        (Numth.dvsDivisors bound ds K (2^17)).map fun (d,k) =>
          if k = 0 then (d,none)
          else
            let divs := (d.divs.take (Numth.divisorsUpper d U)).drop (Numth.divisorsLower d L)
            (d,if divs.length = 0 then none else some divs)

def mulSides (p : PickCtx) (bound x : ℕ) (lo hi : BitVec 64) :
    List (MulCount.MulLink × Bool) → Numth.Divisors → Option (Numth.Divisors × Option (List ℕ))
  | [], ds => some (ds,none)
  | ml :: rest, ds =>
    match mulSide p bound x lo hi ds ml.1 ml.2 with
    | none => none
    | some (ds,some divs) => some (ds,some divs)
    | some (ds,none) => mulSides p bound x lo hi rest ds

def drawDivisor (holes : BitVec 64 → Bool) (divs : List ℕ) (v : BitVec 64) :
    ℕ → BitVec 64 → BitVec 64 × BitVec 64
  | 0, s => (v,s)
  | attempt+1, s =>
    let (r,s) := Dist.rand64 s
    let d := BitVec.ofNat 64 (divs.getD (r.toNat % divs.length) 0)
    if holes d then drawDivisor holes divs v attempt s else (d,s)

def pickMulDivisor (p : PickCtx) (bound x : ℕ) (v lo hi s : BitVec 64) :
    Option (BitVec 64 × BitVec 64 × Numth.Divisors) :=
  if (p.vars x).signed then some (v,s,p.divisors)
  else
    (mulSides p bound x lo hi (p.mulLinks.flatMap fun ml => [(ml,false),(ml,true)])
      p.divisors).map fun (ds,divs) =>
      match divs with
      | none => (v,s,ds)
      | some divs =>
        let (v,s) := drawDivisor (p.isHole x) divs v 8 s
        (v,s,ds)

/-- The arithmetic on doubles that the weights use, a double counted in units of the least
positive one; how it rounds is left open. -/
structure Doubles where
  one : ℕ
  ofSize : BitVec 64 → ℕ
  ofDraw : BitVec 64 → ℕ
  add : ℕ → ℕ → ℕ
  sub : ℕ → ℕ → ℕ
  mul : ℕ → ℕ → ℕ
  div : ℕ → ℕ → ℕ
  big : ℕ → Bool
  scale : ℕ → ℕ

structure WBox where
  m : ℕ
  e : ℕ

def counted (p : PickCtx) (id : ℕ) : Bool :=
  !(p.vars id).aux && p.varAlias id == id && !p.isDefined id

def groupOpen (D : Doubles) (p : PickCtx) (vars : ℕ → Variable) (n : ℕ) :
    List ℕ → List ℕ → ℕ × ℕ → ℕ × ℕ
  | _, [], r => r
  | seen, id :: ids, (nOpen,widest) =>
    let i := p.varAlias id
    let lo := varLo64 (vars i)
    let hi := varHi64 (vars i)
    if i ≥ n ∨ (vars i).aux ∨ p.isDefined i ∨ lo = hi ∨ i ∈ seen then
      groupOpen D p vars n (i :: seen) ids (nOpen,widest)
    else
      let d := D.ofSize (p.domSize i lo hi)
      groupOpen D p vars n (i :: seen) ids (nOpen+1,if d > widest then d else widest)

def wpickBox (D : Doubles) (p : PickCtx) (vars : ℕ → Variable) : WBox :=
  let n := min p.nDeclVars p.engine.ctx.nVars
  let b := (List.range n).foldl (fun (b : WBox) i =>
    let lo := varLo64 (vars i)
    let hi := varHi64 (vars i)
    if !counted p i || lo = hi then b
    else
      let m := D.mul b.m (D.ofSize (p.domSize i lo hi))
      if D.big m then ⟨D.scale m,b.e+1⟩ else ⟨m,b.e⟩) ⟨D.one,0⟩
  p.eqGrp.foldl (fun (b : WBox) g =>
    let (nOpen,widest) := groupOpen D p vars n [] g (0,0)
    if nOpen ≥ 2 then ⟨D.div b.m widest,b.e⟩ else b) b

def wpickInProduct (p : PickCtx) (x : ℕ) : Bool :=
  p.decTier x = 2 || p.mulLinks.any fun ml =>
    let xa := ml.a = x || p.valueSrc ml.a = x
    let xb := ml.b = x || p.valueSrc ml.b = x
    let o := p.vars (if xa then ml.b else ml.a)
    (xa || xb) && (ml.a = ml.b || varLo64 o ≠ varHi64 o)

def wpickBuckets : ℕ := 16

def nBuckets (span : BitVec 64) : ℕ :=
  if span.toNat < wpickBuckets-1 then span.toNat+1 else wpickBuckets

def bucket (lo span : BitVec 64) (k : ℕ) : BitVec 64 × BitVec 64 :=
  let nb := BitVec.ofNat 64 (nBuckets span)
  let q := span/nb
  let r1 := span%nb+1#64
  let k' := BitVec.ofNat 64 k
  let o0 := k'*q+k'*r1/nb
  let o1 := if k+1 = nBuckets span then span else (k'+1#64)*q+(k'+1#64)*r1/nb-1#64
  (lo+o0,lo+o1)

structure Probe where
  lo : BitVec 64
  hi : BitVec 64
  box : WBox

structure Limits where
  overBudget : Engine → Bool
  rounds : ℕ
  bound : ℕ

def tryBucket (lim : Limits) (s : Engine) (x : ℕ) (b : BitVec 64 × BitVec 64) :
    Option (PropResult × Engine) :=
  let s := { s with ctx := trailPushLevel s.ctx, conflictProp := none, conflictClause := none }
  match ctxTightenNotify lim.rounds s .lb64 x b.1 with
  | none => none
  | some (.ok,s) =>
    match ctxTightenNotify lim.rounds s .ub64 x b.2 with
    | none => none
    | some (.ok,s) => dvsSolverPropagate lim.overBudget lim.rounds s
    | some (pr,s) => some (pr,s)
  | some (pr,s) => some (pr,s)

def probeBucket (D : Doubles) (lim : Limits) (p : PickCtx) (s : Engine) (x : ℕ)
    (b : BitVec 64 × BitVec 64) : Option (Option Probe × Engine) :=
  match tryBucket lim s x b with
  | none => none
  | some (pr,t) =>
    let xv := t.ctx.vars x
    let got := if pr = .ok ∧ !t.aborted then
      some ⟨varLo64 xv,varHi64 xv,wpickBox D p t.ctx.vars⟩ else none
    (trailBacktrack t.ctx s.ctx.decisionLevel).map fun c => (got,{ t with ctx := c })

def probeBuckets (D : Doubles) (lim : Limits) (p : PickCtx) (x : ℕ) (lo span : BitVec 64) :
    List ℕ → Engine → Option (List (Option Probe) × Engine)
  | [], s => some ([],s)
  | k :: ks, s =>
    match probeBucket D lim p s x (bucket lo span k) with
    | none => none
    | some (got,s) =>
      if s.aborted then some ([got],s)
      else (probeBuckets D lim p x lo span ks s).map fun r => (got :: r.1,r.2)

def maxExp (probes : List (Option Probe)) : ℕ :=
  (probes.filterMap id).foldl (fun e b => if b.box.e > e then b.box.e else e) 0

def scaleDown (D : Doubles) : ℕ → ℕ → ℕ
  | 0, w => w
  | d+1, w => if w > 0 then scaleDown D d (D.scale w) else w

def weightOf (D : Doubles) (emax : ℕ) : Option Probe → ℕ
  | none => 0
  | some b => scaleDown D (emax-b.box.e) b.box.m

def fallInto (D : Doubles) : List ℕ → ℕ → ℕ → ℕ
  | w :: w' :: ws, u, k => if u ≥ w then fallInto D (w' :: ws) (D.sub u w) (k+1) else k
  | _, _, k => k

/-- Back to the last bucket with a weight; `none` where the loop runs below the first. -/
def backToWeight (wt : List ℕ) : ℕ → Option ℕ
  | 0 => if wt.getD 0 0 = 0 then none else some 0
  | k+1 => if wt.getD (k+1) 0 = 0 then backToWeight wt k else some (k+1)

def otherOpen (p : PickCtx) (x : ℕ) : Bool :=
  (List.range (min p.nDeclVars p.engine.ctx.nVars)).any fun i =>
    i ≠ x && counted p i && varLo64 (p.vars i) ≠ varHi64 (p.vars i)

def pickValueWeighted (D : Doubles) (lim : Limits) (p : PickCtx) (x : ℕ) (lo hi : BitVec 64) :
    Option (Option (BitVec 64) × PickCtx) :=
  let span := hi-lo
  let nb := nBuckets span
  if nb < 2 ∨ p.wpickLeft < nb ∨ p.engine.ctx.decisionLevel+1 ≥ p.maxDepth then some (none,p)
  else if p.orderKey x ≠ 256 then some (none,p)
  else if !otherOpen p x then some (none,p)
  else
    let p := { p with wpickLeft := p.wpickLeft-nb }
    match probeBuckets D lim p x lo span (List.range nb) p.engine with
    | none => none
    | some (probes,s) =>
      let s := { s with conflictProp := none, conflictClause := none }
      let p := { p with engine := s }
      if s.aborted || probes.all Option.isNone then some (none,p)
      else
        let wt := probes.map (weightOf D (maxExp probes))
        let tot := wt.foldl D.add 0
        let (r,rng) := Dist.rand64 p.rngState
        match backToWeight wt (fallInto D wt (D.mul (D.ofDraw (r >>> 11)) tot) 0) with
        | none => none
        | some k =>
          match (probes.getD k none) with
          | none => none
          | some b =>
            let (v,rng) := Dist.randRange64 rng b.lo b.hi
            let (v,rng) := Dist.pickAvoidingHoles (p.holes x) v rng b.lo b.hi
            some (some v,{ p with rngState := rng })

def stillFits (p : PickCtx) (x : ℕ) (v : BitVec 64) : Bool :=
  let xv := p.vars x
  !varBLt xv v (varLo64 xv) && !varBGt xv v (varHi64 xv) && !p.isHole x v

def savedPhase (p : PickCtx) (opts : Option Opts) (x : ℕ) : Option (BitVec 64) :=
  match opts, p.phaseSave with
  | some o, some saved =>
    if o.usePhaseSave ∧ o.seed = 0 ∧ stillFits p x (saved x) then some (saved x) else none
  | _, _ => none

def keptDraw (p : PickCtx) (x : ℕ) : Option (BitVec 64) :=
  if p.keepOn ∧ x < p.keepCap ∧ p.keepState x = .set ∧ stillFits p x (p.keepVal x) then
    some (p.keepVal x)
  else none

def weighs (p : PickCtx) (opts : Option Opts) (x : ℕ) : Bool :=
  match opts with
  | none => false
  | some o => o.seed ≠ 0 && p.fairPick && !o.seqPick && !wpickInProduct p x && !(p.vars x).aux &&
      p.wpickOn

def drawUniform (lim : Limits) (p : PickCtx) (x : ℕ) (lo hi : BitVec 64) :
    Option (BitVec 64 × PickCtx) :=
  let (v,rng) := Dist.randRange64 p.rngState lo hi
  let (v,rng) := pickModAligned p x v lo hi rng
  (pickMulDivisor p lim.bound x v lo hi rng).map fun (v,rng,ds) =>
    (v,{ p with rngState := rng, divisors := ds })

def drawValue (D : Doubles) (lim : Limits) (p : PickCtx) (opts : Option Opts) (x : ℕ)
    (lo hi : BitVec 64) : Option (BitVec 64 × PickCtx) :=
  match p.distOffsets x with
  | some es =>
    let (v,rng) := Dist.pickValueDist (p.vars x) es p.rngState lo hi
    some (v,{ p with rngState := rng })
  | none =>
    if weighs p opts x then
      match pickValueWeighted D lim p x lo hi with
      | none => none
      | some (some v,p) => some (v,p)
      | some (none,p) => drawUniform lim p x lo hi
    else drawUniform lim p x lo hi

/-- `_pick_value`; `none` where propagation or factorization needs more than its rounds, or
the weights are all zero. -/
def pickValue (D : Doubles) (lim : Limits) (p : PickCtx) (opts : Option Opts) (x : ℕ) :
    Option (BitVec 64 × PickCtx) :=
  let lo := varLo64 (p.vars x)
  let hi := varHi64 (p.vars x)
  match savedPhase p opts x with
  | some v => some (v,p)
  | none =>
    match keptDraw p x with
    | some v => some (v,p)
    | none =>
      (drawValue D lim p opts x lo hi).map fun (v,p) =>
        let (v,rng) := Dist.pickAvoidingHoles (p.holes x) v p.rngState lo hi
        let p := { p with rngState := rng }
        if p.keepOn ∧ x < p.keepCap ∧ p.keepState x = .none then
          (v,{ p with
            keepState := Function.update p.keepState x .set
            keepVal := Function.update p.keepVal x v })
        else (v,p)

end Pick
end DvSolve
