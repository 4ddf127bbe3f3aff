import DvSolve.NodePool
import DvSolve.SvExpr

/-! Field decomposition (`dvs_sv.c`).
A word is split at the ends of its extracts into field variables; an extract becomes the
variable of its bits, a field or a hidden word over several. -/
namespace DvSolve
namespace Fields

open Sv TwosComp

def fdMaxSegs : ℕ := 16

def fdMaxWords : ℕ := 64

def fdMinWidth : ℕ := 0

abbrev Ref := ℕ

/-- `ExprKind` with the fields of each node. The kinds the split does not go into are one
constructor. -/
inductive Node
  | const (value : ℤ) (width : ℕ) (isSigned : Bool)
  | var (varId : ℕ)
  | binary (op : BinOp) (lhs rhs : Ref)
  | unary (op : UnOp) (operand : Ref)
  | ite (cond thenE elseE : Ref)
  | inRange (value lo hi : Ref)
  | inSet (value : Ref) (elems : List Ref)
  | inRanges (value : Ref) (bounds : List Ref)
  | extend (operand : Ref) (fromBits toBits : ℕ) (signExtend : Bool)
  | svCast (operand : Ref) (fromBits toBits : ℕ) (signExtend dstSigned : Bool)
  | extract (operand : Ref) (hiBit loBit : ℕ)
  | concat (hi lo : Ref) (loWidth : ℕ)
  | other (kind : ℕ) (varIds : List ℕ) (refs : List Ref)
  deriving DecidableEq

namespace Node

def refs : Node → List Ref
  | .const _ _ _ => []
  | .var _ => []
  | .binary _ l r => [l,r]
  | .unary _ x => [x]
  | .ite c t e => [c,t,e]
  | .inRange v lo hi => [v,lo,hi]
  | .inSet v elems => v :: elems
  | .inRanges v bounds => v :: bounds
  | .extend x _ _ _ => [x]
  | .svCast x _ _ _ _ => [x]
  | .extract x _ _ => [x]
  | .concat hi lo _ => [hi,lo]
  | .other _ _ refs => refs

def varIds : Node → List ℕ
  | .var v => [v]
  | .other _ varIds _ => varIds
  | _ => []

def walked (term : Bool) : Node → List (Ref × Bool)
  | .binary op l r =>
    let t := op = .add ∨ op = .sub ∨ op = .mul ∨ op = .div ∨ op = .mod
    [(l,t),(r,t)]
  | .extend x _ _ _ => [(x,term)]
  | .svCast x _ _ _ _ => [(x,term)]
  | .other _ _ _ => []
  | n => n.refs.map fun r => (r,false)

end Node

inductive VarKind
  | rand | aux | randc
  deriving DecidableEq

structure VarSpec where
  varId : ℕ
  width : ℕ
  isSigned : Bool
  kind : VarKind
  order : ℕ
  lo : ℤ
  hi : ℤ
  deriving DecidableEq

def VarSpec.toAux (v : ℕ) (s : VarSpec) : VarSpec :=
  if s.varId = v then { s with kind := .aux } else s

/-- The pool's nodes, and the lists that hang off the problem, newest first. Of a
distribution only its variable is read. -/
structure Problem where
  nodes : List Node
  vars : List VarSpec
  constraints : List Ref
  softs : List Ref
  dists : List ℕ
  deriving DecidableEq

namespace Problem

def spec? (p : Problem) (v : ℕ) : Option VarSpec := p.vars.find? fun s => s.varId = v

def nv (p : Problem) : ℕ :=
  match p.vars with
  | [] => 0
  | s :: ss => (ss.map VarSpec.varId).foldl max s.varId + 1

def mkNode (p : Problem) (n : Node) : Ref × Problem :=
  (p.nodes.length,{ p with nodes := p.nodes ++ [n] })

def fdAddVar (p : Problem) (id w : ℕ) (kind : VarKind) : Ref × Problem :=
  ({ p with vars := ⟨id,w,false,kind,0,0,wrap (2^w-1) 64 true⟩ :: p.vars } : Problem).mkNode
    (.var id)

def fdAddConstraint (p : Problem) (root : Ref) : Problem :=
  { p with constraints := root :: p.constraints }

end Problem

structure FdWord where
  cuts : ℕ → Bool
  need : Bool
  skip : Bool

structure FdUse where
  node : Ref
  var : ℕ
  hi : ℕ
  lo : ℕ
  deriving DecidableEq

structure FdState where
  w : ℕ → FdWord
  use : List FdUse
  memo : List (Ref × Bool)

def FdState.new : FdState := ⟨fun _ => ⟨fun _ => false,false,false⟩,[],[]⟩

def fdCut (cuts : ℕ → Bool) (W hi lo : ℕ) : ℕ → Bool :=
  let cuts := Function.update cuts lo true
  if hi+1 < W then Function.update cuts (hi+1) true else cuts

def fdExtract (p : Problem) (r : Ref) (need : Bool) (S : FdState) : FdState :=
  match p.nodes[r]? with
  | some (.extract x hi lo) =>
    match p.nodes[x]? with
    | some (.var v) =>
      match p.spec? v with
      | some s =>
        if s.isSigned ∨ s.width > 64 then S
        else if hi < lo ∨ hi ≥ s.width then
          { S with w := Function.update S.w v { S.w v with skip := true } }
        else
          let w := S.w v
          { S with
            w := Function.update S.w v
              { w with need := w.need || need, cuts := fdCut w.cuts s.width hi lo }
            use := S.use ++ [⟨r,v,hi,lo⟩] }
      | none => S
    | _ => S
  | _ => S

/-- Collect the extracts under `r`; `none` where the recursion is too deep. -/
def fdWalk (p : Problem) : ℕ → Ref × Bool → FdState → Option FdState
  | 0, (r,_), S => if p.nodes[r]? = none then some S else none
  | depth+1, (r,term), S =>
    match p.nodes[r]? with
    | none => some S
    | some n =>
      if (r,term) ∈ S.memo then some S
      else
        let S := { S with memo := (r,term) :: S.memo }
        (n.walked term).foldlM (fun S x => fdWalk p depth x S) (fdExtract p r (!term) S)

def fdConstSide (p : Problem) (l r : Ref) : Option Ref :=
  match p.nodes[l]?,p.nodes[r]? with
  | some (.extract _ _ _),some (.const _ _ _) => some l
  | some (.const _ _ _),some (.extract _ _ _) => some r
  | _,_ => none

def fdRoot (p : Problem) : ℕ → Ref → FdState → Option FdState
  | 0, r, S => if p.nodes[r]? = none then some S else none
  | depth+1, r, S =>
    match p.nodes[r]? with
    | none => some S
    | some (.binary .and l rr) => (fdRoot p depth l S).bind (fdRoot p depth rr)
    | some (.binary .eq l rr) =>
      match fdConstSide p l rr with
      | some x => some (fdExtract p x false S)
      | none => fdWalk p depth (r,false) S
    | some _ => fdWalk p depth (r,false) S

def fdCollect (p : Problem) (depth : ℕ) : Option FdState := do
  let S ← p.constraints.foldlM (fun S r => fdRoot p depth r S) .new
  p.softs.foldlM (fun S r => fdWalk p depth (r,false) S) S

def FdUse.Apart (a c : FdUse) : Prop :=
  c.lo > a.hi ∨ a.lo > c.hi ∨ c.lo ≥ a.lo ∧ c.hi ≤ a.hi ∨ a.lo ≥ c.lo ∧ a.hi ≤ c.hi

instance (a c : FdUse) : Decidable (a.Apart c) := inferInstanceAs (Decidable (_ ∨ _))

namespace FdState

def uses (S : FdState) (v : ℕ) : List FdUse := S.use.filter fun u => u.var = v

def cuts (S : FdState) (v b : ℕ) : Bool := b ≠ 0 && (S.w v).cuts b

def nFields (S : FdState) (v : ℕ) : ℕ := (List.range 64).countP (S.cuts v) + 1

def skips (S : FdState) (p : Problem) (v : ℕ) : Bool :=
  match p.spec? v with
  | none => true
  | some s =>
    !(S.w v).need || (S.w v).skip || v ∈ p.dists || !decide ((S.uses v).Pairwise FdUse.Apart) ||
      decide (((S.uses v).map fun u => (u.lo,u.hi)).dedup.length ≥ fdMaxWords) ||
      !(List.range 64).any (S.cuts v) || s.width < fdMinWidth || S.nFields v > fdMaxSegs

end FdState

structure Span where
  id : ℕ
  lo : ℕ
  hi : ℕ
  ref : Ref
  deriving DecidableEq

structure FdBuild where
  p : Problem
  nextId : ℕ
  words : List Span
  deriving DecidableEq

def fdEnd (cuts : ℕ → Bool) (hi : ℕ) : ℕ → ℕ → ℕ
  | 0, e => e
  | n+1, e => if e < hi ∧ cuts (e+1) = false then fdEnd cuts hi n (e+1) else e

def fdFields (cuts : ℕ → Bool) (W : ℕ) : ℕ → ℕ → FdBuild → List Span × FdBuild
  | 0, _, B => ([],B)
  | n+1, b, B =>
    if b < W then
      let e := fdEnd cuts (W-1) 64 b
      let (r,p) := B.p.fdAddVar B.nextId (e+1-b) .rand
      let (segs,B') := fdFields cuts W n (e+1) { B with p := p, nextId := B.nextId+1 }
      (⟨B.nextId,b,e,r⟩ :: segs,B')
    else ([],B)

/-- Where the part of `[hi:lo]` that starts at `b` ends: the largest extract inside,
else the field. -/
def fdPartEnd (cuts : ℕ → Bool) (uses : List FdUse) (lo hi b : ℕ) : ℕ :=
  uses.foldl (fun e x =>
    if x.lo ≠ b ∨ x.hi > hi ∨ x.hi ≤ e then e
    else if x.lo = lo ∧ x.hi = hi then e
    else x.hi) (fdEnd cuts hi 64 b)

/-- Tie the part `[e:b]` to the word `self` of bits `[hi:lo]`: a slice of a 64-bit word,
else the next link of a chain of concats, `cur` being what is chained so far with its
width. -/
def fdTie (lo hi : ℕ) (self part : Ref) (b e : ℕ) (cur : Option (Ref × ℕ)) (B : FdBuild) :
    Option (Ref × ℕ) × FdBuild :=
  if hi-lo+1 ≥ 64 then
    let (x,p) := B.p.mkNode (.extract self e b)
    let (r,p) := p.mkNode (.binary .eq part x)
    (cur,{ B with p := p.fdAddConstraint r })
  else
    match cur with
    | none => (some (part,e-b+1),B)
    | some (c,cw) =>
      let (t,B) := if e = hi then (self,B) else
        let (t,p) := B.p.fdAddVar B.nextId (cw+(e-b+1)) .aux
        (t,{ B with p := p, nextId := B.nextId+1 })
      let (x,p) := B.p.mkNode (.concat part c cw)
      let (r,p) := p.mkNode (.binary .eq t x)
      (some (t,cw+(e-b+1)),{ B with p := p.fdAddConstraint r })

def fdParts (cuts : ℕ → Bool) (uses : List FdUse)
    (build : ℕ → ℕ → FdBuild → Option (Ref × FdBuild)) (lo hi : ℕ) (self : Ref) :
    ℕ → ℕ → Option (Ref × ℕ) → FdBuild → Option FdBuild
  | 0, _, _, _ => none
  | n+1, b, cur, B =>
    let e := fdPartEnd cuts uses lo hi b
    (build b e B).bind fun (part,B) =>
      let (cur,B) := fdTie lo hi self part b e cur B
      if e = hi then some B else fdParts cuts uses build lo hi self n (e+1) cur B

/-- The variable of bits `[hi:lo]`: a field, or a word tied to its parts. `self` is the
word itself at the top; `none` where the nesting or the words are too many. -/
def fdBuild (cuts : ℕ → Bool) (uses : List FdUse) (segs : List Span) :
    ℕ → ℕ → ℕ → Option (Ref × ℕ) → FdBuild → Option (Ref × FdBuild)
  | 0, _, _, _, _ => none
  | depth+1, lo, hi, self, B =>
    match segs.find? fun s => s.lo = lo ∧ s.hi = hi with
    | some s => some (s.ref,B)
    | none =>
      let parts := fdParts cuts uses
        (fun b e B => fdBuild cuts uses segs depth b e none B) lo hi
      match self with
      | none =>
        if B.words.length = fdMaxWords then none
        else
          let (self,p) := B.p.fdAddVar B.nextId (hi-lo+1) .aux
          (parts self (hi+1-lo) lo none
            ⟨p,B.nextId+1,B.words ++ [⟨B.nextId,lo,hi,self⟩]⟩).map fun B => (self,B)
      | some (self,id) =>
        (parts self (hi+1-lo) lo none (if B.words.length < fdMaxWords then
          { B with words := B.words ++ [⟨id,lo,hi,self⟩] } else B)).map fun B => (self,B)

def fdLookup (segs words : List Span) (lo hi : ℕ) : Option ℕ :=
  ((segs ++ words).find? fun s => s.lo = lo ∧ s.hi = hi).map Span.id

def fdReplace (segs words : List Span) : List FdUse → List Node → Option (List Node)
  | [], nodes => some nodes
  | u :: us, nodes => (fdLookup segs words u.lo u.hi).bind fun id =>
    fdReplace segs words us (nodes.set u.node (.var id))

def fdSplitWord (S : FdState) (v W : ℕ) (p : Problem) (nextId : ℕ) : Option (Problem × ℕ) :=
  let (segs,B) := fdFields (S.cuts v) W W 0 ⟨p,nextId,[]⟩
  let (xv,p) := B.p.mkNode (.var v)
  (fdBuild (S.cuts v) (S.uses v) segs (fdMaxSegs+2) 0 (W-1) (some (xv,v))
      { B with p := p }).bind fun (_,B) =>
    (fdReplace segs B.words (S.uses v) B.p.nodes).map fun nodes =>
      ({ B.p with
        nodes := nodes
        vars := B.p.vars.map (VarSpec.toAux v) },B.nextId)

/-- `_fd_split`; `none` on an error that leaves the problem half split. -/
def fdSplit (depth : ℕ) (p : Problem) : Option Problem :=
  if p.nv = 0 ∨ p.vars.length ≠ p.nv then some p
  else
    match fdCollect p depth with
    | none => some p
    | some S =>
      ((List.range p.nv).foldlM (fun (q : Problem × ℕ) v =>
        if S.skips p v then some q
        else (p.spec? v).bind fun s => fdSplitWord S v s.width q.1 q.2) (p,p.nv)).map Prod.fst

/-- The field split of `dvs_sv_rewrite_masks`: a half split problem is not kept. -/
def splitFields (depth : ℕ) (p : Problem) : Problem := (fdSplit depth p).getD p

end Fields
end DvSolve
