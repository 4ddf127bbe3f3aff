import DvSolve.FireSem
import DvSolve.Lcg

/-! Negative cycles over difference relations, `dvs_diffcycle.c`.
An edge from `u` to `v` of weight `w` says that `v` is at most `u+w`. -/
namespace DvSolve
namespace Solver

inductive DiffRelKind
  | le
  | sum
  | sub
  | addc
  deriving DecidableEq

def DiffRelKind.arity (k : DiffRelKind) : ℕ := if k = .addc then 2 else 3

structure DiffRel where
  kind : DiffRelKind
  width : ℕ
  v : ℕ → ℕ
  c : BitVec 64

/-- `DcEdge`, which holds its relation in the place of its index, and the slot of the bound
that is its weight. -/
structure DcEdge where
  u : ℕ
  v : ℕ
  w : BitVec 64
  rel : DiffRel
  wlit : Option ℕ

def dcLim : ℤ := 2^61

def ival (v : Variable) : Bool :=
  if v.signed then !(decide ((varLo64 v).toInt < -dcLim) || decide (dcLim < (varHi64 v).toInt))
  else !decide (dcLim < (varHi64 v).toNat)

def reprWithin (v : Variable) : ℤ × ℤ :=
  let a := (varReprMin v).toInt
  let b := if !v.signed && v.width ≥ 62 then dcLim else (varReprMax v).toInt
  (if a < -dcLim then -dcLim else a,if dcLim < b then dcLim else b)

/-- `RelState`; slot `2*k` of `need` is the lower bound of variable `k`, `2*k+1` its upper. -/
structure RelState where
  lo : ℕ → BitVec 64
  hi : ℕ → BitVec 64
  need : ℕ
  cc : BitVec 64

def addcConst (r : DiffRel) : BitVec 64 :=
  if r.width ≠ 0 ∧ r.width < 64 ∧ (1#64 <<< (r.width-1)).toInt ≤ r.c.toInt then
    r.c-(1#64 <<< r.width)
  else r.c

def relSpan (r : DiffRel) (signed : Bool) (lo hi : ℕ → BitVec 64) :
    Option (BitVec 64 × BitVec 64 × ℕ) :=
  match r.kind with
  | .le => none
  | .sum => some (lo 1+lo 2,hi 1+hi 2,if signed then 0x3C else 0x28)
  | .sub => some (lo 1-hi 2,hi 1-lo 2,if signed then 0x3C else 0x2C)
  | .addc =>
    let c := addcConst r
    if c.toInt < -dcLim ∨ dcLim < c.toInt then none else some (lo 1+c,hi 1+c,0x0C)

def relValid (L : ℕ → Variable) (r : DiffRel) : Option RelState :=
  if r.kind = .le then
    if (L (r.v 0)).signed = (L (r.v 1)).signed then some ⟨fun _ => 0#64,fun _ => 0#64,0,0#64⟩
    else none
  else
    let rv := L (r.v 0)
    if (List.range r.kind.arity).any fun k => (L (r.v k)).signed != rv.signed ||
        (r.width != 0 && decide (r.width < (L (r.v k)).width)) || !ival (L (r.v k)) then none
    else if r.width ≠ 0 ∧ rv.width ≠ r.width then none
    else
      let lo := fun k => varLo64 (L (r.v k))
      let hi := fun k => varHi64 (L (r.v k))
      match relSpan r rv.signed lo hi with
      | none => none
      | some (l,h,need) =>
        if (reprWithin rv).1 ≤ l.toInt ∧ h.toInt ≤ (reprWithin rv).2 then
          some ⟨lo,hi,need,addcConst r⟩
        else none

def relEdges (L : ℕ → Variable) (r : DiffRel) : List DcEdge :=
  match relValid L r with
  | none => []
  | some st =>
    let x := r.v 0
    let a := r.v 1
    let b := r.v 2
    match r.kind with
    | .le => [⟨a,x,r.c,r,none⟩]
    | .sum => [⟨a,x,st.hi 2,r,some 5⟩,⟨b,x,st.hi 1,r,some 3⟩,⟨x,a,-st.lo 2,r,some 4⟩,
        ⟨x,b,-st.lo 1,r,some 2⟩]
    | .sub => [⟨a,x,-st.lo 2,r,some 4⟩,⟨x,a,st.hi 2,r,some 5⟩,⟨a,b,-st.lo 0,r,some 0⟩,
        ⟨b,a,st.hi 0,r,some 1⟩]
    | .addc => [⟨a,x,st.cc,r,none⟩,⟨x,a,-st.cc,r,none⟩]

structure Dists where
  dist : ℕ → BitVec 64
  pred : ℕ → Option DcEdge

def relax (p : Dists × Option ℕ) (e : DcEdge) : Dists × Option ℕ :=
  let nd := p.1.dist e.u+e.w
  if nd.toInt < (p.1.dist e.v).toInt then
    if nd.toInt < -2^62 then p
    else (⟨Function.update p.1.dist e.v nd,Function.update p.1.pred e.v (some e)⟩,some e.v)
  else p

def passes (edges : List DcEdge) : ℕ → Dists → Option (Dists × ℕ)
  | 0, _ => none
  | n+1, d =>
    match edges.foldl relax (d,none) with
    | (_,none) => none
    | (d',some y) => if n = 0 then some (d',y) else passes edges n d'

def walkBack (d : Dists) : ℕ → ℕ → Option ℕ
  | 0, y => some y
  | n+1, y =>
    match d.pred y with
    | none => none
    | some e => walkBack d n e.u

def maxExplainLits : ℕ := 32

def slotLit (ids : ℕ → ℕ) (r : DiffRel) (st : RelState) (s : ℕ) : Literal :=
  ⟨ids (r.v (s/2)),s%2 == 0,if s%2 == 0 then st.lo (s/2) else st.hi (s/2)⟩

def addLits (ids : ℕ → ℕ) (r : DiffRel) (st : RelState) (need : ℕ) :
    List ℕ → List Literal → Option (List Literal)
  | [], lits => some lits
  | s::slots, lits =>
    if need.testBit s then
      let l := slotLit ids r st s
      if lits.any fun q => q.varId == l.varId && q.isLb == l.isLb then
        addLits ids r st need slots lits
      else if maxExplainLits ≤ lits.length then none
      else addLits ids r st need slots (lits ++ [l])
    else addLits ids r st need slots lits

def edgeNeed (st : RelState) (e : DcEdge) : ℕ :=
  match e.wlit with
  | none => st.need
  | some s => st.need ||| 2^s

def edgeLits (L : ℕ → Variable) (ids : ℕ → ℕ) (e : DcEdge) (lits : List Literal) :
    Option (List Literal) :=
  if e.rel.kind = .le then some lits
  else
    match relValid L e.rel with
    | none => none
    | some st => addLits ids e.rel st (edgeNeed st e) (List.range 6) lits

def collectCycle (L : ℕ → Variable) (ids : ℕ → ℕ) (d : Dists) (y : ℕ) :
    ℕ → ℕ → BitVec 64 → List Literal → Option (BitVec 64 × List Literal)
  | 0, _, _, _ => none
  | n+1, node, total, lits =>
    match d.pred node with
    | none => none
    | some e =>
      match edgeLits L ids e lits with
      | none => none
      | some lits' =>
        if e.u = y then some (total+e.w,lits') else collectCycle L ids d y n e.u (total+e.w) lits'

structure DcGraph where
  rels : List DiffRel
  nVars : ℕ
  ids : ℕ → ℕ
  within : ∀ r ∈ rels, ∀ k, r.v k < nVars

/-- A negative cycle through the first part, with the arrays and the literals of `lits`. -/
def findCycle (D : DcGraph) (L : ℕ → Variable) : Option (ℕ × Dists × List Literal) :=
  let edges := D.rels.flatMap (relEdges L)
  if edges.isEmpty then none
  else
    match passes edges (D.nVars+1) ⟨fun _ => 0#64,fun _ => none⟩ with
    | none => none
    | some (d,last) =>
      match walkBack d D.nVars last with
      | none => none
      | some y =>
        match collectCycle L D.ids d y D.nVars y 0#64 [] with
        | none => none
        | some (total,lits) => if 0 ≤ total.toInt then none else some (y,d,lits)

def reportCycle (ids : ℕ → ℕ) (d : Dists) (y : ℕ) : ℕ → ℕ → Fire
  | 0, _ => .done .ok
  | n+1, node => .read (ids node) fun v =>
    let lo := varLo64 v
    let hi := varHi64 v
    if varBGt v lo (varReprMin v) then
      .tighten .ub64 (ids node) (lo-1#64) fun _ => .done .conflict
    else if varBLt v hi (varReprMax v) then
      .tighten .lb64 (ids node) (hi+1#64) fun _ => .done .conflict
    else
      match d.pred node with
      | none => .done .ok
      | some e => if e.u = y then .done .ok else reportCycle ids d y n e.u

/-- The variables at the first `n` places, the others being `v₀`. -/
def Fire.readAll (ids : ℕ → ℕ) (v₀ : Variable) : ℕ → ((ℕ → Variable) → Fire) → Fire
  | 0, k => k fun _ => v₀
  | n+1, k => .read (ids n) fun v => readAll ids v₀ n fun L => k (Function.update L n v)

def noVariable : Variable := ⟨0#32,0#32,(0#64,0#64),0,false,false,false,false⟩

def fireDiffcycle (D : DcGraph) : Fire :=
  Fire.readAll D.ids noVariable D.nVars fun L =>
    match findCycle D L with
    | none => .done .ok
    | some (y,d,_) => reportCycle D.ids d y D.nVars y

def DcGraph.view (D : DcGraph) (vars : ℕ → Variable) : ℕ → Variable := fun i =>
  if i < D.nVars then vars (D.ids i) else noVariable

/-- `_explain_diffcycle`: the literals a fire leaves in `lits`. -/
def explainDiffcycle (D : DcGraph) (vars : ℕ → Variable) : List Literal :=
  match findCycle D (D.view vars) with
  | none => []
  | some (_,_,lits) => lits

end Solver
end DvSolve
