import DvSolve.AffineGates

/-! The affine decision procedure of `dvs_affine.c`.
Assertions split into equations and clauses over affine literals; the equations
are eliminated over GF(2) with every gate that is not affine as a free column, and
a candidate model is simulated on the graph before it is returned.
A row of column bits is a number, column `k` its bit `k`. -/
namespace DvSolve
namespace Affine

open Loop
open Function (update)

inductive Verdict
  | undecided
  | sat
  | unsat
  deriving DecidableEq, Repr

structure Stats where
  xors : ℕ
  tables : ℕ
  inputs : ℕ
  opaques : ℕ
  equations : ℕ
  clauses : ℕ
  rank : ℕ
  why : String
  deriving DecidableEq, Repr

def Stats.start : Stats := ⟨0,0,0,0,0,0,0,"out of memory"⟩

/-- The clause of a negated AND tree: its work stack (top first), the gates
expanded, and the literals found. -/
structure ClauseScan where
  stack : List ℤ
  marked : Finset ℕ
  lits : List ℤ

/-- One literal of the tree; the result is `none` when the clauses grow beyond
`limit` literals. -/
def clauseRound (a : Gates) (limit : ℕ) (s : ClauseScan) :
    Step ClauseScan (Option (List ℤ)) :=
  match s.stack with
  | [] => .exit (some s.lits)
  | c :: stack =>
    if c > 0 ∧ a.L (idOf c) ≠ 0 ∧ !gateAffine a (idOf c) then
      if idOf c ∈ s.marked then .again { s with stack := stack }
      else .again ⟨a.R (idOf c) :: a.L (idOf c) :: stack,insert (idOf c) s.marked,s.lits⟩
    else if c ≠ aigTrue then
      if s.lits.length ≥ limit then .exit none
      else .again { s with stack := stack, lits := s.lits ++ [-c] }
    else .again { s with stack := stack }

def scanClause (a : Gates) (limit id : ℕ) : Option (Option (List ℤ)) :=
  loop (clauseRound a limit) (2 * a.N + 4) ⟨[id],∅,[]⟩

structure Conjuncts where
  seen : Finset ℤ
  eqs : List ℤ
  clauses : List (List ℤ)

def Conjuncts.clauseLits (s : Conjuncts) : List ℤ := s.clauses.flatten

inductive Scan
  | falseAssertion
  | tooLarge
  | found (s : Conjuncts)

/-- One conjunct literal from the stack; a result is `none` only if the scan of a
clause is cut short. -/
def conjRound (a : Gates) (s : Conjuncts × List ℤ) : Step (Conjuncts × List ℤ) (Option Scan) :=
  match s.2 with
  | [] => .exit (some (.found s.1))
  | lit :: conj =>
    let id := idOf lit
    if lit = aigTrue then .again (s.1,conj)
    else if lit = aigFalse then .exit (some .falseAssertion)
    else if lit ∈ s.1.seen then .again (s.1,conj)
    else
      let s₁ := { s.1 with seen := insert lit s.1.seen }
      if a.L id ≠ 0 ∧ !gateAffine a id ∧ lit > 0 then .again (s₁,a.R id :: a.L id :: conj)
      else if a.L id ≠ 0 ∧ !gateAffine a id then
        match scanClause a (2 * (a.N+1) - s.1.clauseLits.length) id with
        | none => .exit none
        | some none => .exit (some .tooLarge)
        | some (some c) => .again ({ s₁ with clauses := s₁.clauses ++ [c] },conj)
      else .again ({ s₁ with eqs := s₁.eqs ++ [lit] },conj)

def scanConj (a : Gates) (s : Conjuncts) (root : ℤ) : Option Scan :=
  (loop (conjRound a) (2 * a.N + 4) (s,[root])).join

def scanAsserts (a : Gates) : List ℤ → Conjuncts → Option Scan
  | [], s => some (.found s)
  | root :: asserts, s => do
    match ← scanConj a s root with
    | .found s => scanAsserts a asserts s
    | r => pure r

/-- The region: nodes seen, the stack (top first; a marked entry leaves its gate),
affine gates in post-order, the column of each leaf and the leaf of each column. -/
structure Region where
  seen : Finset ℕ
  stack : List (ℕ × Bool)
  order : List ℕ
  col : ℕ → Option ℕ
  colNode : List ℕ

def Region.start : Region := ⟨∅,[],[],fun _ => none,[]⟩

def formNodes (a : Gates) (id : ℕ) : List ℕ :=
  match a.sm id with
  | some (pool,_) => pool
  | none => [idOf (a.xa id),idOf (a.xb id)]

def regionRound (a : Gates) (s : Region) : Step Region Region :=
  match s.stack with
  | [] => .exit s
  | (id,true) :: stack => .again { s with stack := stack, order := s.order ++ [id] }
  | (id,false) :: stack =>
    if id ∈ s.seen then .again { s with stack := stack }
    else
      let s := { s with seen := insert id s.seen, stack := stack }
      if id = 1 then .again s
      else if gateAffine a id then
        .again { s with
          stack := ((formNodes a id).map fun c => (c,false)).reverse ++ (id,true) :: stack }
      else .again { s with
        col := update s.col id (some s.colNode.length)
        colNode := s.colNode ++ [id] }

def findRegion (a : Gates) : List ℤ → Region → Option Region
  | [], s => some s
  | lit :: lits, s => do
    let s ← loop (regionRound a) ((smLeaves + 2) * (a.N+1) + 2) { s with stack := [(idOf lit,false)] }
    findRegion a lits s

abbrev Form := ℕ × Bool

def addLit (a : Gates) (col : ℕ → Option ℕ) (forms : ℕ → Form) (lit : ℤ) (f : Form) : Form :=
  let id := idOf lit
  let c := f.2 ^^ decide (lit < 0)
  if id = 1 then (f.1,c ^^ true)
  else if gateAffine a id then (f.1 ^^^ (forms id).1,c ^^ (forms id).2)
  else (f.1 ^^^ 2^(col id).getD 0,c)

def gateForm (a : Gates) (col : ℕ → Option ℕ) (forms : ℕ → Form) (id : ℕ) : ℕ → Form :=
  update forms id <|
    match a.sm id with
    | none => addLit a col forms (a.xb id) (addLit a col forms (a.xa id) (0,false))
    | some (pool,c) => pool.foldl (fun f (leaf : ℕ) => addLit a col forms leaf f) (0,c)

def buildForms (a : Gates) (r : Region) : ℕ → Form :=
  r.order.foldl (gateForm a r.col) fun _ => (0,false)

structure Row where
  bits : ℕ
  rhs : Bool
  pcol : ℕ
  deriving DecidableEq, Repr

structure Gauss where
  W : ℕ
  rows : List Row
  prow : ℕ → ℕ
  pmask : ℕ
  work : ℕ

def Gauss.row (g : Gauss) (r : ℕ) : Row := g.rows.getD r ⟨0,false,0⟩

structure Context where
  gates : Gates
  col : ℕ → Option ℕ
  colNode : List ℕ
  forms : ℕ → Form
  W : ℕ

def Context.litForm (x : Context) (lit : ℤ) : Form := addLit x.gates x.col x.forms lit (0,false)

def reduceBit (k : ℕ) (s : Gauss × Form) : Gauss × Form :=
  let row := s.1.row (s.1.prow k)
  ({ s.1 with work := s.1.work + s.1.W },(s.2.1 ^^^ row.bits,s.2.2 ^^ row.rhs))

/-- Clear the pivot columns of word `w`, those the form had when it was reached. -/
def reduceWord (s : Gauss × Form) (w : ℕ) : Gauss × Form :=
  let mask := s.2.1 &&& s.1.pmask
  (List.range' (64*w) 64).foldl (fun s k => if mask.testBit k then reduceBit k s else s) s

def reduce (g : Gauss) (f : Form) : Gauss × Form := (List.range g.W).foldl reduceWord (g,f)

def lowestColumn (W bits : ℕ) : Option ℕ := (List.range (64*W)).find? fun k => bits.testBit k

def eliminate (k : ℕ) (f : Form) (row : Row) : Row :=
  if row.bits.testBit k then { row with bits := row.bits ^^^ f.1, rhs := row.rhs ^^ f.2 } else row

/-- `_add_eq`: the equation `f.1·x = f.2`; `false` when it is inconsistent. -/
def addEq (g : Gauss) (f : Form) : Bool × Gauss :=
  let (g,f) := reduce g f
  match lowestColumn g.W f.1 with
  | none => (!f.2,g)
  | some k =>
    let hit := g.rows.countP fun row => row.bits.testBit k
    (true,{ g with
      rows := g.rows.map (eliminate k f) ++ [⟨f.1,f.2,k⟩]
      prow := update g.prow k g.rows.length
      pmask := g.pmask ||| 2^k
      work := g.work + hit * g.W })

def litValue (x : Context) (g : Gauss) (lit : ℤ) : Option Bool × Gauss :=
  let (g,f) := reduce g (x.litForm lit)
  (if f.1 = 0 then some f.2 else none,g)

inductive Elim
  | contradiction (g : Gauss)
  | tooLarge (g : Gauss)
  | ok (g : Gauss)

def addEqs (x : Context) (maxWork : ℕ) : List ℤ → Gauss → Elim
  | [], g => .ok g
  | lit :: eqs, g =>
    let f := x.litForm lit
    let (ok,g) := addEq g (f.1,true ^^ f.2)
    if !ok then .contradiction g
    else if g.work > maxWork then .tooLarge g
    else addEqs x maxWork eqs g

def allFalse (x : Context) : List ℤ → Gauss → Bool × Gauss
  | [], g => (true,g)
  | lit :: lits, g =>
    let (v,g) := litValue x g lit
    if v = some false then allFalse x lits g else (false,g)

def checkClauses (x : Context) (maxWork : ℕ) : List (List ℤ) → Gauss → Elim
  | [], g => .ok g
  | c :: cs, g =>
    let (bad,g) := allFalse x c g
    if bad then .contradiction g
    else if g.work > maxWork then .tooLarge g
    else checkClauses x maxWork cs g

def splitmix (s : UInt64) : UInt64 × UInt64 :=
  let s := s + 0x9e3779b97f4a7c15
  let z := (s ^^^ (s >>> 30)) * 0xbf58476d1ce4e5b9
  let z := (z ^^^ (z >>> 27)) * 0x94d049bb133111eb
  (s,z ^^^ (z >>> 31))

def anyTrue (x : Context) : List ℤ → Gauss → Bool × Gauss
  | [], g => (false,g)
  | lit :: lits, g =>
    let (v,g) := litValue x g lit
    if v = some true then (true,g) else anyTrue x lits g

def makeTrue (x : Context) : List ℤ → Gauss → Bool × Gauss
  | [], g => (false,g)
  | lit :: lits, g =>
    match litValue x g lit with
    | (some true,g) => (true,g)
    | (some false,g) => makeTrue x lits g
    | (none,g) =>
      let f := x.litForm lit
      let (ok,g) := addEq g (f.1,true ^^ f.2)
      if ok then (true,g) else makeTrue x lits g

def settle (x : Context) (seed : UInt64) : List (List ℤ) → UInt64 → Gauss → Bool × Gauss
  | [], _, g => (true,g)
  | c :: cs, s, g =>
    let (done,g) := if seed ≠ 0 then anyTrue x c g else (false,g)
    let (s,j0) :=
      if seed ≠ 0 ∧ c.length > 1 then
        let (s,z) := splitmix s
        (s,z.toNat % c.length)
      else (s,0)
    let (done,g) := if done then (true,g) else makeTrue x (c.rotate j0) g
    if done then settle x seed cs s g else (false,g)

def feeds (x : Context) : ℕ → Bool :=
  (List.range' 2 (x.gates.N-1)).reverse.foldl (fun fs id =>
    if x.gates.L id = 0 ∨ ¬(fs id ∨ (x.col id).isSome) then fs
    else update (update fs (idOf (x.gates.L id)) true)
      (idOf (x.gates.R id)) true) fun _ => false

/-- The free input column a row is to pivot on: the first outside every opaque
cone, else the last. -/
def pickColumn (x : Context) (fs : ℕ → Bool) (pmask bits : ℕ) :
    List ℕ → Option ℕ → Option ℕ
  | [], k => k
  | c :: cs, k =>
    let id := x.colNode.getD c 0
    if !bits.testBit c ∨ x.gates.L id ≠ 0 ∨ pmask.testBit c then pickColumn x fs pmask bits cs k
    else
      let k := match k with
        | none => some c
        | some k => if !fs id ∨ fs (x.colNode.getD k 0) then some c else some k
      if !fs id then k else pickColumn x fs pmask bits cs k

def repivotRow (x : Context) (fs : ℕ → Bool) (g : Gauss) (r : ℕ) : Gauss :=
  let row := g.row r
  if x.gates.L (x.colNode.getD row.pcol 0) = 0 then g
  else
    match pickColumn x fs g.pmask row.bits (List.range x.colNode.length) none with
    | none => g
    | some k =>
      { g with
        rows := (g.rows.map (eliminate k (row.bits,row.rhs))).set r { row with pcol := k }
        pmask := (if g.pmask.testBit row.pcol then g.pmask ^^^ 2^row.pcol else g.pmask) ||| 2^k }

def repivot (x : Context) (g : Gauss) : Gauss :=
  (List.range g.rows.length).foldl (repivotRow x (feeds x)) g

def litVal (nv : ℕ → Bool) (lit : ℤ) : Bool := nv (idOf lit) ^^ decide (lit < 0)

def drawInputs (x : Context) (g : Gauss) : List ℕ → UInt64 → (ℕ → Bool) × ℕ → (ℕ → Bool) × ℕ
  | [], _, s => s
  | k :: ks, rs, (nv,fv) =>
    let id := x.colNode.getD k 0
    if x.gates.L id ≠ 0 ∨ g.pmask.testBit k then drawInputs x g ks rs (nv,fv)
    else
      let (rs,z) := splitmix rs
      if z &&& 1 ≠ 0 then drawInputs x g ks rs (update nv id true,fv ||| 2^k)
      else drawInputs x g ks rs (nv,fv)

def parity (W a b : ℕ) : Bool :=
  (List.range (64*W)).foldl (fun p k => p ^^ (a.testBit k && b.testBit k)) false

def setPivots (x : Context) (g : Gauss) (fv : ℕ) (nv : ℕ → Bool) : ℕ → Bool :=
  g.rows.foldl (fun nv row =>
    let id := x.colNode.getD row.pcol 0
    if x.gates.L id ≠ 0 then nv
    else update nv id (row.rhs ^^ parity g.W row.bits fv)) nv

def evalGates (a : Gates) (nv : ℕ → Bool) : ℕ → Bool :=
  (List.range' 2 (a.N-1)).foldl (fun nv id =>
    if a.L id = 0 then nv
    else update nv id (litVal nv (a.L id) && litVal nv (a.R id))) nv

def changedColumns (x : Context) (g : Gauss) (fv : ℕ) (nv : ℕ → Bool) : List ℕ :=
  (List.range x.colNode.length).filter fun k =>
    let id := x.colNode.getD k 0
    x.gates.L id ≠ 0 && !g.pmask.testBit k && (fv.testBit k != nv id)

def modelPasses (x : Context) (g : Gauss) (own : Bool) : ℕ → ℕ → (ℕ → Bool) → ℕ → Bool
  | 0, _, nv => nv
  | n+1, fv, nv =>
    let nv := evalGates x.gates (setPivots x g fv nv)
    let changed := if own then changedColumns x g fv nv else []
    if changed.isEmpty then nv
    else modelPasses x g own n (changed.foldl (fun fv k => fv ^^^ 2^k) fv) nv

/-- `_model`: a valuation in which the assertions hold, if the candidate is one.
`repivotOff` is the setting `DV_AFFINE_REPIVOT=0`. -/
def model (x : Context) (g : Gauss) (seed : UInt64) (repivotOff : Bool) (asserts : List ℤ) :
    Option (ℕ → Bool) :=
  let own := seed ≠ 0 && !repivotOff
  let g := if own then repivot x g else g
  let nv₀ := update (fun _ => false) 1 true
  let (nv,fv) :=
    if seed ≠ 0 then drawInputs x g (List.range x.colNode.length) seed (nv₀,0) else (nv₀,0)
  let nv := modelPasses x g own 16 fv nv
  if asserts.all (litVal nv) then some nv else none

/-- The system the clauses are settled in for the seed: from `g` again, with the
choice of `g₁` where the seeded one fails. -/
def resettle (x : Context) (g g₁ : Gauss) (clauses : List (List ℤ)) (seed : UInt64) : Gauss :=
  if seed = 0 ∨ clauses.isEmpty then g₁
  else
    let (ok,g₂) := settle x seed clauses seed g
    if ok then g₂ else g₁

structure Result where
  verdict : Verdict
  model : Option (ℕ → Bool)
  stats : Stats

def Result.undecided (st : Stats) (why : String) : Result :=
  ⟨.undecided,none,{ st with why := why }⟩

def Result.unsat (st : Stats) (rank : ℕ) (why : String) : Result :=
  ⟨.unsat,none,{ st with rank := rank, why := why }⟩

/-- Settle the clauses of a consistent system, first literal first, and simulate the
model; with a seed the model is then drawn again. -/
def settleAndModel (x : Context) (g : Gauss) (clauses : List (List ℤ)) (seed : UInt64)
    (repivotOff : Bool) (asserts : List ℤ) (st : Stats) : Result :=
  let (ok,g₁) := settle x 0 clauses 0 g
  if !ok then .undecided st "greedy clause choice failed"
  else
    match model x g₁ 0 repivotOff asserts with
    | none => .undecided { st with rank := g₁.rows.length } "model fails on the AIG"
    | some nv =>
      let g₂ := resettle x g g₁ clauses seed
      let nv := if seed = 0 then nv else (model x g₂ seed repivotOff asserts).getD nv
      ⟨.sat,some nv,{ st with rank := g₂.rows.length, why := "model" }⟩

def solve (x : Context) (eqs : List ℤ) (clauses : List (List ℤ)) (work maxWork : ℕ)
    (seed : UInt64) (repivotOff : Bool) (asserts : List ℤ) (st : Stats) : Result :=
  match addEqs x maxWork eqs ⟨x.W,[],fun _ => 0,0,work⟩ with
  | .contradiction g => .unsat st g.rows.length "inconsistent equations"
  | .tooLarge _ => .undecided st "elimination too large"
  | .ok g =>
    match checkClauses x maxWork clauses g with
    | .contradiction g => .unsat st g.rows.length "clause forced false"
    | .tooLarge _ => .undecided st "elimination too large"
    | .ok g => settleAndModel x g clauses seed repivotOff asserts st

def classify (m : Aig) (asserts : List ℤ) (tables : Bool) : Option (Gates × ℕ) :=
  if tables then findTables (loadGates m) asserts else some (loadGates m,0)

def check (m : Aig) (asserts : List ℤ) (maxWork : ℕ) (tables : Bool) (seed : UInt64)
    (repivotOff : Bool) : Option Result := do
  let nn := m.nodes.size
  let st := Stats.start
  if nn = 0 ∨ nn > 0x3FFFFFF0 ∨ asserts.isEmpty then return .undecided st "empty"
  let maxWork := if maxWork ≠ 0 then maxWork else 40000000
  let (a,nSmall) ← classify m asserts tables
  match ← scanAsserts a asserts ⟨∅,[],[]⟩ with
  | .falseAssertion => return .unsat st 0 "false assertion"
  | .tooLarge => return .undecided st "clauses too large"
  | .found c =>
    let r ← findRegion a (c.eqs ++ c.clauseLits) .start
    let inputs := r.colNode.countP fun id => a.L id = 0
    let st := { st with
      equations := c.eqs.length
      clauses := c.clauses.length
      xors := r.order.length
      tables := nSmall
      inputs := inputs
      opaques := r.colNode.length - inputs }
    if r.order.isEmpty then return .undecided st "no XOR"
    let W := if (r.colNode.length + 63) / 64 = 0 then 1 else (r.colNode.length + 63) / 64
    let work := r.order.length * W
    if work > maxWork then return .undecided st "region too large"
    let x : Context := ⟨a,r.col,r.colNode,buildForms a r,W⟩
    return solve x c.eqs c.clauses work maxWork seed repivotOff asserts st

/-- `dvs_affine_check`: XORs alone first, then with tables. -/
def affineCheck (m : Aig) (asserts : List ℤ) (maxWork : ℕ) (seed : UInt64)
    (repivotOff : Bool) : Option Result := do
  let r ← check m asserts maxWork false seed repivotOff
  if r.verdict ≠ .undecided ∨ r.stats.opaques = 0 ∨ r.stats.xors = 0 then return r
  check m asserts maxWork true seed repivotOff

end Affine
end DvSolve
