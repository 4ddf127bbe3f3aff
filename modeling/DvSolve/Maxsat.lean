import DvSolve.Loop

/-! The choice among soft constraints, in both engines: `dvs_bbsolver_check_maxsat` adds them one
at a time to the hard core; `_solver_solve_relax` drops the worst until the search succeeds, and
`_refine_readd_softs` then puts back what can be. The solves themselves are parameters, given the
number of the call. -/
namespace DvSolve
namespace Maxsat

variable {V : Type*}

structure SoftSpec (V : Type*) where
  root : V → Bool
  priority : ℕ

structure Problem (V : Type*) where
  hard : V → Bool
  softs : List (SoftSpec V)

def Problem.pri (p : Problem V) (i : ℕ) : ℕ := (p.softs.map SoftSpec.priority).getD i 0

inductive Rc (V : Type*)
  | sat (m : V)
  | unsat
  | unknown
  | error

def kept (keep : ℕ → Bool) : ℕ → List (SoftSpec V) → List (V → Bool)
  | _, [] => []
  | si, ss::cur => if keep si then ss.root :: kept keep (si+1) cur else kept keep (si+1) cur

/-- `dvs_bbsolver_new` and `dvs_bbsolver_check` on a problem with the kept softs; `none` when
there is no memory for the solver. -/
abbrev Solve (V : Type*) := ℕ → List (V → Bool) → Option (Rc V)

def ahead (pri : ℕ → ℕ) (a b : ℕ) : Prop := pri a < pri b ∨ (pri a = pri b ∧ a < b)

instance (pri : ℕ → ℕ) (a b : ℕ) : Decidable (ahead pri a b) := inferInstanceAs (Decidable (_ ∨ _))

def bestJ (pri : ℕ → ℕ) (n : ℕ) (order : ℕ → ℕ) (i : ℕ) : ℕ :=
  (List.range' (i+1) (n-(i+1))).foldl
    (fun best j => if ahead pri (order j) (order best) then j else best) i

def sortRound (pri : ℕ → ℕ) (n : ℕ) (order : ℕ → ℕ) (i : ℕ) : ℕ → ℕ :=
  let best := bestJ pri n order i
  Function.update (Function.update order i (order best)) best (order i)

def sortOrder (pri : ℕ → ℕ) (n k : ℕ) : ℕ → ℕ := (List.range k).foldl (sortRound pri n) id

abbrev Best (V : Type*) := (ℕ → Bool) × V

def tryAdd (solve : Solve V) (p : Problem V) (order : ℕ → ℕ) (s : Best V) (k : ℕ) : Best V :=
  let idx := order k
  let keep := Function.update s.1 idx true
  match solve (2+k) (kept keep 0 p.softs) with
  | some (.sat m) => (keep,m)
  | _ => (Function.update keep idx false,s.2)

structure Memory where
  pri : Bool
  keep : Bool
  order : Bool

/-- What the call leaves: the solver in `*out_bb` by its model, and `out_keep` unless NULL. -/
structure Ret (V : Type*) where
  rc : Rc V
  outKeep : Option (ℕ → Bool)

def writeKeep (n keepCap : ℕ) (keep out : ℕ → Bool) (i : ℕ) : Bool :=
  if i < (if keepCap < n then keepCap else n) then keep i else out i

def addSofts (solve : Solve V) (p : Problem V) (mem : Memory) (out : Option (ℕ → Bool))
    (keepCap : ℕ) : Ret V :=
  let n := p.softs.length
  if mem.order then
    match solve 1 (kept (fun _ => false) 0 p.softs) with
    | some (.sat m) =>
      let order := sortOrder p.pri n n
      let s := (List.range n).foldl (tryAdd solve p order) (fun _ => false,m)
      ⟨.sat s.2,out.map (writeKeep n keepCap s.1)⟩
    | some rc => ⟨rc,out⟩
    | none => ⟨.error,out⟩
  else ⟨.error,out⟩

def checkMaxsat (solve : Solve V) (p : Problem V) (mem : Memory) (out : Option (ℕ → Bool))
    (keepCap : ℕ) : Ret V :=
  let n := p.softs.length
  if n = 0 then ⟨(solve 0 []).getD .error,out⟩
  else if mem.pri = false ∨ mem.keep = false then ⟨.error,out⟩
  else
    match solve 0 (kept (fun _ => true) 0 p.softs) with
    | some (.sat m) => ⟨.sat m,out.map (writeKeep n keepCap fun _ => true)⟩
    | some .unsat => addSofts solve p mem out keepCap
    | some rc => ⟨rc,out⟩
    | none => ⟨.error,out⟩

/-- The answer of `_solver_solve_core`, with the assignment it leaves; `aborted` when it is the
propagation that ran out of time. -/
inductive Core (V : Type*)
  | ok (m : V)
  | unsat
  | timeout
  | aborted

def Core.model : Core V → Option V
  | .ok m => some m
  | _ => none

/-- The two solves of the search engine, by the number of the call and the assumption variables
that are at 1: `_solver_solve_core`, and whether `dvs_solver_propagate` finds no conflict. -/
structure Search (V : Type*) where
  core : ℕ → (ℕ → Bool) → Core V
  propagate : ℕ → (ℕ → Bool) → Bool

/-- What the relaxation reads and writes of a context: the priorities of the assumptions, the
mask, the assumption variables that are at 1, the number of solves made, and the assignment. -/
structure Ctx (V : Type*) where
  priorities : List ℕ
  activeMask : BitVec 64
  value : ℕ → Bool
  calls : ℕ
  found : Option V

namespace Ctx

def nAssumptions (c : Ctx V) : ℕ := c.priorities.length

def priority (c : Ctx V) (i : ℕ) : ℕ := c.priorities.getD i 0

def setMask (c : Ctx V) (m : BitVec 64) : Ctx V := { c with activeMask := m }

def setValue (c : Ctx V) (value : ℕ → Bool) : Ctx V := { c with value := value }

@[simp] theorem setValue_value (c : Ctx V) (value : ℕ → Bool) : (c.setValue value).value = value :=
  rfl

end Ctx

def bit (i : ℕ) : Option (BitVec 64) := if i < 64 then some (1#64 <<< i) else none

def compileSofts (p : Problem V) (arrays : Bool) (room : ℕ → Bool) : Ctx V :=
  let priorities :=
    if arrays then (p.softs.zipIdx.filter fun s => room s.2).map fun s => s.1.priority else []
  let aidx := priorities.length
  ⟨priorities,if aidx < 64 then 1#64 <<< aidx - 1#64 else BitVec.allOnes 64,fun _ => true,0,none⟩

def reset (c : Ctx V) : Ctx V := { c with value := fun _ => true, found := none }

def pinInactive (c : Ctx V) : Option (Ctx V) :=
  ((List.range c.nAssumptions).foldlM (fun value i =>
    (bit i).map fun b => if c.activeMask &&& b = 0#64 then Function.update value i false else value)
    c.value).map c.setValue

def solveCore (E : Search V) (c : Ctx V) : Core V × Ctx V :=
  let r := E.core c.calls c.value
  (r,{ c with calls := c.calls+1, found := r.model })

def pick (skip : Bool) (wins : ℕ → ℕ → Bool) (best : Option ℕ) (i : ℕ) : Option ℕ :=
  if skip then best
  else match best with
    | none => some i
    | some b => if wins i b then some i else some b

def worstIdx (c : Ctx V) : Option (Option ℕ) :=
  (List.range c.nAssumptions).foldlM (fun worst i => (bit i).map fun b =>
    pick (c.activeMask &&& b = 0#64) (fun i w => c.priority w ≤ c.priority i) worst i) none

def bestIdx (c : Ctx V) (tried : BitVec 64) : Option ℕ :=
  (List.range (min c.nAssumptions 64)).foldl (fun best i =>
    pick (c.activeMask &&& 1#64 <<< i ≠ 0#64 ∨ tried &&& 1#64 <<< i ≠ 0#64)
      (fun i b => c.priority i < c.priority b) best i) none

/-- The answer of a solve; `undefined` when a shift went past the mask. -/
inductive Res (V : Type*)
  | ok (c : Ctx V)
  | unsat (c : Ctx V)
  | timeout (c : Ctx V)
  | undefined

def Core.res : Core V → Ctx V → Res V
  | .ok _, c => .ok c
  | .unsat, c => .unsat c
  | _, c => .timeout c

open Loop

/-- One round of the re-adding; `none` when a shift went past the mask. -/
def readdRound (E : Search V) (s : Ctx V × BitVec 64) :
    Step (Ctx V × BitVec 64) (Option (Ctx V)) :=
  match bestIdx s.1 s.2 with
  | none => .exit (some s.1)
  | some best =>
    let saved := s.1.activeMask
    match pinInactive (reset (s.1.setMask (saved ||| 1#64 <<< best))) with
    | none => .exit none
    | some c =>
      let c' :=
        if E.propagate c.calls c.value then
          match solveCore E c with
          | (.ok _,c) => c
          | (_,c) => c.setMask saved
        else c.setMask saved
      .again (c',s.2 ||| 1#64 <<< best)

def refineReaddSofts (E : Search V) (c : Ctx V) : Option (Option (Ctx V)) :=
  (loop (readdRound E) 65 (c,0#64)).map fun r =>
    r.bind fun c => (pinInactive (reset c)).map fun c => (solveCore E c).2

def relaxRound (E : Search V) (s : Ctx V × Bool) : Step (Ctx V × Bool) (Option (Res V)) :=
  match solveCore E s.1 with
  | (.aborted,c) => .exit (some (.timeout c))
  | (.ok _,c) =>
    .exit (if s.2 then (refineReaddSofts E c).map fun r => (r.map Res.ok).getD .undefined
      else some (.ok c))
  | (res,c) =>
    if c.nAssumptions = 0 ∨ c.activeMask = 0#64 then .exit (some (res.res c))
    else
      match worstIdx c with
      | none => .exit (some .undefined)
      | some none => .exit (some (res.res c))
      | some (some worst) =>
        match pinInactive (reset (c.setMask (c.activeMask &&& ~~~(1#64 <<< worst)))) with
        | none => .exit (some .undefined)
        | some c => .again (c,true)

def entryMask (c : Ctx V) : BitVec 64 :=
  if c.nAssumptions = 0 then c.activeMask
  else if 64 ≤ c.nAssumptions then BitVec.allOnes 64 else 1#64 <<< c.nAssumptions - 1#64

def solveRelax (E : Search V) (c : Ctx V) : Option (Res V) :=
  (loop (relaxRound E) 66 (c.setMask (entryMask c),false)).join

end Maxsat
end DvSolve
