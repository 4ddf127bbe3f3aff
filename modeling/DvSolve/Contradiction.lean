import Mathlib.Data.List.Basic

/-! Contradiction analysis: the hard constraints of a problem turned into assumptions of a copy,
and the search for a minimal set of them that is still unsatisfiable. -/
namespace DvSolve
namespace Contra

def maxCoreSize : ℕ := 256

structure ConstraintSpec (ρ : Type*) where
  root : ρ
  constraintId : ℕ

structure SoftSpec (ρ : Type*) where
  root : ρ
  priority : ℕ
  constraintId : ℕ

/-- `dvs_problem_t`, with its lists newest first. The frame is what every copy takes over as it
is: the variables, the all-differents and the dists. -/
structure Problem (β ρ : Type*) where
  frame : β
  constraints : List (ConstraintSpec ρ)
  softs : List (SoftSpec ρ)
  nextConstraintId : ℕ

variable {β ρ : Type*}

def Problem.bare (p : Problem β ρ) : Problem β ρ := ⟨p.frame,[],[],0⟩

def problemAddConstraint (p : Problem β ρ) (root : ρ) : Problem β ρ :=
  { p with
    constraints := ⟨root,p.nextConstraintId + 1⟩ :: p.constraints
    nextConstraintId := p.nextConstraintId + 1 }

def problemAddSoftConstraint (p : Problem β ρ) (root : ρ) (priority id : ℕ) : Problem β ρ :=
  { p with softs := ⟨root,priority,id⟩ :: p.softs }

structure GatedProblem (β ρ : Type*) where
  sp : Problem β ρ
  nHard : ℕ
  cidMap : ℕ → ℕ

def gateConstraint (g : Problem β ρ × ℕ × (ℕ → ℕ)) (cs : ConstraintSpec ρ) :
    Problem β ρ × ℕ × (ℕ → ℕ) :=
  (problemAddSoftConstraint g.1 cs.root g.2.1 cs.constraintId,g.2.1 + 1,
    fun i => if i = g.2.1 then cs.constraintId else g.2.2 i)

def swapEnds (n : ℕ) (m : ℕ → ℕ) (i : ℕ) : ℕ → ℕ := fun j =>
  if j = i then m (n - 1 - i) else if j = n - 1 - i then m i else m j

def reverseMap (n : ℕ) (m : ℕ → ℕ) : ℕ → ℕ := (List.range (n / 2)).foldl (swapEnds n) m

def buildGatedProblem (orig : Problem β ρ) : GatedProblem β ρ :=
  let g := orig.constraints.foldl gateConstraint (orig.bare,0,fun _ => 0)
  ⟨g.1,orig.constraints.length,reverseMap orig.constraints.length g.2.2⟩

structure Solver (β ρ : Type*) where
  /-- `dvs_solver_compile` returned −2. A soft constraint is compiled behind its assumption and
  what comes of it is not looked at, so the frame and the hard constraints decide. -/
  conflict : β → List ρ → Bool
  /-- `dvs_solver_solve` returned OK, with these assumptions at 1 and the others at 0. -/
  solve : Problem β ρ → List ℕ → Bool

/-- The assumptions that `_is_sat` does not pin to 0. The shift `1ULL << i` is undefined from
64 on: `wide` is whether the bit is then found in the mask, if it is anything. -/
def activeAssumptions (wide : BitVec 64 → ℕ → Option Bool) (mask : BitVec 64) :
    ℕ → Option (List ℕ)
  | 0 => some []
  | n + 1 => (activeAssumptions wide mask n).bind fun l =>
    (if n < 64 then some (mask.getLsbD n) else wide mask n).map fun on : Bool =>
      if on then l ++ [n] else l

def isSat (wide : BitVec 64 → ℕ → Option Bool) (S : Solver β ρ) (sp : Problem β ρ)
    (mask : BitVec 64) : Option Bool :=
  (activeAssumptions wide mask sp.softs.length).map (S.solve sp)

def activateSet (mask : BitVec 64) (indices : List ℕ) : BitVec 64 :=
  indices.foldl (fun m i => if i < 64 then m ||| 1#64 <<< i else m) mask

structure Found where
  out : List ℕ
  calls : ℕ

/-- `_quickxplain`; `stop` says whether the budget or the deadline ends it after so many
queries. -/
def quickxplain (sat : BitVec 64 → Option Bool) (stop : ℕ → Bool) (maxOut : ℕ)
    (bg cand : List ℕ) (st : Found) : Option Found :=
  if stop st.calls then some st
  else if maxOut ≤ st.out.length ∨ cand.length = 0 then some st
  else if cand.length = 1 then
    (sat (activateSet 0#64 bg)).map fun r : Bool =>
      ⟨if r ∧ st.out.length < maxOut then st.out ++ cand else st.out,st.calls + 1⟩
  else
    let mid := cand.length / 2
    let c1 := cand.take mid
    let c2 := cand.drop mid
    (sat (activateSet (activateSet 0#64 bg) c1)).bind fun r =>
      let st := { st with calls := st.calls + 1 }
      if r then
        (quickxplain sat stop maxOut (bg ++ c1) c2 st).bind fun st₂ =>
          quickxplain sat stop maxOut (bg ++ st₂.out.drop st.out.length) c1 st₂
      else quickxplain sat stop maxOut bg c1 st
termination_by cand.length
decreasing_by all_goals simp only [List.length_take,List.length_drop]; omega

/-- The mask of the members still `necessary`, without the one at `i`. -/
def necessaryMask (core : List ℕ) (necessary : ℕ → Bool) (i : ℕ) : BitVec 64 :=
  (List.range core.length).foldl (fun m j =>
    if j ≠ i ∧ necessary j ∧ core.getD j 0 < 64 then m ||| 1#64 <<< core.getD j 0 else m) 0#64

def deletionFlags (sat : BitVec 64 → Option Bool) (core : List ℕ) : ℕ → Option (ℕ → Bool)
  | 0 => some fun _ => true
  | n + 1 => (deletionFlags sat core n).bind fun necessary =>
    (sat (necessaryMask core necessary n)).map fun r =>
      if r then necessary else fun j => if j = n then false else necessary j

def deletionMus (sat : BitVec 64 → Option Bool) (core : List ℕ) (maxOut calls : ℕ) :
    Option Found :=
  (deletionFlags sat core core.length).map fun necessary =>
    ⟨(((List.range core.length).filter necessary).map fun j => core.getD j 0).take maxOut,
      calls + core.length⟩

structure ContraOpts where
  /-- The budget or the deadline ends the minimisation after so many queries. -/
  stop : ℕ → Bool
  skipMinimization : Bool

structure ContraResult where
  musIndices : List ℕ
  musConstraintIds : List ℕ
  coreSize : ℕ
  nSolverCalls : ℕ

/-- The problem without the constraint of assumption `i`, from a walk of the list. -/
def withoutConstraint (p : Problem β ρ) (nHard i : ℕ) : Problem β ρ :=
  (p.constraints.foldl (fun (t : Problem β ρ × ℕ) cs =>
    (if t.2 ≠ nHard - 1 - i then problemAddConstraint t.1 cs.root else t.1,t.2 + 1))
    (p.bare,0)).1

def Problem.refused (S : Solver β ρ) (p : Problem β ρ) : Bool :=
  S.conflict p.frame (p.constraints.map (·.root))

def stillUnsat (S : Solver β ρ) (tsub : Problem β ρ) : Bool :=
  tsub.refused S || !S.solve tsub []

def compileTimeMus (S : Solver β ρ) (p : Problem β ρ) (nHard : ℕ) : List ℕ :=
  (List.range (min nHard maxCoreSize)).filter fun i => !stillUnsat S (withoutConstraint p nHard i)

def reportIds (g : GatedProblem β ρ) (coreSize : ℕ) (st : Found) : ContraResult :=
  ⟨st.out,st.out.map g.cidMap,coreSize,st.calls⟩

def contraAnalyzeUnsat (wide : BitVec 64 → ℕ → Option Bool) (S : Solver β ρ) (o : ContraOpts)
    (p : Problem β ρ) : Option ContraResult :=
  let g := buildGatedProblem p
  if g.sp.refused S then
    some (reportIds g g.nHard ⟨compileTimeMus S p g.nHard,min g.nHard maxCoreSize⟩)
  else
    (isSat wide S g.sp (if g.nHard < 64 then 1#64 <<< g.nHard - 1#64 else BitVec.allOnes 64)).bind
      fun r =>
        if r then some (reportIds g 0 ⟨[],1⟩)
        else
          let core := List.range (min g.nHard maxCoreSize)
          if o.skipMinimization then some (reportIds g core.length ⟨core,1⟩)
          else if core.length ≤ 4 then
            (deletionMus (isSat wide S g.sp) core maxCoreSize 1).map (reportIds g core.length)
          else
            (quickxplain (isSat wide S g.sp) o.stop maxCoreSize [] core ⟨[],1⟩).map
              (reportIds g core.length)

end Contra
end DvSolve
