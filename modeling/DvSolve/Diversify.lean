import DvSolve.NodeVal
import DvSolve.MinHeap

/-! The flip sweeps after a model is found: `_prop_cone`, `_diversify_memo` and
`_diversify_sweeps` of `dvs_bbsolver.c`.
Each candidate input is turned to a seeded target and stays there when every assertion
still holds. -/
namespace DvSolve
namespace Bbsolver

open Aig Aigsim
open Function (update)

def barred (m : Aig) (asserts : List ℤ) (id : ℕ) (b : Bool) : Bool :=
  asserts.any fun lit => lit ≠ 0 ∧ lit.natAbs ≤ m.nodes.size ∧ lit ≠ aigTrue ∧ lit ≠ aigFalse ∧
    lit.natAbs = id ∧ decide (lit < 0) = b

def gate (m : Aig) (nv : ℕ → Bool) (id : ℕ) : Bool :=
  litVal nv (leftOf m id) && litVal nv (rightOf m id)

/-- The gates that read node `c`, ascending, one that reads it twice listed twice. -/
def fanout (m : Aig) (c : ℕ) : List ℕ :=
  if c ≤ 1 then []
  else (List.range' 1 m.nodes.size).flatMap fun id =>
    if leftOf m id = 0 then []
    else (if (leftOf m id).natAbs = c then [id] else []) ++ if (rightOf m id).natAbs = c then [id] else []

structure Flip where
  nv : ℕ → Bool
  wl : ℕ → ℕ
  n : ℕ
  inq : ℕ → Bool
  trail : List ℕ

def Flip.enqueue (s : Flip) (e : ℕ) : Flip :=
  if s.inq e then s
  else { s with inq := update s.inq e true, wl := MinHeap.push s.wl s.n e, n := s.n+1 }

def coneRound (m : Aig) (asserts : List ℤ) (s : Flip) : Loop.Step Flip (Bool × Flip) :=
  if s.n = 0 then .exit (true,s)
  else
    let pn := s.wl 0
    let s := { s with
      wl := MinHeap.pop s.wl (s.n-1)
      n := s.n-1
      inq := update s.inq pn false }
    let np := gate m s.nv pn
    if np = s.nv pn then .again s
    else
      let s := { s with nv := update s.nv pn np, trail := s.trail ++ [pn] }
      if barred m asserts pn np then
        .exit (false,{ s with
          inq := (List.range s.n).foldl (fun q i => update q (s.wl i) false) s.inq })
      else .again ((fanout m pn).foldl Flip.enqueue s)

def propCone (m : Aig) (asserts : List ℤ) (s : Flip) (start : ℕ) : Option (Bool × Flip) :=
  Loop.loop (coneRound m asserts) (m.nodes.size+2) ((fanout m start).foldl Flip.enqueue s)

def toggle (nv : ℕ → Bool) (t : ℕ) : ℕ → Bool := update nv t (!nv t)

def Flip.start (s : Flip) (c : ℕ × Bool) : Flip :=
  { s with nv := update s.nv c.1 c.2, n := 0, trail := [c.1] }

def flip (m : Aig) (asserts : List ℤ) (s : Flip) (c : ℕ × Bool) : Flip :=
  if s.nv c.1 = c.2 then s
  else if barred m asserts c.1 c.2 then s
  else
    match propCone m asserts (s.start c) c.1 with
    | some (true,t) => t
    | some (false,t) => { t with nv := t.trail.foldl toggle t.nv }
    | none => s

def evalFrom (m : Aig) (asserts : List ℤ) (stop : Bool) :
    List ℕ → (ℕ → Bool) → Bool → (ℕ → Bool) × Bool
  | [], nv, ok => (nv,ok)
  | id :: ids, nv, ok =>
    let nv := if leftOf m id ≠ 0 then update nv id (gate m nv id) else nv
    if barred m asserts id (nv id) then
      if stop then (nv,false) else evalFrom m asserts stop ids nv false
    else evalFrom m asserts stop ids nv ok

def evalAll (m : Aig) (asserts : List ℤ) (stop : Bool) (nv : ℕ → Bool) : (ℕ → Bool) × Bool :=
  evalFrom m asserts stop (List.range' 1 m.nodes.size) nv true

def setInputs (inputs : List ℕ) (st : ℕ) (nv : ℕ → Bool) (id : ℕ) : Bool :=
  if id ∈ inputs then st.testBit (inputs.idxOf id) else nv id

/-- `valid` is what is known of an assignment, `nvSt` the one `nv` holds, none when stale. -/
structure Memo where
  nv : ℕ → Bool
  st : ℕ
  valid : ℕ → Option Bool
  nvSt : Option ℕ

def Memo.look (m : Aig) (asserts : List ℤ) (inputs : List ℕ) (s : Memo) (nst : ℕ) : Memo :=
  if s.valid nst = none then
    let r := evalAll m asserts true (setInputs inputs nst s.nv)
    { s with
      nv := r.1
      valid := update s.valid nst (some r.2)
      nvSt := if r.2 then some nst else none }
  else s

def Memo.visit (m : Aig) (asserts : List ℤ) (inputs : List ℕ) (s : Memo) (c : ℕ × Bool) : Memo :=
  let slot := inputs.idxOf c.1
  if s.st.testBit slot = c.2 then s
  else if barred m asserts c.1 c.2 then s
  else
    let nst := s.st ^^^ 2^slot
    let s := s.look m asserts inputs nst
    if s.valid nst = some true then { s with st := nst } else s

/-- `_diversify_memo`; `alloc` says whether the table is allocated. The second component
says whether the flips were made. -/
def diversifyMemo (m : Aig) (asserts : List ℤ) (alloc : Bool) (cand : List (ℕ × Bool))
    (inputs : List ℕ) (nv : ℕ → Bool) : (ℕ → Bool) × Bool :=
  let r := evalAll m asserts true nv
  if !r.2 then (r.1,false)
  else if !alloc then (r.1,false)
  else
    let st := Nat.ofBits fun i : Fin inputs.length => r.1 (inputs.get i)
    let s := cand.foldl (Memo.visit m asserts inputs)
      ⟨r.1,st,update (fun _ => none) st (some true),some st⟩
    if s.nvSt = some s.st then (s.nv,true)
    else ((evalAll m asserts false (setInputs inputs s.st s.nv)).1,true)

def maxNodes : ℕ := 200000

def memoBits : ℕ := 16

def sweepBudget : ℕ := 2^18

/-- What a call finds: the bits of each variable that is built, most significant first, the
switches, and the allocations that succeed (`listed` for the visit list, `slotted` for its
inputs). -/
structure Diversifier where
  asserts : List ℤ
  vars : List (Option (List ℤ))
  seed : BitVec 64
  noDiversify : Bool
  memoOff : Bool
  buffers : Bool
  scratch : Bool
  listed : Bool
  slotted : Bool
  table : Bool

def Diversifier.sweepSeed (x : Diversifier) (sw : ℕ) : BitVec 64 :=
  if sw = 0 then x.seed else freeVarFill (x.seed ^^^ 0x5851F42D4C957F2D#64) 0xFFFFFFF0 sw

def Diversifier.candidates (m : Aig) (x : Diversifier) (sseed : BitVec 64) : List (ℕ × Bool) :=
  x.vars.zipIdx.flatMap fun v =>
    (v.1.getD []).zipIdx.filterMap fun b =>
      let base := b.1.natAbs
      if base ≤ 1 ∨ base > m.nodes.size ∨ leftOf m base ≠ 0 then none
      else
        let tgt := (freeVarFill sseed v.2 b.2).getLsbD 0
        some (base,if b.1 < 0 then !tgt else tgt)

def extraSweeps (ncand sweeps : ℕ) : ℕ :=
  if ncand ≠ 0 ∧ ncand < sweepBudget then
    let nextra := (sweepBudget-ncand)/ncand
    if nextra+1 > sweeps then if sweeps ≠ 0 then sweeps-1 else 0 else nextra
  else 0

def Diversifier.visits (m : Aig) (x : Diversifier) (sweeps : ℕ) : List (ℕ × Bool) :=
  let ncand := (x.candidates m x.seed).length
  (List.range (extraSweeps ncand sweeps+1)).flatMap fun sw => x.candidates m (x.sweepSeed sw)

def Diversifier.inputs (m : Aig) (x : Diversifier) : List ℕ :=
  ((x.candidates m x.seed).map Prod.fst).foldl (fun is b => if b ∈ is then is else is ++ [b]) []

def startVal (m : Aig) (base : ℕ → Bool) : ℕ → Bool :=
  Sweep.sweep (fun nv id => if leftOf m id ≠ 0 then gate m nv id else nv id) 1 m.nodes.size
    (update base 0 false)

def Flip.fresh (nv : ℕ → Bool) : Flip := ⟨nv,fun _ => 0,0,fun _ => false,[]⟩

def flips (m : Aig) (asserts : List ℤ) (cand : List (ℕ × Bool)) (nv : ℕ → Bool) : ℕ → Bool :=
  (cand.foldl (flip m asserts) (.fresh nv)).nv

def Diversifier.Idle (m : Aig) (x : Diversifier) : Prop :=
  x.seed = 0#64 ∨ x.noDiversify = true ∨ m.nodes.size = 0 ∨ m.nodes.size > maxNodes ∨ x.buffers = false

instance (m : Aig) (x : Diversifier) : Decidable (x.Idle m) :=
  inferInstanceAs (Decidable (_ ∨ _ ∨ _ ∨ _ ∨ _))

/-- `_diversify_sweeps` from the model `base`: the new `node_val`. Without the array of inputs
the visit list is not written, and is read all the same; what is then read is undefined. -/
def diversifySweeps (m : Aig) (x : Diversifier) (sweeps : ℕ) (base : ℕ → Bool) :
    Option (ℕ → Bool) :=
  if x.Idle m then some base
  else
    let nv := startVal m base
    let cand := x.visits m sweeps
    let inputs := x.inputs m
    if !x.scratch then some nv
    else if !x.listed then some (flips m x.asserts (x.candidates m x.seed) nv)
    else if !x.slotted then if cand = [] then some nv else none
    else
      let r := if inputs.length ≤ memoBits ∧ 4*2^inputs.length ≤ cand.length ∧ !x.memoOff then
        diversifyMemo m x.asserts x.table cand inputs nv else (nv,false)
      some (if r.2 then r.1 else flips m x.asserts cand r.1)

end Bbsolver
end DvSolve
