import DvSolve.ScopedLog

/-! The oracle's mirror of a context.
An attached context is mirrored as SMT-LIB text (dvs_oracle.c): a base written by
the compile and a log of entries tagged with the checkpoint depth they were made
at. Beside it stands the book of what the context itself holds, kept by the
solver's own rules: marks taken at a checkpoint, a log of the bounds a scope set,
the variable slots, which a restore leaves as they are. -/
namespace DvSolve
namespace Oracle
open Function

structure Ty where
  width : ℕ
  signed : Bool
deriving DecidableEq, Repr

def signedValue (w u : ℕ) : ℤ := if 2^(w-1) ≤ u then (u : ℤ)-2^w else u

def Ty.read (t : Ty) (u : ℕ) : ℤ :=
  if t.signed = true ∨ t.width = 64 then signedValue t.width u else u

def Ty.Has (t : Ty) (value : BitVec 64) : Prop :=
  if t.width = 64 then True
  else if t.signed then -2^(t.width-1) ≤ value.toInt ∧ value.toInt < 2^(t.width-1)
  else 0 ≤ value.toInt ∧ value.toInt < 2^t.width

def emitValue (value : ℤ) (w : ℕ) : ℕ := (value % 2^w).toNat

structure VarSpec where
  id : ℕ
  width : ℕ
  signed : Bool
  aux : Bool
  lo : BitVec 64
  hi : BitVec 64

def VarSpec.ty (v : VarSpec) : Ty := ⟨v.width,v.signed⟩

/-- The declared range: the bounds of an unsigned 64-bit variable are patterns. -/
def VarSpec.Admits (v : VarSpec) (u : ℕ) : Prop :=
  if v.width = 64 ∧ v.signed = false then v.lo.toNat ≤ u ∧ u ≤ v.hi.toNat
  else v.lo.toInt ≤ v.ty.read u ∧ v.ty.read u ≤ v.hi.toInt

abbrev Valuation := ℕ → ℕ

/-- A problem: its declarations, and what its hard constraints say when the variables
they name have the given types. -/
structure Problem where
  vars : List VarSpec
  uses : List ℕ
  hard : (ℕ → Option Ty) → Valuation → Prop
  hard_congr : ∀ ty ty' σ σ', (∀ id ∈ uses, ty id = ty' id ∧ σ id = σ' id) →
    (hard ty σ ↔ hard ty' σ')

/-- A command of the script: a declaration, the range of a variable, an equation or
disequation with a value, and what the expression emitter writes for a constraint
(the functions it defines, the variables it names at their widths). -/
inductive Cmd
  | declare (id w : ℕ)
  | range (id w : ℕ) (signed : Bool) (lo hi : ℕ)
  | never
  | equal (id value w : ℕ)
  | distinct (id value w : ℕ)
  | term (names : List ℕ) (uses : List (ℕ × ℕ)) (holds : Valuation → Prop)

def Cmd.Holds (σ : Valuation) : Cmd → Prop
  | .declare id w => σ id < 2^w
  | .range id w true lo hi =>
    signedValue w lo ≤ signedValue w (σ id) ∧ signedValue w (σ id) ≤ signedValue w hi
  | .range id _ false lo hi => lo ≤ σ id ∧ σ id ≤ hi
  | .never => False
  | .equal id value _ => σ id = value
  | .distinct id value _ => σ id ≠ value
  | .term _ _ holds => holds σ

def Cmd.names : Cmd → List ℕ
  | .term names _ _ => names
  | _ => []

/-- What is declared after a command; `none` when it redeclares a variable or uses one
that is not declared at that width. -/
def Cmd.scan (known : ℕ → Option ℕ) : Cmd → Option (ℕ → Option ℕ)
  | .declare id w => if known id = none ∧ 0 < w then some (update known id (some w)) else none
  | .range id w _ _ _ | .equal id _ w | .distinct id _ w =>
    if known id = some w then some known else none
  | .never => some known
  | .term _ uses _ => if ∀ u ∈ uses, known u.1 = some u.2 then some known else none

def scan (known : ℕ → Option ℕ) : List Cmd → Option (ℕ → Option ℕ)
  | [] => some known
  | c::cs => (c.scan known).bind (fun known' => scan known' cs)

/-- Each variable is declared once and before its uses, each function defined once. -/
def WellFormed (script : List Cmd) : Prop :=
  (scan (fun _ => none) script).isSome ∧ (script.flatMap Cmd.names).Nodup

def Models (script : List Cmd) (σ : Valuation) : Prop := ∀ c ∈ script, c.Holds σ

def emitVarDecl (id width : ℕ) (signed : Bool) (lo hi : BitVec 64) : List Cmd :=
  let w := if width = 0 then 1 else width
  .declare id w ::
    if 64 < w then []
    else if (if w = 64 then
          (if signed then lo = BitVec.intMin 64 ∧ hi = BitVec.intMax 64 else lo = 0 ∧ hi = -1)
        else if signed then lo.toInt ≤ -2^(w-1) ∧ 2^(w-1)-1 ≤ hi.toInt
        else lo.toInt ≤ 0 ∧ 2^w-1 ≤ hi.toInt) then []
    else if w < 64 then
      -- an out-of-type bound is clamped to the type
      let lo' := max lo.toInt (if signed then -2^(w-1) else 0)
      let hi' := min hi.toInt (if signed then 2^(w-1)-1 else 2^w-1)
      if hi' < lo' then [.never] else [.range id w signed (emitValue lo' w) (emitValue hi' w)]
    else [.range id w signed (emitValue lo.toInt w) (emitValue hi.toInt w)]

structure Emission where
  text : List Cmd
  defs : ℕ
  failed : Bool

abbrev Emitter := (ℕ → Option Ty) → ℕ → Problem → Emission

/-- A faithful emitter fails on a variable without a type; otherwise it writes terms over
the variables of the constraints, at their types, that say what the constraints say. -/
structure Emitter.Faithful (emit : Emitter) : Prop where
  typed : ∀ ty n p, (emit ty n p).failed = false → ∀ id ∈ p.uses, (ty id).isSome
  terms : ∀ ty n p, (emit ty n p).failed = false → ∀ c ∈ (emit ty n p).text,
    ∃ names uses holds, c = .term names uses holds ∧
      ∀ u ∈ uses, u.1 ∈ p.uses ∧ (ty u.1).map Ty.width = some u.2
  counter : ∀ ty n p, n ≤ (emit ty n p).defs
  names : ∀ ty n p, ((emit ty n p).text.flatMap Cmd.names).Nodup ∧
    ∀ k ∈ (emit ty n p).text.flatMap Cmd.names, n ≤ k ∧ k < (emit ty n p).defs
  meaning : ∀ ty n p, (emit ty n p).failed = false →
    ∀ σ, (∀ id ∈ p.uses, ∀ t, ty id = some t → σ id < 2^t.width) →
      (Models (emit ty n p).text σ ↔ p.hard ty σ)

structure OVar where
  ty : Ty
  aux : Bool
  depth : ℕ
deriving DecidableEq, Repr

inductive Kind
  | add | pin | excl
deriving DecidableEq, Repr

structure OEntry where
  kind : Kind
  depth : ℕ
  text : List Cmd

structure Octx where
  compiled : Bool
  broken : Bool
  base : List Cmd
  vars : ℕ → Option OVar
  nVars : ℕ
  entries : List OEntry
  depth : ℕ
  defs : ℕ

def Octx.fresh : Octx := ⟨false,false,[],fun _ => none,0,[],0,0⟩

def Octx.types (c : Octx) (id : ℕ) : Option Ty := (c.vars id).map OVar.ty

def DVS_COMPILE_UNSAT : ℤ := -2

def Taken (rc : ℤ) : Prop := 0 ≤ rc ∨ rc = DVS_COMPILE_UNSAT

instance (rc : ℤ) : Decidable (Taken rc) := inferInstanceAs (Decidable (_ ∨ _))

def Octx.declare (c : Octx) : List VarSpec → Octx × List Cmd
  | [] => (c,[])
  | v::vs =>
    if 64 < v.width then Octx.declare { c with broken := true } vs
    else if (c.vars v.id).isSome then c.declare vs
    else
      let w := if v.width = 0 then 1 else v.width
      let r := Octx.declare { c with
        vars := update c.vars v.id (some ⟨⟨w,v.signed⟩,v.aux,c.depth⟩)
        nVars := max c.nVars (v.id+1) } vs
      (r.1,emitVarDecl v.id w v.signed v.lo v.hi ++ r.2)

def Octx.emit (emit : Emitter) (c : Octx) (p : Problem) : Octx × List Cmd :=
  let e := emit c.types c.defs p
  ({ c with defs := e.defs, broken := c.broken || e.failed },e.text)

def Octx.push (c : Octx) (kind : Kind) (depth : ℕ) (text : List Cmd) : Octx :=
  { c with entries := c.entries++[⟨kind,depth,text⟩] }

def onCompile (emit : Emitter) (p : Problem) (rc : ℤ) : Octx :=
  let d := Octx.declare { Octx.fresh with compiled := true } p.vars
  let e := d.1.emit emit p
  { e.1 with base := d.2++e.2, broken := e.1.broken || ¬ Taken rc }

def Octx.onReset (c : Octx) : Octx :=
  if c.depth ≠ 0 then c else { c with entries := c.entries.filter (fun e => e.kind ≠ .pin) }

def Octx.onPin (c : Octx) (id : ℕ) (value : BitVec 64) (ok : Bool) : Octx :=
  if ok then
    match c.vars id with
    | none => { c with broken := true }
    | some v => c.push .pin c.depth [.equal id (emitValue value.toInt v.ty.width) v.ty.width]
  else c

def Octx.onExclude (c : Octx) (id : ℕ) (value : BitVec 64) (ok : Bool) : Octx :=
  if ok then
    match c.vars id with
    | none => { c with broken := true }
    | some v => c.push .excl 0 [.distinct id (emitValue value.toInt v.ty.width) v.ty.width]
  else c

def Octx.onAdd (emit : Emitter) (c : Octx) (p : Problem) (rc : ℤ) : Octx :=
  if Taken rc then
    let d := c.declare p.vars
    let e := d.1.emit emit p
    e.1.push .add e.1.depth (d.2++e.2)
  else c

def Octx.onCheckpoint (c : Octx) (cp : ℕ) : Octx := { c with depth := cp+1 }

def Octx.onRestore (c : Octx) (cp : ℕ) : Octx :=
  if c.depth ≤ cp then c
  else { c with
    entries := c.entries.filter (fun e => e.depth ≤ cp)
    vars := fun id => (c.vars id).filter (fun v => v.depth ≤ cp)
    depth := cp }

def Octx.script (c : Octx) : List Cmd := c.base ++ c.entries.flatMap OEntry.text

def Octx.valuePin (c : Octx) (value : ℕ → BitVec 64) (id : ℕ) : List Cmd :=
  match c.vars id with
  | none => []
  | some v => if v.aux then [] else [.equal id (emitValue (value id).toInt v.ty.width) v.ty.width]

def Octx.valuePins (c : Octx) (value : ℕ → BitVec 64) : List Cmd :=
  (List.range c.nVars).flatMap (c.valuePin value)

structure Pin where
  id : ℕ
  value : BitVec 64
  left : Option (Valuation → Prop)

structure Mark where
  nVars : ℕ
  nAdds : ℕ
  nPins : ℕ
deriving DecidableEq, Repr

/-- Bits of a declared word for which the compile made a variable of its own. -/
structure Field where
  word : ℕ
  lo : ℕ
  width : ℕ
deriving DecidableEq, Repr

def Field.read (f : Field) (σ : Valuation) : ℕ := σ f.word / 2^f.lo % 2^f.width

/-- The context: `slots` are the variable records a problem declared (a restore lowers
`nVars` and leaves them), `fields` the compile's own variables that bear the same flag,
`trail` the pins on the trail, `scopeLog` the pins made in a scope that is still open
with its depth, `excluded` the exclusions answered 0 since the compile, `holes` those of
them that are recorded, `snapshot` whether there is a state to reset to. -/
structure Book where
  nVars : ℕ
  slots : ℕ → Option VarSpec
  fields : ℕ → Option Field
  base : List Problem
  adds : List Problem
  trail : List Pin
  scopeLog : List (ℕ × Pin)
  excluded : List (ℕ × BitVec 64)
  holes : List (ℕ × BitVec 64)
  marks : List Mark
  snapshot : Bool
  log_open : ∀ e ∈ scopeLog, 0 < e.1 ∧ e.1 ≤ marks.length

def Book.declared (b : Book) (id : ℕ) : Option VarSpec := if id < b.nVars then b.slots id else none

def Book.types (b : Book) (id : ℕ) : Option Ty :=
  match b.fields id with
  | some f => some ⟨f.width,false⟩
  | none => (b.declared id).map VarSpec.ty

/-- A field has the bits of its word. -/
def Book.spread (b : Book) (σ : Valuation) (id : ℕ) : ℕ :=
  match b.fields id with
  | some f => f.read σ
  | none => σ id

def Pin.Holds (ty : ℕ → Option Ty) (σ : Valuation) (q : Pin) : Prop :=
  match q.left with
  | none => ∀ t, ty q.id = some t → t.read (σ q.id) = q.value.toInt
  | some left => left σ

def Book.Stands (b : Book) (σ : Valuation) : Prop :=
  (∀ id v, b.declared id = some v → σ id < 2^v.width ∧ v.Admits (σ id)) ∧
    ∀ p ∈ b.base++b.adds, p.hard b.types (b.spread σ)

structure Book.Holds (b : Book) (σ : Valuation) : Prop where
  stands : b.Stands σ
  pins : ∀ q ∈ b.trail, q.Holds b.types (b.spread σ)
  holes : ∀ h ∈ b.holes, ∀ t, b.types h.1 = some t → t.read (b.spread σ h.1) ≠ h.2.toInt

/-- The declarations and constraints that stand as long as a variable does: those made
before the first checkpoint opened after it. -/
def Book.home (b : Book) (id : ℕ) : Book :=
  { b with
    nVars := ((b.marks.find? (fun m => id < m.nVars)).map Mark.nVars).getD b.nVars
    adds := b.adds.take (((b.marks.find? (fun m => id < m.nVars)).map Mark.nAdds).getD b.adds.length) }

def Book.RulesOut (b : Book) (id : ℕ) (value : BitVec 64) : Prop :=
  ∀ σ, (b.home id).Stands σ → ∀ t, b.types id = some t → t.read (b.spread σ id) ≠ value.toInt

structure Book.Idle (b : Book) : Prop where
  base : b.base = []
  adds : b.adds = []
  trail : b.trail = []
  holes : b.holes = []
  marks : b.marks = []

def want (n : ℕ) (vs : List VarSpec) : ℕ := vs.foldl (fun w v => max w (v.id+1)) n

def initSlot (n : ℕ) (slots : ℕ → Option VarSpec) (v : VarSpec) : ℕ → Option VarSpec :=
  if n ≤ v.id then update slots v.id (some v) else slots

/-- The slots after `vs` are initialised from `n` on; the solver's own variables follow
the declared ones, up to `m`. -/
def initSlots (n m : ℕ) (vs : List VarSpec) (slots : ℕ → Option VarSpec) (i : ℕ) :
    Option VarSpec :=
  if want n vs ≤ i ∧ i < m then none else (vs.foldl (initSlot n) slots) i

/-- An id the context has is accepted when it bears the declared flag, at its width. -/
def Book.Accepts (b : Book) (p : Problem) : Prop :=
  ∀ v ∈ p.vars,
    if v.id < b.nVars then
      (∃ d, b.slots v.id = some d ∧ d.width = v.width) ∨
        ∃ f, b.fields v.id = some f ∧ f.width = v.width
    else 0 < v.width ∧ v.width ≤ 64

/-- What a call leaves that stops before its end, or leaves constraints uncompiled: what
stays, what the bounds on the trail ask, and what the scope has logged of them. -/
structure Part where
  posted : Problem
  bounds : Valuation → Prop
  logged : Valuation → Prop

/-- A call to the solver with its result. The context decides the results, how many
variables it has afterwards (`n`) and which are fields, what a call leaves that does not
take the whole problem over (`part`; one answered UNSAT may have stopped while it
compiles), the initial domain an exclusion is compared with, and how often a solve resets
it. -/
inductive Call
  | compile (p : Problem) (rc : ℤ) (n : ℕ) (fields : ℕ → Option Field) (part : Option Part)
  | add (p : Problem) (rc : ℤ) (n : ℕ) (part : Option Part)
  | pin (id : ℕ) (value : BitVec 64) (ok : Bool) (left : Option (Valuation → Prop))
  | exclude (id : ℕ) (value : BitVec 64) (ok : Bool) (lo hi : BitVec 64)
  | checkpoint (ok : Bool)
  | restore (cp : ℕ)
  | reset
  | solve (resets : ℕ)

/-- The results the solver can give. A compile takes the ids 0..n-1, each once, into
empty slots. -/
def Book.Allows (b : Book) : Call → Prop
  | .compile p rc n fields part => (rc = 0 → part = none) ∧
      (rc = DVS_COMPILE_UNSAT → p.vars ≠ []) ∧ (Taken rc → p.vars ≠ [] →
      (p.vars.map VarSpec.id).Nodup ∧ p.vars.length ≤ n ∧
      (∀ v ∈ p.vars, v.id < p.vars.length ∧ 0 < v.width ∧ v.width ≤ 64 ∧ b.slots v.id = none) ∧
      ∀ i f, fields i = some f → p.vars.length ≤ i ∧ i < n ∧ f.word < p.vars.length)
  | .add p rc n part => (rc = 0 → part = none) ∧
      (Taken rc ∨ part.isSome → b.Accepts p ∧ want b.nVars p.vars ≤ n)
  | .pin id _ ok _ => ok = true → id < b.nVars
  | .exclude id _ ok _ _ => ok = true → id < b.nVars
  | _ => True

def Book.logged (b : Book) (q l : Pin) : Book :=
  { b with
    trail := b.trail++[q]
    scopeLog := if b.marks = [] then b.scopeLog else b.scopeLog++[(b.marks.length,l)]
    log_open := by
      intro e he
      split at he
      · exact b.log_open e he
      · rename_i hne
        rcases List.mem_append.mp he with he | he
        · exact b.log_open e he
        · rw [List.mem_singleton.mp he]
          exact ⟨List.length_pos_iff.mpr hne,le_rfl⟩ }

def Book.stopped (b : Book) (q : Part) : Book :=
  { b with adds := b.adds++[q.posted] }.logged ⟨0,0,some q.bounds⟩ ⟨0,0,some q.logged⟩

/-- A new problem in empty slots. One without variables is not looked at, and nothing is
said of a context whose compile failed. -/
def Book.compile (b : Book) (p : Problem) (rc : ℤ) (n : ℕ) (fields : ℕ → Option Field)
    (part : Option Part) : Book :=
  if p.vars = [] then { b with nVars := 0, excluded := [] }
  else if Taken rc then
    let made := { b with
      nVars := n, slots := initSlots 0 n p.vars b.slots, fields := fields, excluded := [] }
    match part with
    | some q => { made with snapshot := b.snapshot || 0 ≤ rc }.stopped q
    | none => { made with base := b.base++[p], snapshot := true }
  else b

def Book.add (b : Book) (p : Problem) (rc : ℤ) (n : ℕ) (part : Option Part) : Book :=
  let made := { b with nVars := n, slots := initSlots b.nVars n p.vars b.slots }
  match part with
  | some q => made.stopped q
  | none => if Taken rc then { made with adds := b.adds++[p] } else b

def Book.pin (b : Book) (id : ℕ) (value : BitVec 64) (ok : Bool)
    (left : Option (Valuation → Prop)) : Book :=
  if b.nVars ≤ id then b
  else if ok then b.logged ⟨id,value,none⟩ ⟨id,value,none⟩
  else
    match left with
    | none => b
    | some P => b.logged ⟨id,value,some P⟩ ⟨id,value,some P⟩

/-- A value that is a hole already, or outside the initial domain as 64-bit integers, is
accepted and not recorded. -/
def Book.exclude (b : Book) (id : ℕ) (value : BitVec 64) (ok : Bool) (lo hi : BitVec 64) : Book :=
  if ok then
    { b with
      excluded := b.excluded++[(id,value)]
      holes :=
        if (id,value) ∈ b.holes ∨ value.toInt < lo.toInt ∨ hi.toInt < value.toInt then b.holes
        else b.holes++[(id,value)] }
  else b

def Book.checkpoint (b : Book) : Book :=
  { b with
    marks := b.marks++[⟨b.nVars,b.adds.length,b.trail.length⟩]
    log_open := fun e he => by
      have := b.log_open e he
      rw [List.length_append]
      omega }

theorem restored_log (b : Book) (cp : ℕ) : ∀ e ∈ b.scopeLog.filter (fun e => e.1 ≤ cp),
    0 < e.1 ∧ e.1 ≤ (b.marks.take cp).length := by
  intro e he
  obtain ⟨hmem,hle⟩ := List.mem_filter.mp he
  have hb := b.log_open e hmem
  simp only [decide_eq_true_eq] at hle
  rw [List.length_take]
  omega

def Book.restore (b : Book) (cp : ℕ) : Book :=
  match b.marks[cp]? with
  | none => b
  | some m => { b with
      nVars := m.nVars
      adds := b.adds.take m.nAdds
      trail := b.trail.take m.nPins
      scopeLog := b.scopeLog.filter (fun e => e.1 ≤ cp)
      holes := b.holes.filter (fun h => h.1 < m.nVars)
      marks := b.marks.take cp
      log_open := restored_log b cp }

def Book.reset (b : Book) : Book :=
  if b.snapshot = false then b
  else
    match b.marks.getLast? with
    | none => { b with trail := [] }
    | some m => { b with
        trail := b.trail.take m.nPins ++
          (b.scopeLog.filter (fun e => e.1 = b.marks.length)).map Prod.snd }

def step (emit : Emitter) (w : Octx × Book) : Call → Octx × Book
  | .compile p rc n fields part => (onCompile emit p rc,w.2.compile p rc n fields part)
  | .add p rc n part => (w.1.onAdd emit p rc,w.2.add p rc n part)
  | .pin id value ok left => (w.1.onPin id value ok,w.2.pin id value ok left)
  | .exclude id value ok lo hi => (w.1.onExclude id value ok,w.2.exclude id value ok lo hi)
  | .checkpoint ok => if ok then (w.1.onCheckpoint w.2.marks.length,w.2.checkpoint) else w
  | .restore cp => (if cp < w.2.marks.length then w.1.onRestore cp else w.1,w.2.restore cp)
  | .reset => (w.1.onReset,w.2.reset)
  | .solve resets => (Octx.onReset^[resets] w.1,Book.reset^[resets] w.2)

inductive Run (emit : Emitter) (Cond : Book → Call → Prop) (b₀ : Book) : Octx × Book → Prop
  | start : Run emit Cond b₀ (Octx.fresh,b₀)
  | call {w : Octx × Book} {a : Call} : Run emit Cond b₀ w → w.2.Allows a → Cond w.2 a →
    Run emit Cond b₀ (step emit w a)

/-- The script of a check is well formed and its models are the assignments that satisfy
what the context holds, also with a solution's values pinned. -/
def Agrees (c : Octx) (b : Book) : Prop :=
  WellFormed c.script ∧ (∀ σ, Models c.script σ ↔ b.Holds σ) ∧
  ∀ value : ℕ → BitVec 64, WellFormed (c.script++c.valuePins value) ∧
    ∀ σ, Models (c.script++c.valuePins value) σ ↔ b.Holds σ ∧
      ∀ id v, b.declared id = some v → v.aux = false → σ id = emitValue (value id).toInt v.width

end Oracle
end DvSolve
