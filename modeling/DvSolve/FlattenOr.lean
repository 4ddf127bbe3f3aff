import DvSolve.ValidateSem

/-! Disjunctions of comparisons as the compiler collects them: `_flatten_or` and
`_classify_or_leaf`, against the truth the validator reports. -/
namespace DvSolve
namespace FlattenOr

open TwosComp Sv
open Validate (Sized sliceHeld)

variable {op : BinOp} {innerW : ℕ} {x k : Expr}

structure VarSpec where
  varId : ℕ
  width : ℕ
  isSigned : Bool
  deriving DecidableEq, Repr

/-- `OrClause`; without `rhsVarId` the right side is the constant. -/
structure OrClause where
  varId : ℕ
  op : BinOp
  constant : ℤ
  rhsVarId : Option ℕ
  deriving DecidableEq, Repr

def isConst : Expr → Option ℤ
  | .const value _ _ => some value
  | _ => none

/-- `_is_var_maybe_extend`: the variable, the width it is extended from (0 without an extend)
and whether the extend is signed. -/
def isVarMaybeExtend : Expr → Option (ℕ × ℕ × Bool)
  | .var id => some (id,0,false)
  | .extend (.var id) fromBits _ signExtend => some (id,fromBits,signExtend)
  | _ => none

def varDecl (vars : List VarSpec) (vid : ℕ) : Option VarSpec := vars.find? fun v => v.varId = vid

def orLeafVar (vars : List VarSpec) (e : Expr) : Option ℕ :=
  (isVarMaybeExtend e).bind fun (vid,innerW,signExt) =>
    if innerW > 0 then
      if signExt then none
      else (varDecl vars vid).bind fun d =>
        if d.isSigned then none else if innerW < d.width then none else some vid
    else some vid

def flipCmp : BinOp → BinOp
  | .eq => .neq
  | .neq => .eq
  | .lt => .gte
  | .lte => .gt
  | .gt => .lte
  | .gte => .lt
  | op => op

def swapCmp : BinOp → BinOp
  | .lt => .gt
  | .lte => .gte
  | .gt => .lt
  | .gte => .lte
  | op => op

def tryFoldExtendCmp (op : BinOp) (cv : ℤ) (innerW : ℕ) : Option Bool :=
  if innerW = 0 ∨ innerW ≥ 64 then none
  else
    let innerMax : ℤ := 2^innerW-1
    let ucv := cv % 2^64
    match op with
    | .lt => if ucv > innerMax then some true else if ucv = 0 then some false else none
    | .lte => if ucv ≥ innerMax then some true else none
    | .gt => if ucv ≥ innerMax then some false else none
    | .gte => if ucv > innerMax then some false else if ucv = 0 then some true else none
    | .eq => if ucv > innerMax then some false else none
    | .neq => if ucv > innerMax then some true else none
    | _ => none

/-- `cv` under the mask of `innerW` bits; `wide` is what the machine gives for `1 << innerW`
from 64 on, where the language leaves it open. -/
def maskConst (wide : ℕ → ℕ) (cv : ℤ) (innerW : ℕ) : ℤ :=
  let mask := if innerW < 64 then 2^innerW-1 else pat ((wide innerW : ℤ)-1) 64
  wrap ((pat cv 64 &&& mask : ℕ) : ℤ) 64 true

inductive Leaf
  | unsupported
  | truth (b : Bool)
  | clause (c : OrClause)
  deriving DecidableEq, Repr

def Leaf.flip : Leaf → Leaf
  | .unsupported => .unsupported
  | .truth b => .truth !b
  | .clause c => .clause {c with op := flipCmp c.op}

def varConst (wide : ℕ → ℕ) (op : BinOp) (cv : ℤ) : ℕ × ℕ × Bool → Leaf
  | (vid,innerW,signExt) =>
    if innerW > 0 ∧ !signExt then
      match tryFoldExtendCmp op cv innerW with
      | some b => .truth b
      | none => .clause ⟨vid,op,maskConst wide cv innerW,none⟩
    else if innerW > 0 ∧ signExt then .unsupported
    else .clause ⟨vid,op,cv,none⟩

def classifyCmp (wide : ℕ → ℕ) (vars : List VarSpec) (op : BinOp) (l r : Expr) : Leaf :=
  match isVarMaybeExtend l,isConst r with
  | some v,some cv => varConst wide op cv v
  | _,_ =>
    match isConst l,isVarMaybeExtend r with
    | some cv,some v => varConst wide (swapCmp op) cv v
    | _,_ =>
      match orLeafVar vars l,orLeafVar vars r with
      | some vid,some vid2 => .clause ⟨vid,op,0,some vid2⟩
      | _,_ => .unsupported

def classifyOrLeaf (wide : ℕ → ℕ) (vars : List VarSpec) : Expr → ℕ → Leaf
  | .const value _ _, depth => if depth > 64 then .unsupported else .truth (value ≠ 0)
  | .unary op x, depth =>
    if depth > 64 ∨ op ≠ .not then .unsupported
    else (classifyOrLeaf wide vars x (depth+1)).flip
  | .ite c t e, depth =>
    if depth > 64 then .unsupported
    else if isConst t = some 1 ∧ isConst e = some 0 then classifyOrLeaf wide vars c (depth+1)
    else if isConst t = some 0 ∧ isConst e = some 1 then
      (classifyOrLeaf wide vars c (depth+1)).flip
    else .unsupported
  | .binary op l r, depth =>
    if depth > 64 ∨ !op.isCmp then .unsupported else classifyCmp wide vars op l r
  | _, _ => .unsupported

structure Out where
  cells : ℕ → OrClause
  anyTrue : Bool

def flattenLeaf (wide : ℕ → ℕ) (vars : List VarSpec) (e : Expr) (pos maxClauses : ℕ) (o : Out) :
    Option ℕ × Out :=
  match classifyOrLeaf wide vars e 0 with
  | .truth b => (some 0,if b then {o with anyTrue := true} else o)
  | .unsupported => (none,o)
  | .clause c =>
    if maxClauses < 1 then (none,o)
    else (some 1,{o with cells := Function.update o.cells pos c})

def flattenOr (wide : ℕ → ℕ) (vars : List VarSpec) : Expr → ℕ → ℕ → ℕ → Out → Option ℕ × Out
  | .binary op l r, pos, maxClauses, depth, o =>
    if depth > maxClauses then (none,o)
    else if op = .or then
      match flattenOr wide vars l pos maxClauses (depth+1) o with
      | (none,o) => (none,o)
      | (some nLeft,o) =>
        if o.anyTrue then (some nLeft,o)
        else
          match flattenOr wide vars r (pos+nLeft) (maxClauses-nLeft) (depth+1) o with
          | (none,o) => (none,o)
          | (some nRight,o) => (some (nLeft+nRight),o)
    else flattenLeaf wide vars (.binary op l r) pos maxClauses o
  | e, pos, maxClauses, depth, o =>
    if depth > maxClauses then (none,o) else flattenLeaf wide vars e pos maxClauses o

def num (ctx : Validate.Ctx) (id : ℕ) : ℤ := wrap (ctx.value id) (ctx.width id) (ctx.signed id)

/-- An int64 as a bound of a variable of type `t`: an unsigned one of 64 bits holds patterns. -/
def readConst (t : Ty) (c : ℤ) : ℤ := if t.s || t.w < 64 then c else c % 2^64

def OrClause.Holds (ctx : Validate.Ctx) (c : OrClause) : Prop :=
  cmpVal c.op (num ctx c.varId)
    (match c.rhsVarId with
    | none => readConst (ctx.types c.varId) c.constant
    | some vid => num ctx vid) = true

instance (ctx : Validate.Ctx) (c : OrClause) : Decidable (c.Holds ctx) :=
  inferInstanceAs (Decidable (_ = true))

def Declares (vars : List VarSpec) (ctx : Validate.Ctx) : Prop :=
  ∀ v ∈ vars, ctx.types v.varId = ⟨v.width,v.isSigned⟩

def assign (ctx : Validate.Ctx) (value : ℕ → ℤ) : Validate.Ctx :=
  {ctx with value := value}

def least (t : Ty) : ℤ := if t.s then -2^(t.w-1) else 0

def most (t : Ty) : ℤ := if t.s then 2^(t.w-1)-1 else 2^t.w-1

/-- From `lo` to `hi` a comparison with `y` divides the numbers as one with `k` does. -/
def Cuts (op : BinOp) (lo hi y k : ℤ) : Prop :=
  y = k ∨ match op with
    | .eq | .neq => (y < lo ∨ hi < y) ∧ (k < lo ∨ hi < k)
    | .lt | .gte => (y ≤ lo ∧ k ≤ lo) ∨ (hi < y ∧ hi < k)
    | .lte | .gt => (y < lo ∧ k < lo) ∨ (hi ≤ y ∧ hi ≤ k)
    | _ => True

/-- In a comparison of signedness `s` the operand is the number of its variable. -/
def Plain (Γ : ℕ → Ty) (s : Bool) : Expr → Prop
  | .var id => (Γ id).s = true → s = true
  | .extend (.var id) fromBits toBits false =>
    (Γ id).s = false ∧ (Γ id).w ≤ fromBits ∧ (Γ id).w ≤ toBits
  | _ => True

def Widens : Expr → Prop
  | .extend _ fromBits toBits _ => fromBits ≤ toBits
  | _ => True

def ConstRight (Γ : ℕ → Ty) (op : BinOp) (x k : Expr) (vid innerW : ℕ) (cv : ℤ) : Prop :=
  let t := (ty Γ x).join (ty Γ k)
  Plain Γ t.s x ∧ innerW < 64 ∧
    Cuts op (least (Γ vid)) (most (Γ vid)) (wrap (constValue cv (ty Γ k)) t.w t.s)
      (if innerW = 0 then readConst (Γ vid) cv else cv % 2^64)

/-- A comparison: one with a constant keeps the number of the variable and divides its type where
the constant does, one of two variables has operands of one signedness. -/
def CmpRight (Γ : ℕ → Ty) (op : BinOp) (l r : Expr) : Prop :=
  match isVarMaybeExtend l,isConst r with
  | some (vid,innerW,signExt),some cv => signExt = true ∨ ConstRight Γ op l r vid innerW cv
  | _,_ =>
    match isConst l,isVarMaybeExtend r with
    | some cv,some (vid,innerW,signExt) =>
      signExt = true ∨ ConstRight Γ (swapCmp op) r l vid innerW cv
    | _,_ => (ty Γ l).s = (ty Γ r).s ∧ Widens l ∧ Widens r

def LeafRight (Γ : ℕ → Ty) : Expr → Prop
  | .const value width isSigned =>
    constValue value (constType value width isSigned) = 0 → value = 0
  | .unary _ x => LeafRight Γ x
  | .ite c _ _ => LeafRight Γ c
  | .binary op l r => op.isCmp = true → CmpRight Γ op l r
  | _ => True

def disjuncts : Expr → List Expr
  | .binary op l r => if op = .or then disjuncts l ++ disjuncts r else [.binary op l r]
  | e => [e]

/-- The disjuncts that are looked at: none after one that is always true. -/
def lookedAt (wide : ℕ → ℕ) (vars : List VarSpec) : List Expr → List Expr
  | [] => []
  | d :: ds => d :: if classifyOrLeaf wide vars d 0 = .truth true then [] else lookedAt wide vars ds

def Right (wide : ℕ → ℕ) (vars : List VarSpec) (Γ : ℕ → Ty) (e : Expr) : Prop :=
  ∀ d ∈ lookedAt wide vars (disjuncts e), LeafRight Γ d

theorem lookedAt_left {wide : ℕ → ℕ} {vars : List VarSpec} {a : List Expr} (b : List Expr) :
    ∀ d ∈ lookedAt wide vars a, d ∈ lookedAt wide vars (a ++ b) := by
  induction a with
  | nil => simp [lookedAt]
  | cons e a ih =>
    intro d hd
    rw [List.cons_append,lookedAt]
    rw [lookedAt] at hd
    split_ifs at hd ⊢
    · exact hd
    · exact (List.mem_cons.mp hd).elim (fun h => h ▸ List.mem_cons_self) fun h =>
        List.mem_cons_of_mem _ (ih d h)

theorem lookedAt_append {wide : ℕ → ℕ} {vars : List VarSpec} {a : List Expr} (b : List Expr)
    (h : ∀ d ∈ a, classifyOrLeaf wide vars d 0 ≠ .truth true) :
    lookedAt wide vars (a ++ b) = a ++ lookedAt wide vars b := by
  induction a with
  | nil => rfl
  | cons e a ih =>
    rw [List.cons_append,lookedAt,if_neg (h e (by simp)),ih fun d hd => h d (by simp [hd])]
    rfl

theorem inTy_iff {t : Ty} (ht : 0 < t.w) (n : ℤ) : InTy n t.w t.s ↔ least t ≤ n ∧ n ≤ most t := by
  rcases t with ⟨w,s⟩
  obtain ⟨v,rfl⟩ : ∃ v, w = v+1 := ⟨w-1,by simp only at ht; omega⟩
  cases s <;> simp only [InTy,least,most,Nat.add_sub_cancel,pow_succ,if_true,Bool.false_eq_true,
    if_false] <;> omega

theorem cuts_iff {lo hi y k : ℤ} (h : lo ≤ hi) :
    (∀ n, lo ≤ n → n ≤ hi → cmpVal op n y = cmpVal op n k) ↔ Cuts op lo hi y k := by
  constructor
  · intro hall
    have hy := hall y
    have hk := hall k
    have hy' := hall (y-1)
    have hk' := hall (k-1)
    have hhi := hall hi h le_rfl
    clear hall
    cases op <;> simp only [Cuts,cmpVal,decide_eq_decide,or_true,ne_eq,not_iff_not,true_iff,
      iff_true] at * <;> omega
  · intro hcuts n hn hn'
    cases op <;> simp only [Cuts,cmpVal,decide_eq_decide,or_true,ne_eq,not_iff_not] at * <;> omega

theorem cmpVal_swap (op : BinOp) (a b : ℤ) : cmpVal op a b = cmpVal (swapCmp op) b a := by
  cases op <;> simp [cmpVal,swapCmp,eq_comm]

theorem cmpVal_flip (h : op.isCmp = true) (a b : ℤ) :
    cmpVal (flipCmp op) a b = !cmpVal op a b := by
  rw [Bool.eq_iff_iff]
  cases op <;> simp_all [cmpVal,flipCmp,BinOp.isCmp]

theorem isCmp_flip (h : op.isCmp = true) : (flipCmp op).isCmp = true := by
  cases op <;> simp_all [flipCmp,BinOp.isCmp]

theorem isCmp_swap (h : op.isCmp = true) : (swapCmp op).isCmp = true := by
  cases op <;> simp_all [swapCmp,BinOp.isCmp]

theorem tryFoldExtendCmp_spec (hop : op.isCmp = true) (cv : ℤ) (h0 : 0 < innerW) (h64 : innerW < 64)
    {n : ℤ} (hn : 0 ≤ n) (hn' : n < 2^innerW) :
    match tryFoldExtendCmp op cv innerW with
    | some b => cmpVal op n (cv % 2^64) = b
    | none => cv % 2^64 < 2^innerW := by
  unfold tryFoldExtendCmp
  rw [if_neg (by omega)]
  generalize (2 : ℤ)^innerW = m at *
  generalize cv % 2^64 = u at *
  cases op <;> simp only [BinOp.isCmp,Bool.false_eq_true] at hop <;> dsimp only <;>
    split_ifs <;> simp [cmpVal] <;> omega

theorem maskConst_of_lt {wide : ℕ → ℕ} {cv : ℤ} (h64 : innerW < 64) (h : cv % 2^64 < 2^innerW) :
    maskConst wide cv innerW = cv % 2^64 := by
  have hp : (2 : ℤ)^innerW ≤ 2^63 := pow_le_pow_right₀ (by norm_num) (by omega)
  have hlt : pat cv 64 < 2^innerW := by
    have := pat_cast cv 64
    zify
    omega
  have hin : InTy (cv % 2^64) 64 true := by
    simp only [InTy,if_true]
    omega
  unfold maskConst
  rw [if_pos h64]
  dsimp only
  rw [Nat.and_two_pow_sub_one_eq_mod,Nat.mod_eq_of_lt hlt,pat_cast,wrap_of_inTy hin]

section Means

variable {ctx : Validate.Ctx} {wide : ℕ → ℕ} {vars : List VarSpec}

def Leaf.Means (ctx : Validate.Ctx) (t : Bool) : Leaf → Prop
  | .unsupported => True
  | .truth b => t = b
  | .clause c => c.op.isCmp = true ∧ (t = true ↔ c.Holds ctx)

theorem Leaf.Means.flip {t : Bool} {x : Leaf} (h : x.Means ctx t) : x.flip.Means ctx (!t) := by
  cases x with
  | unsupported => trivial
  | truth b => exact congrArg not h
  | clause c =>
    refine ⟨isCmp_flip h.1,?_⟩
    unfold OrClause.Holds
    rw [cmpVal_flip h.1]
    simpa [OrClause.Holds] using not_congr h.2

theorem num_inTy (ctx : Validate.Ctx) (id : ℕ) :
    InTy (num ctx id) (ctx.types id).w (ctx.types id).s := wrap_inTy _ _ _

theorem eval_plain {ρ : Env} (hρ : ctx.Reads ρ) {vid : ℕ}
    (hx : isVarMaybeExtend x = some (vid,innerW,false))
    (hsized : Sized sliceHeld ctx.types x) {W : ℕ} {S : Bool}
    (hp : Plain ctx.types S x) (hS : S = true → (ty ctx.types x).s = true)
    (hW : (ty ctx.types x).w ≤ W) : eval ctx.types ρ x W S = num ctx vid := by
  have hfix : ∀ id, (ctx.types id).fix = ctx.types id := fun id => by
    exact if_neg (ctx.width_pos id).ne'
  match x,hx with
  | .var id,hx =>
    obtain ⟨rfl,-⟩ : id = vid ∧ 0 = innerW := by simpa [isVarMaybeExtend] using hx
    rw [ty,hfix] at hS hW
    have hs : S = (ctx.types id).s := Bool.eq_iff_iff.mpr ⟨hS,hp⟩
    rw [eval,hfix,hs,hρ]
    exact wrap_wider (wrap_inTy _ _ _) hW
  | .extend (.var id) fromBits toBits se,hx =>
    obtain ⟨rfl,-,rfl⟩ : id = vid ∧ fromBits = innerW ∧ se = false := by
      simpa [isVarMaybeExtend] using hx
    obtain ⟨hu,hf,ht⟩ := hp
    have hn : InTy (num ctx id) (ctx.types id).w false := hu ▸ num_inTy ctx id
    have hto : Ty.fix ⟨toBits,false⟩ = ⟨toBits,false⟩ := by
      rw [Ty.fix,if_neg (by have := hsized.2.2; simp only; omega)]
    have hty : ty ctx.types (.extend (.var id) fromBits toBits false) = ⟨toBits,false⟩ := by
      rw [ty,ty,hfix,hu,hto]
    rw [hty] at hS hW
    obtain rfl : S = false := by simpa using hS
    have hv : eval ctx.types ρ (.var id) (ctx.types id).w false = num ctx id := by
      rw [eval,hfix,hu,hρ]
      exact (congrArg (wrap · _ _) (congrArg (wrap _ _) hu.symm)).trans (wrap_of_inTy hn)
    rw [eval]
    simp only [ty,hfix,hu,hto,hv]
    rw [wrap_wider hn hf,wrap_wider hn ht,wrap_wider hn (ht.trans hW)]

theorem varConst_means (hop : op.isCmp = true) {vid : ℕ} {cv : ℤ}
    (hx : isVarMaybeExtend x = some (vid,innerW,false))
    (h : ConstRight ctx.types op x k vid innerW cv) :
    (varConst wide op cv (vid,innerW,false)).Means ctx
      (cmpVal op (num ctx vid) (wrap (constValue cv (ty ctx.types k))
        ((ty ctx.types x).join (ty ctx.types k)).w ((ty ctx.types x).join (ty ctx.types k)).s)) := by
  obtain ⟨hp,h64,hcuts⟩ := h
  obtain ⟨hlo,hhi⟩ := (inTy_iff (t:=ctx.types vid) (ctx.width_pos vid) _).mp (num_inTy ctx vid)
  rw [(cuts_iff (hlo.trans hhi)).mpr hcuts _ hlo hhi]
  clear hcuts
  by_cases h0 : innerW = 0
  · subst h0
    rw [if_pos rfl,varConst,if_neg (by simp),if_neg (by simp)]
    exact ⟨hop,Iff.rfl⟩
  · -- an extended variable is unsigned and no wider than what it is extended from
    obtain ⟨hu,hf⟩ : (ctx.types vid).s = false ∧ (ctx.types vid).w ≤ innerW := by
      match x,hx,hp with
      | .var id,hx,_ => simp [isVarMaybeExtend] at hx; omega
      | .extend (.var id) fromBits toBits se,hx,hp =>
        obtain ⟨rfl,rfl,rfl⟩ : id = vid ∧ fromBits = innerW ∧ se = false := by
          simpa [isVarMaybeExtend] using hx
        exact ⟨hp.1,hp.2.1⟩
    have hn : InTy (num ctx vid) innerW false := (hu ▸ num_inTy ctx vid : InTy _ _ false).mono hf
    have hfold := tryFoldExtendCmp_spec hop cv (by omega) h64 hn.1 hn.2
    rw [if_neg h0,varConst,if_pos ⟨by omega,rfl⟩]
    split at hfold
    · exact hfold
    · refine ⟨hop,?_⟩
      have hk : readConst (ctx.types vid) (cv % 2^64) = cv % 2^64 := by
        rw [readConst,if_pos (by simp; omega)]
      show _ ↔ cmpVal op (num ctx vid) (readConst (ctx.types vid) (maskConst wide cv innerW)) = true
      rw [maskConst_of_lt h64 hfold,hk]

theorem eval_const {ρ : Env} {cv : ℤ} (hk : isConst k = some cv) (W : ℕ) (S : Bool) :
    eval ctx.types ρ k W S = wrap (constValue cv (ty ctx.types k)) W S := by
  match k,hk with
  | .const value _ _,hk =>
    obtain rfl : value = cv := by simpa [isConst] using hk
    rfl

theorem orLeafVar_plain (hdecl : Declares vars ctx) {vid : ℕ} (h : orLeafVar vars x = some vid)
    (hw : Widens x) (hsized : Sized sliceHeld ctx.types x) :
    ∃ innerW, isVarMaybeExtend x = some (vid,innerW,false) ∧ Plain ctx.types (ty ctx.types x).s x := by
  match x,h with
  | .var id,h =>
    obtain rfl : id = vid := by simpa [orLeafVar,isVarMaybeExtend] using h
    exact ⟨0,rfl,fun hs => by simpa [ty] using hs⟩
  | .extend (.var id) fromBits toBits se,h =>
    have h0 : fromBits > 0 := hsized.2.1
    rw [orLeafVar,isVarMaybeExtend,Option.bind_some] at h
    dsimp only at h
    split_ifs at h with hse
    obtain ⟨d,hd,h⟩ := Option.bind_eq_some_iff.mp h
    split_ifs at h with hs hlt
    obtain rfl := Option.some.inj h
    have hid : d.varId = id := by simpa using List.find?_some hd
    have ht := hdecl d (List.mem_of_find?_eq_some hd)
    rw [hid] at ht
    obtain rfl : se = false := by simpa using hse
    refine ⟨fromBits,rfl,?_⟩
    have hfw : fromBits ≤ toBits := hw
    simp only [Plain,ht]
    exact ⟨by simpa using hs,by omega,by omega⟩

theorem varConst_means_of {ρ : Env} (hρ : ctx.Reads ρ) (hop : op.isCmp = true) {vid : ℕ}
    {signExt : Bool} {cv : ℤ} (hx : isVarMaybeExtend x = some (vid,innerW,signExt))
    (hk : isConst k = some cv) (hsized : Sized sliceHeld ctx.types x)
    (h : signExt = true ∨ ConstRight ctx.types op x k vid innerW cv) :
    (varConst wide op cv (vid,innerW,signExt)).Means ctx (cmpVal op
      (eval ctx.types ρ x ((ty ctx.types x).join (ty ctx.types k)).w
        ((ty ctx.types x).join (ty ctx.types k)).s)
      (eval ctx.types ρ k ((ty ctx.types x).join (ty ctx.types k)).w
        ((ty ctx.types x).join (ty ctx.types k)).s)) := by
  cases signExt with
  | true =>
    have h0 : innerW > 0 := by
      match x,hx with
      | .extend (.var id) fromBits toBits se,hx =>
        obtain ⟨-,rfl,-⟩ : id = vid ∧ fromBits = innerW ∧ se = true := by
          simpa [isVarMaybeExtend] using hx
        exact hsized.2.1
    rw [varConst,if_neg (by simp),if_pos ⟨h0,rfl⟩]
    trivial
  | false =>
    have h := h.resolve_left (by decide)
    have hs : ((ty ctx.types x).join (ty ctx.types k)).s = true → (ty ctx.types x).s = true := by
      simp only [Ty.join,Bool.and_eq_true]
      exact And.left
    have hW : (ty ctx.types x).w ≤ ((ty ctx.types x).join (ty ctx.types k)).w := le_max_left _ _
    rw [eval_plain hρ hx hsized h.1 hs hW,eval_const hk]
    exact varConst_means hop hx h

theorem classifyCmp_means {ρ : Env} (hρ : ctx.Reads ρ) (hdecl : Declares vars ctx)
    (hop : op.isCmp = true) {l r : Expr} (hl : Sized sliceHeld ctx.types l)
    (hr : Sized sliceHeld ctx.types r) (h : CmpRight ctx.types op l r) :
    (classifyCmp wide vars op l r).Means ctx (truth ctx.types ρ (.binary op l r)) := by
  have htruth : truth ctx.types ρ (.binary op l r) = cmpVal op
      (eval ctx.types ρ l ((ty ctx.types l).join (ty ctx.types r)).w
        ((ty ctx.types l).join (ty ctx.types r)).s)
      (eval ctx.types ρ r ((ty ctx.types l).join (ty ctx.types r)).w
        ((ty ctx.types l).join (ty ctx.types r)).s) := by
    rw [truth,eval_cmp hop]
    simp
  have hcomm : (ty ctx.types l).join (ty ctx.types r) = (ty ctx.types r).join (ty ctx.types l) := by
    simp [Ty.join,Nat.max_comm,Bool.and_comm]
  rw [htruth]
  unfold classifyCmp
  unfold CmpRight at h
  split
  · rename_i v cv hv hc
    obtain ⟨vid,innerW,se⟩ := v
    rw [hv,hc] at h
    exact varConst_means_of hρ hop hv hc hl h
  · rename_i hno
    split at h
    · rename_i hv hc
      exact (hno _ _ hv hc).elim
    · split
      · rename_i cv v hc hv
        obtain ⟨vid,innerW,se⟩ := v
        rw [hc,hv] at h
        rw [cmpVal_swap,hcomm]
        exact varConst_means_of hρ (isCmp_swap hop) hv hc hr h
      · rename_i hno'
        split at h
        · rename_i hc hv
          exact (hno' _ _ hc hv).elim
        · obtain ⟨hs,hwl,hwr⟩ := h
          split
          · rename_i vid vid2 ho ho'
            obtain ⟨_,hx,hp⟩ := orLeafVar_plain hdecl ho hwl hl
            obtain ⟨_,hx',hp'⟩ := orLeafVar_plain hdecl ho' hwr hr
            have hj : ((ty ctx.types l).join (ty ctx.types r)).s = (ty ctx.types l).s := by
              simp [Ty.join,← hs]
            have hwl : (ty ctx.types l).w ≤ ((ty ctx.types l).join (ty ctx.types r)).w :=
              le_max_left _ _
            have hwr : (ty ctx.types r).w ≤ ((ty ctx.types l).join (ty ctx.types r)).w :=
              le_max_right _ _
            rw [hj,eval_plain hρ hx hl hp id hwl,eval_plain hρ hx' hr (hs ▸ hp') (fun h => hs ▸ h) hwr]
            exact ⟨hop,Iff.rfl⟩
          · trivial

theorem eval_const_one {ρ : Env} (hk : isConst k = some 1) {W : ℕ} (hW : 0 < W) (S : Bool) :
    eval ctx.types ρ k W S ≠ 0 := by
  -- it is odd
  have hodd : eval ctx.types ρ k W S % 2^1 = 1 := by
    have hw : 1 ≤ (ty ctx.types k).w := ty_w_pos _ _
    rw [eval_const hk,constValue,emod_of_le (by omega : 1 ≤ W) (wrap_emod _ W S),
      emod_of_le hw (wrap_emod _ _ _)]
    split_ifs <;> rfl
  intro h0
  rw [h0] at hodd
  simp at hodd

theorem eval_const_zero {ρ : Env} (hk : isConst k = some 0) (W : ℕ) (S : Bool) :
    eval ctx.types ρ k W S = 0 := by
  rw [eval_const hk,constValue]
  simp [wrap_of_inTy (inTy_zero _ _)]

theorem truth_wrapper {ρ : Env} (c : Expr) {t e : Expr} (ht : isConst t = some 1)
    (he : isConst e = some 0) :
    truth ctx.types ρ (.ite c t e) = truth ctx.types ρ c ∧
      truth ctx.types ρ (.ite c e t) = !truth ctx.types ρ c := by
  have hpos := ty_w_pos ctx.types
  constructor
  · rw [truth,eval_ite]
    split_ifs with h
    · simp [h,eval_const_one ht (hpos _)]
    · simp [Bool.eq_false_iff.mpr h,eval_const_zero he]
  · rw [truth,eval_ite]
    split_ifs with h
    · simp [h,eval_const_zero he]
    · simp [Bool.eq_false_iff.mpr h,eval_const_one ht (hpos _)]

theorem classifyOrLeaf_means {ρ : Env} (hρ : ctx.Reads ρ) (hdecl : Declares vars ctx) {e : Expr}
    (hsized : Sized sliceHeld ctx.types e) (h : LeafRight ctx.types e) (depth : ℕ) :
    (classifyOrLeaf wide vars e depth).Means ctx (truth ctx.types ρ e) := by
  induction e generalizing depth with
  | const value width isSigned =>
    rw [classifyOrLeaf]
    split_ifs
    · trivial
    · have hv : constValue value (constType value width isSigned) = 0 ↔ value = 0 := by
        refine ⟨h,?_⟩
        rintro rfl
        simp [constValue,wrap_of_inTy (inTy_zero _ _)]
      show decide _ = decide _
      rw [decide_eq_decide,eval,ty]
      exact not_congr ((wrap_eq_zero (wrap_inTy _ _ _) le_rfl _).trans hv)
  | unary op x ih =>
    rw [classifyOrLeaf]
    split_ifs with hd
    · trivial
    · obtain rfl : op = .not := by tauto
      have hflip := (ih hsized h (depth+1)).flip
      rwa [show truth ctx.types ρ (.unary .not x) = !truth ctx.types ρ x by
        rw [truth,eval_not]
        simp]
  | ite c t e ihc _ _ =>
    have hc := ihc hsized.1 h (depth+1)
    rw [classifyOrLeaf]
    split_ifs with hd h1 h2
    · trivial
    · rwa [(truth_wrapper c h1.1 h1.2).1]
    · rw [(truth_wrapper c h2.2 h2.1).2]
      exact hc.flip
    · trivial
  | binary op l r _ _ =>
    rw [classifyOrLeaf]
    split_ifs with hd
    · trivial
    · have hop : op.isCmp = true := by
        simp only [not_or,Bool.not_eq_true',Bool.not_eq_false] at hd
        exact hd.2
      exact classifyCmp_means hρ hdecl hop hsized.1 hsized.2 (h hop)
  | _ => trivial

theorem truth_or {Γ : ℕ → Ty} {ρ : Env} (l r : Expr) :
    truth Γ ρ (.binary .or l r) = (truth Γ ρ l || truth Γ ρ r) := by
  rw [truth,eval_or]
  simp

/-- What a run over `e` from `pos` on leaves: no cell outside its part is written, and where the
tree is right a leaf is always true only if the tree is, and the clauses counted say it else. -/
structure Flattened (wide : ℕ → ℕ) (vars : List VarSpec) (ctx : Validate.Ctx) (ρ : Env) (e : Expr)
    (pos maxClauses : ℕ) (o : Out) (r : Option ℕ × Out) : Prop where
  frame : ∀ i, i < pos ∨ pos+maxClauses ≤ i → r.2.cells i = o.cells i
  room : ∀ n, r.1 = some n → n ≤ maxClauses
  refusal : o.anyTrue = false → r.1 = none → r.2.anyTrue = false
  quiet : ∀ n, r.1 = some n → r.2.anyTrue = false →
    ∀ d ∈ disjuncts e, classifyOrLeaf wide vars d 0 ≠ .truth true
  always : Sized sliceHeld ctx.types e → Right wide vars ctx.types e →
    o.anyTrue = false → r.2.anyTrue = true → truth ctx.types ρ e = true
  means : Sized sliceHeld ctx.types e → Right wide vars ctx.types e →
    ∀ n, r.1 = some n → r.2.anyTrue = false →
      (truth ctx.types ρ e = true ↔ ∃ i, pos ≤ i ∧ i < pos+n ∧ (r.2.cells i).Holds ctx)

section Run

variable {ρ : Env} {e l r : Expr} {pos maxClauses : ℕ} {o o' o'' : Out}

theorem Flattened.refused : Flattened wide vars ctx ρ e pos maxClauses o (none,o) where
  frame := fun _ _ => rfl
  room := by simp
  refusal := fun h _ => h
  quiet := by simp
  always := fun _ _ h h' => by simp [h] at h'
  means := by simp

theorem Flattened.leaf (hρ : ctx.Reads ρ) (hdecl : Declares vars ctx) (he : disjuncts e = [e])
    (pos maxClauses : ℕ) (o : Out) :
    Flattened wide vars ctx ρ e pos maxClauses o (flattenLeaf wide vars e pos maxClauses o) := by
  have hmeans : Sized sliceHeld ctx.types e → Right wide vars ctx.types e →
      (classifyOrLeaf wide vars e 0).Means ctx (truth ctx.types ρ e) := fun hs h =>
    classifyOrLeaf_means hρ hdecl hs (h e (by rw [he,lookedAt]; exact List.mem_cons_self)) 0
  have hquiet : classifyOrLeaf wide vars e 0 ≠ .truth true →
      ∀ d ∈ disjuncts e, classifyOrLeaf wide vars d 0 ≠ .truth true := by simp [he]
  unfold flattenLeaf
  cases hc : classifyOrLeaf wide vars e 0 with
  | unsupported => exact .refused
  | truth b =>
    rw [hc] at hmeans hquiet
    have hb : ∀ hs h, truth ctx.types ρ e = b := hmeans
    cases b with
    | false =>
      refine ⟨fun _ _ => rfl,by simp,fun h _ => h,fun _ _ _ => hquiet (by simp),
        fun _ _ h h' => by simp [h] at h',fun hs h n hn _ => ?_⟩
      obtain rfl : 0 = n := Option.some.inj hn
      rw [hb hs h]
      simp only [Bool.false_eq_true,false_iff]
      rintro ⟨i,h1,h2,-⟩
      omega
    | true =>
      exact ⟨fun _ _ => rfl,by simp,by simp,by simp,fun hs h _ _ => hb hs h,by simp⟩
  | clause c =>
    rw [hc] at hmeans hquiet
    split_ifs with hroom
    · exact .refused
    · refine ⟨fun i hi => Function.update_of_ne (by omega) _ _,fun n hn => ?_,by simp,
        fun _ _ _ => hquiet (by simp),fun _ _ h h' => by simp [h] at h',fun hs h n hn _ => ?_⟩
      · obtain rfl : 1 = n := Option.some.inj hn
        omega
      · obtain rfl : 1 = n := Option.some.inj hn
        rw [(hmeans hs h).2]
        constructor
        · intro hh
          exact ⟨pos,le_rfl,by omega,by simpa using hh⟩
        · rintro ⟨i,h1,h2,hh⟩
          obtain rfl : i = pos := by omega
          simpa using hh

theorem disjuncts_or (l r : Expr) : disjuncts (.binary .or l r) = disjuncts l ++ disjuncts r :=
  if_pos rfl

theorem Flattened.left {n : Option ℕ} (h : Flattened wide vars ctx ρ l pos maxClauses o (n,o'))
    (hn : n = none ∨ o'.anyTrue = true) :
    Flattened wide vars ctx ρ (.binary .or l r) pos maxClauses o (n,o') where
  frame := h.frame
  room := h.room
  refusal := h.refusal
  quiet := fun n' hn' ht => by
    rcases hn with rfl | hn
    · simp at hn'
    · simp [hn] at ht
  always := fun hs hr ho ht => by
    rw [Right,disjuncts_or] at hr
    rw [truth_or,h.always hs.1 (fun d hd => hr d (lookedAt_left _ d hd)) ho ht,Bool.true_or]
  means := fun _ _ n' hn' ht => by
    rcases hn with rfl | hn
    · simp at hn'
    · simp [hn] at ht

theorem Flattened.right {nl : ℕ} {nr : Option ℕ}
    (hl : Flattened wide vars ctx ρ l pos maxClauses o (some nl,o')) (ht : o'.anyTrue = false)
    (hr : Flattened wide vars ctx ρ r (pos+nl) (maxClauses-nl) o' (nr,o'')) :
    Flattened wide vars ctx ρ (.binary .or l r) pos maxClauses o (nr.map (nl+·),o'') where
  frame := fun i hi => by
    exact (hr.frame i (by omega)).trans (hl.frame i (by omega))
  room := fun n hn => by
    obtain ⟨k,hk,rfl⟩ := Option.map_eq_some_iff.mp hn
    have := hl.room nl rfl
    have := hr.room k hk
    omega
  refusal := fun _ hn => hr.refusal ht (by simpa using hn)
  quiet := fun n hn ht' d hd => by
    obtain ⟨k,hk,rfl⟩ := Option.map_eq_some_iff.mp hn
    rw [disjuncts_or] at hd
    exact (List.mem_append.mp hd).elim (hl.quiet nl rfl ht d) (hr.quiet k hk ht' d)
  always := fun hs h _ ht' => by
    rw [Right,disjuncts_or,lookedAt_append _ (hl.quiet nl rfl ht)] at h
    rw [truth_or,hr.always hs.2 (fun d hd => h d (List.mem_append_right _ hd)) ht ht',Bool.or_true]
  means := fun hs h n hn ht' => by
    obtain ⟨k,hk,rfl⟩ := Option.map_eq_some_iff.mp hn
    rw [Right,disjuncts_or] at h
    have hl' := hl.means hs.1 (fun d hd => h d (lookedAt_left _ d hd)) nl rfl ht
    rw [lookedAt_append _ (hl.quiet nl rfl ht)] at h
    rw [truth_or,Bool.or_eq_true,hl',
      hr.means hs.2 (fun d hd => h d (List.mem_append_right _ hd)) k hk ht']
    constructor
    · rintro (⟨i,h1,h2,hh⟩ | ⟨i,h1,h2,hh⟩)
      · exact ⟨i,h1,by omega,by rwa [hr.frame i (Or.inl h2)]⟩
      · exact ⟨i,by omega,by omega,hh⟩
    · rintro ⟨i,h1,h2,hh⟩
      by_cases hi : i < pos+nl
      · exact Or.inl ⟨i,h1,hi,by rwa [hr.frame i (Or.inl hi)] at hh⟩
      · exact Or.inr ⟨i,by omega,by omega,hh⟩

end Run

end Means

def Fits (wide : ℕ → ℕ) (vars : List VarSpec) (e : Expr) (maxClauses : ℕ) : Prop :=
  ∀ cells, let r := flattenOr wide vars e 0 maxClauses 0 ⟨cells,false⟩
    (∀ i, maxClauses ≤ i → r.2.cells i = cells i) ∧ ∀ n, r.1 = some n → n ≤ maxClauses

def mixed : Validate.Ctx := ⟨2,fun _ => 8,fun i => i = 0,fun _ => 0,by simp⟩

def bytes (signed : Bool) : Validate.Ctx := ⟨2,fun _ => 8,fun _ => signed,fun _ => 0,by simp⟩

end FlattenOr
end DvSolve
