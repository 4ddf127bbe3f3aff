import DvSolve.BvKey
import DvSolve.OpenTable

/-! Word-level facts about bit-blasted vectors, of `dvs_bbword.c`.
Shape facts are keyed by the exact vector, value facts by the vector without its
leading FALSE bits; the first fact claimed for a key is kept. -/
namespace DvSolve

namespace U64

def addOvf (a b : UInt64) : Option UInt64 := if a + b < a then none else some (a + b)

/-- `dvs_mul_u64_ovf`: overflow when the high half of the product is not `0`. -/
def mulOvf (a b : UInt64) : Option UInt64 :=
  if (a.toNat * b.toNat) >>> 64 ≠ 0 then none else some (a * b)

def mulmod (a b m : UInt64) : UInt64 := .ofNat (a.toNat * b.toNat % m.toNat)

end U64

namespace Bbword

open Aig Bitblast BvKey

/-- `bbw_shape_t`: a polynomial in the shift and its base, a factor and its base. -/
structure Shape where
  lin : Option (UInt64 × Bv)
  mul : Option (UInt64 × Bv)
  deriving DecidableEq

/-- `bbw_form_t`: `k + Σ c·t` modulo `mod`, exact when `mod` is `0`. -/
structure Form where
  mod : UInt64
  k : UInt64
  terms : List (Bv × UInt64)
  deriving DecidableEq

structure Val where
  bound : UInt64
  form : Option Form
  deriving DecidableEq

def maxTerms : ℕ := 64

end Bbword

structure Bbword where
  shapes : OpenTable Bv Bbword.Shape
  vals : OpenTable Bv Bbword.Val
  cancelled : ℕ
  decided : ℕ
  peeled : ℕ
  off : Bool

namespace Bbword

open Aig Bitblast BvKey

def new (off : Bool) : Bbword := ⟨.empty,.empty,0,0,0,off⟩

def shape (W : Bbword) (k : Bv) : Option Shape := W.shapes.find hash k

def val (W : Bbword) (k : Bv) : Option Val := W.vals.find hash k

def constVal? (k : Bv) : Option UInt64 :=
  if (strip k).length > 64 then none
  else if isConst (strip k) then some (.ofNat (constVal (strip k))) else none

def mask (w : ℕ) : UInt64 := if w ≥ 64 then .ofNat (2^64 - 1) else .ofNat (2^w - 1)

def gcd (a b : UInt64) : UInt64 :=
  if _h : b = 0 then a else gcd b (a % b)
termination_by b.toNat
decreasing_by
  have hb : 0 < b.toNat := Nat.pos_of_ne_zero fun h0 => _h (UInt64.toNat_inj.mp h0)
  simpa using Nat.mod_lt _ hb

def bound (W : Bbword) (k : Bv) : Option UInt64 :=
  match constVal? k with
  | some c => some c
  | none =>
    match W.val k with
    | some v => some v.bound
    | none => if k.length > 64 then none else some (mask k.length)

def keyCmp (a b : Bv) : Ordering := litsCmp a.reverse b.reverse

def form (W : Bbword) (k : Bv) : Form :=
  match constVal? k with
  | some c => ⟨0,c,[]⟩
  | none =>
    match (W.val k).bind Val.form with
    | some F => F
    | none => ⟨0,0,[(k,1)]⟩

/-- `a + b` reduced modulo `m`; with `m = 0`, `none` on overflow. -/
def cadd (a b m : UInt64) : Option UInt64 :=
  if m ≠ 0 then
    let a := a % m
    let b := b % m
    some (if a ≥ m - b then a - (m - b) else a + b)
  else U64.addOvf a b

def cmul (a b m : UInt64) : Option UInt64 :=
  if m ≠ 0 then some (U64.mulmod (a % m) (b % m) m) else U64.mulOvf a b

/-- Coefficients modulo `m`, without the terms that vanish. -/
def reduceTerms (m : UInt64) : List (Bv × UInt64) → List (Bv × UInt64)
  | [] => []
  | (t,c) :: ts => if c % m = 0 then reduceTerms m ts else (t,c % m) :: reduceTerms m ts

def reduce (F : Form) (m : UInt64) : Form :=
  if m = 0 then { F with mod := m } else ⟨m,F.k % m,reduceTerms m F.terms⟩

/-- Append a term, unless its coefficient is `0`; `none` when there are too many. -/
def pushTerm (H : List (Bv × UInt64)) (t : Bv) (v : UInt64) : Option (List (Bv × UInt64)) :=
  if v = 0 then some H else if H.length = maxTerms then none else some (H ++ [(t,v)])

/-- A coefficient of one operand alone in a sum modulo `m`. -/
def single (m c : UInt64) : UInt64 := if m ≠ 0 then c % m else c

def mergeTerms (m : UInt64) :
    List (Bv × UInt64) → List (Bv × UInt64) → List (Bv × UInt64) → Option (List (Bv × UInt64))
  | [], [], H => some H
  | (t,c) :: F, [], H => do
    let H ← pushTerm H t (single m c)
    mergeTerms m F [] H
  | [], (t,c) :: G, H => do
    let H ← pushTerm H t (single m c)
    mergeTerms m [] G H
  | (t,c) :: F, (u,d) :: G, H =>
    match keyCmp t u with
    | .lt => do
      let H ← pushTerm H t (single m c)
      mergeTerms m F ((u,d) :: G) H
    | .gt => do
      let H ← pushTerm H u (single m d)
      mergeTerms m ((t,c) :: F) G H
    | .eq => do
      let v ← cadd c d m
      let H ← pushTerm H t v
      mergeTerms m F G H
termination_by F G => F.length + G.length

def formAdd (F G : Form) : Option Form := do
  let m := gcd F.mod G.mod
  let k ← cadd F.k G.k m
  let terms ← mergeTerms m F.terms G.terms []
  pure ⟨m,k,terms⟩

def scaleTerms (m s : UInt64) : List (Bv × UInt64) → Option (List (Bv × UInt64))
  | [] => some []
  | (t,c) :: ts => do
    let c ← cmul c s m
    let ts ← scaleTerms m s ts
    pure ((t,c) :: ts)

def formScale (F : Form) (s : UInt64) : Option Form := do
  let k ← cmul F.k s F.mod
  let terms ← scaleTerms F.mod s F.terms
  pure (reduce ⟨F.mod,k,terms⟩ F.mod)

def formEq (F G : Form) : Bool := F.k = G.k && F.terms = G.terms

def trivialForm (k : Bv) (F : Form) : Bool :=
  F.mod = 1 || (F.mod = 0 && F.k = 0 && F.terms = [(k,1)])

def rememberVal (W : Bbword) (k : Bv) (bound : UInt64) (F : Option Form) : Bbword :=
  if k.length = 0 ∨ (constVal? k).isSome then W
  else
    let F := F.filter fun F => !trivialForm k F
    if F.isNone ∧ k.length ≤ 64 ∧ bound ≥ mask k.length then W
    else if (W.vals.index hash k).isSome then W
    else { W with vals := W.vals.add hash k ⟨bound,F⟩ }

def noteAdd (W : Bbword) (a b r : Bv) : Bbword :=
  if W.off then W
  else
    match W.bound (strip a), W.bound (strip b) with
    | some ba, some bb =>
      match U64.addOvf ba bb with
      | none => W
      | some s =>
        if s > mask r.length then W
        else W.rememberVal (strip r) s (formAdd (W.form (strip a)) (W.form (strip b)))
    | _, _ => W

def noteUrem (W : Bbword) (a b r : Bv) : Bbword :=
  if W.off then W
  else
    match constVal? b with
    | none => W
    | some m =>
      if m = 0 then W
      else
        let bound := match W.bound (strip a) with
          | some ba => if ba < m - 1 then ba else m - 1
          | none => m - 1
        let F := W.form (strip a)
        W.rememberVal (strip r) bound (some (reduce F (gcd F.mod m)))

/-- `hi + 1` is the size of `r` when `lo` is `0`, so it does not wrap. -/
def noteExtract (W : Bbword) (a : Bv) (hi lo : ℕ) (r : Bv) : Bbword :=
  if W.off ∨ lo ≠ 0 then W
  else
    match W.bound (strip a) with
    | none => W
    | some ba =>
      if hi + 1 < 64 ∧ ba > mask (hi+1) then W
      else W.rememberVal (strip r) ba (some (W.form (strip a)))

def linOf (W : Bbword) (v : Bv) : UInt64 × Bv := ((W.shape v).bind Shape.lin).getD (1,v)

def mulOf (W : Bbword) (v : Bv) : UInt64 × Bv := ((W.shape v).bind Shape.mul).getD (1,v)

def rememberLin (W : Bbword) (v : Bv) (poly : UInt64) (base : Bv) : Bbword :=
  { W with shapes := W.shapes.upsert hash v ⟨none,none⟩ fun s =>
      if s.lin.isSome then s else { s with lin := some (poly,base) } }

def rememberMul (W : Bbword) (v : Bv) (c : UInt64) (base : Bv) : Bbword :=
  { W with shapes := W.shapes.upsert hash v ⟨none,none⟩ fun s =>
      if s.mul.isSome then s else { s with mul := some (c,base) } }

def noteShr (W : Bbword) (a b r : Bv) : Bbword :=
  if W.off ∨ a.length > 64 ∨ r.length ≠ a.length then W
  else
    match constVal? b with
    | none => W
    | some k =>
      if k.toNat ≥ a.length then W
      else
        let (p,u) := W.linOf a
        W.rememberLin r (p <<< k &&& mask a.length) u

def xor (W : Bbword) (a b : Bv) : Build (Bv × Bbword) := do
  if W.off ∨ a.length > 64 ∨ a.length ≠ b.length then
    let r ← bbXor a b
    pure (r,W)
  else
    let (pa,ua) := W.linOf a
    let (pb,ub) := W.linOf b
    if ua ≠ ub then
      let r ← bbXor a b
      pure (r,W)
    else if pa ^^^ pb = 1 then pure (ua,{ W with cancelled := W.cancelled+1 })
    else if pa ^^^ pb = 0 then
      pure (bbValueU64 a.length 0,{ W with cancelled := W.cancelled+1 })
    else
      let r ← bbXor a b
      pure (r,W.rememberLin r (pa ^^^ pb) ua)

def constOperand (a b : Bv) : Option (UInt64 × Bv) :=
  match constVal? b with
  | some c => some (c,a)
  | none =>
    match constVal? a with
    | some c => some (c,b)
    | none => none

def scaleVal (W : Bbword) (w : ℕ) (x : Bv) (c : UInt64) (r : Bv) : Bbword :=
  if c = 0 then W
  else
    match W.bound (strip x) with
    | none => W
    | some bx =>
      match U64.mulOvf bx c with
      | none => W
      | some p =>
        if p ≤ mask w then W.rememberVal (strip r) (bx * c) (formScale (W.form (strip x)) c)
        else W

def mul (W : Bbword) (a b : Bv) : Build (Bv × Bbword) := do
  if W.off ∨ a.length > 64 ∨ a.length ≠ b.length then
    let r ← bbMul a b
    pure (r,W)
  else
    match constOperand a b with
    | none =>
      let r ← bbMul a b
      pure (r,W)
    | some (c,x) =>
      let w := a.length
      let (mc,u) := W.mulOf x
      let c2 := mc * c &&& mask w
      if c2 = 1 then pure (u,{ W with cancelled := W.cancelled+1 })
      else
        let r ← bbMul a b
        let W := if c2 ≠ 0 then W.rememberMul r c2 u else W
        pure (r,W.scaleVal w x c r)

def peelStep (sa sb : Shape) : Option (Bv × Bv) :=
  let lin := match sa.lin, sb.lin with
    | some (p,u), some (q,v) => if p = q ∧ p &&& 1 ≠ 0 then some (u,v) else none
    | _, _ => none
  match sa.mul, sb.mul with
  | some (c,u), some (d,v) => if c = d ∧ c &&& 1 ≠ 0 then some (u,v) else lin
  | _, _ => lin

def peel (W : Bbword) : ℕ → Bv × Bv × ℕ → Bv × Bv × ℕ
  | 0, s => s
  | n+1, (ka,kb,c) =>
    if ka = kb then (ka,kb,c)
    else
      match W.shape ka, W.shape kb with
      | some sa, some sb =>
        match peelStep sa sb with
        | some (ua,ub) => peel W n (ua,ub,c+1)
        | none => (ka,kb,c)
      | _, _ => (ka,kb,c)

def sameValue (W : Bbword) (va vb : Bv) : Bool :=
  match W.bound va, W.bound vb with
  | some ba, some bb =>
    let F := W.form va
    let G := W.form vb
    let d := gcd F.mod G.mod
    if d = 0 then formEq F G
    else if d > 1 ∧ ba < d ∧ bb < d then formEq (reduce F d) (reduce G d)
    else false
  | _, _ => false

def eq (W : Bbword) (a b : Bv) : Build (Bv × Bbword) := do
  if W.off ∨ a.length ≠ b.length then
    let r ← bbEq a b
    pure (r,W)
  else
    let (ka,kb,peeled) := W.peel 256 (a,b,W.peeled)
    let W := { W with peeled := peeled }
    if ka = kb ∨ W.sameValue (strip ka) (strip kb) then
      pure (bbValueU64 1 1,{ W with decided := W.decided+1 })
    else
      let r ← bbEq ka kb
      pure (r,W)

end Bbword
end DvSolve
