import DvSolve.Fields
import DvSolve.SvSem

/-! What a problem means.
Variables, slices, concatenations and equalities have the meanings of the sizing rules;
the other kinds of nodes have any meaning that comes from those of what they name. -/
namespace DvSolve
namespace Fields

open Sv TwosComp

@[ext] structure Meaning where
  ty : Ty
  val : ℕ → Bool → ℤ

namespace Meaning

def ofExpr (Γ : ℕ → Ty) (ρ : Env) (e : Expr) : Meaning := ⟨Sv.ty Γ e,eval Γ ρ e⟩

def own (m : Meaning) : ℤ := m.val m.ty.w m.ty.s

def Truth (m : Meaning) : Prop := m.own ≠ 0

def null : Meaning := ⟨boolTy,fun _ _ => 0⟩

def ofVar (t : Ty) (x : ℤ) : Meaning := ⟨t.fix,fun W S => wrap (wrap x t.fix.w t.fix.s) W S⟩

def extract (m : Meaning) (hiBit loBit : ℕ) : Meaning :=
  let t := Ty.fix ⟨hiBit+1-loBit,false⟩
  ⟨t,fun W S => wrap (wrap (m.own >>> loBit) t.w false) W S⟩

def concat (hi lo : Meaning) (loWidth : ℕ) : Meaning :=
  let t := Ty.fix ⟨hi.ty.w+loWidth,false⟩
  ⟨t,fun W S => wrap (wrap (pat hi.own hi.ty.w*2^loWidth+pat lo.own loWidth : ℕ) t.w false) W S⟩

def eq (l r : Meaning) : Meaning :=
  let t := l.ty.join r.ty
  ⟨boolTy,fun _ _ => ofBool (cmpVal .eq (l.val t.w t.s) (r.val t.w t.s))⟩

variable {Γ : ℕ → Ty} {ρ : Env}

end Meaning

def bits (X lo hi : ℕ) : ℕ := X / 2^lo % 2^(hi+1-lo)

theorem bits_lt (X lo hi : ℕ) : bits X lo hi < 2^(hi+1-lo) := Nat.mod_lt _ (by positivity)

theorem bits_zero {X W : ℕ} (hW : 0 < W) (hX : X < 2^W) : bits X 0 (W-1) = X := by
  rw [bits,Nat.pow_zero,Nat.div_one,show W-1+1-0 = W by omega,Nat.mod_eq_of_lt hX]

theorem bits_split (X : ℕ) {lo b e : ℕ} (hlo : lo < b) (he : b ≤ e) :
    bits X lo e = bits X b e*2^(b-lo)+bits X lo (b-1) := by
  unfold bits
  obtain ⟨n,rfl⟩ := Nat.exists_eq_add_of_le hlo.le
  rw [show lo+n-lo = n by omega,show lo+n-1+1-lo = n by omega,
    show e+1-lo = n+(e+1-(lo+n)) by omega,pow_add 2 lo n,← Nat.div_div_eq_div_mul,
    pow_add 2 n,Nat.mod_mul,Nat.mul_comm (2^n)]
  omega

theorem bits_tie {X lo b e P C : ℕ} (hlo : lo < b) (he : b ≤ e) (hC : C < 2^(b-lo)) :
    bits X lo e = P*2^(b-lo)+C ↔ P = bits X b e ∧ C = bits X lo (b-1) := by
  rw [bits_split X hlo he]
  constructor
  · intro h
    have hlow : bits X lo (b-1) < 2^(b-lo) := by
      have := bits_lt X lo (b-1)
      rwa [show b-1+1-lo = b-lo by omega] at this
    have hdiv := congrArg (· / 2^(b-lo)) h
    have hmod := congrArg (· % 2^(b-lo)) h
    have hpos : 0 < 2^(b-lo) := by positivity
    simp only [Nat.mul_add_mod_of_lt hlow,Nat.mul_add_mod_of_lt hC] at hmod
    simp only [Nat.add_comm _ (bits X lo (b-1)),Nat.add_comm _ C,Nat.add_mul_div_right _ _ hpos,
      Nat.div_eq_of_lt hlow,Nat.div_eq_of_lt hC] at hdiv
    exact ⟨by omega,hmod.symm⟩
  · rintro ⟨rfl,rfl⟩
    rfl

namespace Meaning

abbrev unsigned (w x : ℕ) : Meaning := ofVar ⟨w,false⟩ x

variable {w x : ℕ}

theorem inTy_natCast (hx : x < 2^w) : InTy (x : ℤ) w false := by
  simp only [InTy,Bool.false_eq_true,if_false]
  exact ⟨by positivity,by exact_mod_cast hx⟩

theorem unsigned_ty (hw : 0 < w) : (unsigned w x).ty = ⟨w,false⟩ := by
  simp [unsigned,ofVar,Ty.fix,hw.ne']

theorem unsigned_own (hw : 0 < w) (hx : x < 2^w) : (unsigned w x).own = x := by
  have hin := inTy_natCast hx
  simp only [own,unsigned,ofVar,Ty.fix,hw.ne',if_false]
  rw [wrap_of_inTy hin,wrap_of_inTy hin]

theorem unsigned_val (hw : 0 < w) (hx : x < 2^w) {W : ℕ} (hW : w ≤ W) :
    (unsigned w x).val W false = x := by
  have hin := inTy_natCast hx
  simp only [unsigned,ofVar,Ty.fix,hw.ne',if_false]
  rw [wrap_of_inTy hin,wrap_of_inTy (hin.mono hW)]

theorem extract_unsigned {lo hi : ℕ} (hx : x < 2^w) (hlo : lo ≤ hi) (hhi : hi < w) :
    (unsigned w x).extract hi lo = unsigned (hi+1-lo) (bits x lo hi) := by
  have hpos : hi+1-lo ≠ 0 := by omega
  unfold extract
  rw [unsigned_own (by omega) hx]
  simp only [unsigned,ofVar,Ty.fix,hpos,if_false]
  congr 1
  funext W S
  congr 1
  have hshift : (x : ℤ) >>> lo = ((x / 2^lo : ℕ) : ℤ) := by
    rw [Int.shiftRight_eq_div_pow]
    rfl
  rw [hshift,wrap_false,wrap_false,pat_natCast,pat_natCast,bits,Nat.mod_mod]

theorem concat_unsigned {v y : ℕ} (hw : 0 < w) (hv : 0 < v) (hx : x < 2^w) (hy : y < 2^v) :
    (unsigned w x).concat (unsigned v y) v = unsigned (w+v) (x*2^v+y) := by
  have hpos : w+v ≠ 0 := by omega
  unfold concat
  rw [unsigned_own hw hx,unsigned_own hv hy,unsigned_ty hw]
  simp only [pat_natCast,Nat.mod_eq_of_lt hx,Nat.mod_eq_of_lt hy,unsigned,ofVar,Ty.fix,hpos,if_false]

theorem eq_unsigned_truth {y : ℕ} (hw : 0 < w) (hx : x < 2^w) (hy : y < 2^w) :
    ((unsigned w x).eq (unsigned w y)).Truth ↔ x = y := by
  unfold Truth eq own
  rw [unsigned_ty hw,unsigned_ty hw]
  simp only [Ty.join,max_self,Bool.and_self]
  rw [unsigned_val hw hx le_rfl,unsigned_val hw hy le_rfl]
  simp [cmpVal,ofBool]

end Meaning
/-- The meaning of a node of another kind, from those of the variables and the nodes it
names. -/
abbrev Rules := Node → List Meaning → Meaning

/-- What a node means for variables of types `Γ` with values `ρ`, from what its operands
mean. -/
def Node.sem (rules : Rules) (Γ : ℕ → Ty) (ρ : ℕ → ℤ) (n : Node) (m : Ref → Meaning) :
    Meaning :=
  match n with
  | .var v => .ofVar (Γ v) (ρ v)
  | .extract x hi lo => (m x).extract hi lo
  | .concat hi lo loWidth => (m hi).concat (m lo) loWidth
  | .binary .eq l r => (m l).eq (m r)
  | n => rules n (n.varIds.map (fun v => .ofVar (Γ v) (ρ v)) ++ n.refs.map m)

/-- The values a declaration admits; it does not bound a word of more than 64 bits. -/
def VarSpec.Admits (s : VarSpec) (x : ℤ) : Prop :=
  InTy x s.width s.isSigned ∧ (s.width ≤ 64 →
    let u : ℤ → ℤ := fun b => if s.isSigned ∨ s.width < 64 then b else pat b 64
    u s.lo ≤ x ∧ x ≤ u s.hi)

namespace Problem

def types (p : Problem) (v : ℕ) : Ty :=
  match p.spec? v with
  | some s => ⟨s.width,s.isSigned⟩
  | none => ⟨0,false⟩

def denote (rules : Rules) (p : Problem) (ρ : ℕ → ℤ) (r : Ref) : Meaning :=
  NodePool.denote (Node.sem rules p.types ρ) .null p.nodes r

theorem denote_some {rules : Rules} {p : Problem} {ρ : ℕ → ℤ} {r : Ref} {n : Node}
    (h : p.nodes[r]? = some n) : p.denote rules ρ r =
      n.sem rules p.types ρ fun c => if c < r then p.denote rules ρ c else .null :=
  NodePool.denote_some h

/-- Every value is admitted and every constraint holds. -/
structure Solution (rules : Rules) (p : Problem) (ρ : ℕ → ℤ) : Prop where
  admits : ∀ s ∈ p.vars, s.Admits (ρ s.varId)
  holds : ∀ c ∈ p.constraints, (p.denote rules ρ c).Truth

end Problem

/-- The variables named are below `n`, each declared once, and the roots are in the pool. -/
structure Bounded (p : Problem) (n : ℕ) : Prop where
  nodes : ∀ a ∈ p.nodes, ∀ v ∈ a.varIds, v < n
  vars : ∀ s ∈ p.vars, s.varId < n
  once : (p.vars.map VarSpec.varId).Nodup
  roots : ∀ c ∈ p.constraints, c < p.nodes.length

/-- A problem as the builder makes it: every variable named is declared, each once, and a
node comes after its operands. -/
structure WellFormed (p : Problem) : Prop where
  declared : ∀ a ∈ p.nodes, ∀ v ∈ a.varIds, ∃ s ∈ p.vars, s.varId = v
  once : (p.vars.map VarSpec.varId).Nodup
  order : ∀ r a, p.nodes[r]? = some a → ∀ c ∈ Node.refs a, c < r ∨ p.nodes[c]? = none
  roots : ∀ c ∈ p.constraints, c < p.nodes.length

namespace Problem

theorem spec?_eq_some {p : Problem} (h : (p.vars.map VarSpec.varId).Nodup) {s : VarSpec}
    (hs : s ∈ p.vars) : p.spec? s.varId = some s := by
  obtain ⟨t,ht⟩ := Option.isSome_iff_exists.mp
    (List.find?_isSome.mpr ⟨s,hs,decide_eq_true rfl⟩ : (p.spec? s.varId).isSome)
  have hid : t.varId = s.varId := by simpa using List.find?_some ht
  rw [spec?,ht,List.inj_on_of_nodup_map h (List.mem_of_find?_eq_some ht) hs hid]

theorem types_eq {p : Problem} (h : (p.vars.map VarSpec.varId).Nodup) {s : VarSpec}
    (hs : s ∈ p.vars) : p.types s.varId = ⟨s.width,s.isSigned⟩ := by
  rw [types,spec?_eq_some h hs]

theorem sem_congr {n : ℕ} {rules : Rules} {Γ Γ' : ℕ → Ty} {ρ ρ' : ℕ → ℤ} {a : Node}
    (ha : ∀ v ∈ a.varIds, v < n) (hΓ : ∀ v < n, Γ v = Γ' v) (hρ : ∀ v < n, ρ v = ρ' v)
    (m : Ref → Meaning) : a.sem rules Γ ρ m = a.sem rules Γ' ρ' m := by
  have hvars : a.varIds.map (fun v => Meaning.ofVar (Γ v) (ρ v)) =
      a.varIds.map fun v => Meaning.ofVar (Γ' v) (ρ' v) := by
    apply List.map_congr_left
    intro v hv
    rw [hΓ v (ha v hv),hρ v (ha v hv)]
  unfold Node.sem
  split
  · rw [hΓ _ (ha _ (by simp [Node.varIds])),hρ _ (ha _ (by simp [Node.varIds]))]
  · rfl
  · rfl
  · rfl
  · rw [hvars]

theorem denote_congr {p : Problem} {n : ℕ} (hp : ∀ a ∈ p.nodes, ∀ v ∈ a.varIds, v < n)
    {rules : Rules} {ρ ρ' : ℕ → ℤ} (hρ : ∀ v < n, ρ v = ρ' v) (r : Ref) :
    p.denote rules ρ r = p.denote rules ρ' r := by
  induction r using Nat.strong_induction_on with
  | _ r ih =>
    apply NodePool.denote_step rfl
    · intro a ha m
      exact sem_congr (hp a (List.mem_of_getElem? ha)) (fun _ _ => rfl) hρ m
    · exact ih

end Problem
end Fields
end DvSolve
