import DvSolve.SvMask
import DvSolve.SvConvert

/-! Which bits of a variable a chain of casts, extensions, slices and right shifts reads. -/
namespace DvSolve
namespace Sv

open TwosComp Validate
open Option (bind_eq_some_iff map_eq_some_iff)

variable {Q : ℕ → ℕ → Prop} {Γ : ℕ → Ty} {ρ : Env} {typeOf : Expr → Option Ty}
variable {x : Expr} {o : MrwSrc}

/-- What elaboration leaves of right shifts: the number shifted is unsigned, and a constant
amount is the number its int64 spells. -/
def Explicit (Γ : ℕ → Ty) : Expr → Prop
  | .binary op l r =>
    (op = .rshift → (ty Γ l).s = false ∧ Plain r) ∧ Explicit Γ l ∧ Explicit Γ r
  | .unary _ x => Explicit Γ x
  | .ite c t e => Explicit Γ c ∧ Explicit Γ t ∧ Explicit Γ e
  | .inRange v lo hi => Explicit Γ v ∧ Explicit Γ lo ∧ Explicit Γ hi
  | .inSet v _ elems => Explicit Γ v ∧ ∀ i, Explicit Γ (elems i)
  | .inRanges v _ los his => Explicit Γ v ∧ (∀ i, Explicit Γ (los i)) ∧ ∀ i, Explicit Γ (his i)
  | .extend x _ _ _ | .svCast x _ _ _ _ | .cast x _ _ | .extract x _ _ => Explicit Γ x
  | .concat hi lo _ => Explicit Γ hi ∧ Explicit Γ lo
  | _ => True

def srcKept (Γ : ℕ → Ty) : Expr → ℕ
  | .var id => (Γ id).fix.w
  | .extend x fromBits _ _ => min (srcKept Γ x) fromBits
  | .svCast x fromBits toBits _ _ => min (srcKept Γ x) (min toBits fromBits)
  | .extract x hiBit loBit => min (srcKept Γ x-loBit) (hiBit+1-loBit)
  | .binary _ l (.const value _ _) => srcKept Γ l-value.toNat
  | _ => 0

/-- The `n` low bits of a number of type `t` may be set: how many may be in a context of `W`
bits, which repeats the sign of a narrower signed number. -/
def seenAt (n : ℕ) (t : Ty) (W : ℕ) : ℕ := if t.s ∧ t.w < W ∧ t.w ≤ n then W else n

def srcSeen (Γ : ℕ → Ty) : Expr → ℕ → ℕ
  | .var id, _ => (Γ id).fix.w
  | .extend x fromBits toBits signExtend, W =>
    seenAt (min (srcSeen Γ x fromBits) fromBits) (ty Γ (.extend x fromBits toBits signExtend)) W
  | .svCast x fromBits toBits signExtend dstSigned, W =>
    seenAt (min (srcSeen Γ x fromBits) (min toBits fromBits))
      (ty Γ (.svCast x fromBits toBits signExtend dstSigned)) W
  | .extract x hiBit loBit, _ => min (srcSeen Γ x (ty Γ x).w-loBit) (hiBit+1-loBit)
  | .binary _ l (.const value _ _), W => srcSeen Γ l W-value.toNat
  | _, _ => 0

def srcExact (Γ : ℕ → Ty) (x : Expr) (W : ℕ) : Bool := min (srcSeen Γ x W) W ≤ srcKept Γ x

def own (Γ : ℕ → Ty) (e : Expr) : Option Ty := some (ty Γ e)

/-- A repeated sign does no harm to `x & m == v`: a bit above those of the variable is asked to
be set, or `m` keeps none of the variable, which the rewriting refuses; `m` keeps no repeated bit;
or the sign has to be zero. -/
def EqReads (Γ : ℕ → Ty) (x : Expr) (m v W : ℕ) : Prop :=
  ∀ o rs, mrwSource (own Γ) x W = some (some o) → mrwRuns m W = some rs →
    (∃ i < W, o.avail ≤ i ∧ m.testBit i = true ∧ v.testBit i = true) ∨
    (∀ i < W, m.testBit i = true → o.avail ≤ i) ∨
    (∀ i < W, m.testBit i = true → i < o.avail ∨ srcSeen Γ x W ≤ i) ∨
    m.testBit (o.avail-1) = true ∧ v.testBit (o.avail-1) = false

structure EqConstReads (Γ : ℕ → Ty) (a c : Expr) (W : ℕ) : Prop where
  and : ∀ x m v, mrwMasked a W false = some (x,m) → mrwConst c W = some v →
    v &&& ((2^W-1) ^^^ m) = 0 → EqReads Γ x m v W
  or : ∀ x m v, mrwMasked a W true = some (x,m) → mrwConst c W = some v →
    v &&& m = m → EqReads Γ x ((2^W-1) ^^^ m) v W

def PowReads (Γ : ℕ → Ty) : Expr → Prop
  | .binary .lshift p s => (ty Γ (.binary .lshift p s)).s = false →
    mrwConst p (ty Γ (.binary .lshift p s)).w = some 1 → (ty Γ s).s = false →
    ∀ o, mrwSource (own Γ) s (ty Γ s).w = some (some o) → o.off = 0 → o.avail = o.vw →
      (Γ o.var).fix.s = false → o.vw ≤ mrwMaxShiftVw → 2^o.vw-1 < (ty Γ (.binary .lshift p s)).w →
      srcExact Γ s (ty Γ s).w = true
  | _ => True

def LowReads (Γ : ℕ → Ty) : Expr → Prop
  | .binary .sub p q => mrwConst q (ty Γ (.binary .sub p q)).w = some 1 → PowReads Γ p
  | _ => True

def Sliced (Γ : ℕ → Ty) (x : Expr) (W : ℕ) : Prop :=
  (ty Γ x).s = false ∧ ∃ o, mrwSource (own Γ) x W = some (some o)

def AlignReads (Γ : ℕ → Ty) (W : ℕ) : Expr → Prop
  | .binary .mod x y => Sliced Γ x W → PowReads Γ y
  | .binary .band x y => (Sliced Γ x W → LowReads Γ y) ∧ (Sliced Γ y W → LowReads Γ x)
  | _ => True

def EqTakes (Γ : ℕ → Ty) (a c : Expr) (W : ℕ) : Prop :=
  ∃ x m v o rs, mrwMasked a W false = some (x,m) ∧ mrwConst c W = some v ∧
    v &&& ((2^W-1) ^^^ m) = 0 ∧ mrwSource (own Γ) x W = some (some o) ∧ mrwRuns m W = some rs ∧
    (∀ r ∈ rs, mrwStuck o v r = false) ∧ ∃ r ∈ rs, r.1 < o.avail

/-- An unsigned operand with a mask of one run, next to `c`: the run stays within the bits of the
variable or leaves them all, no sign is repeated, or `_mrw_eq_const` takes the comparison. -/
def RunReads (Γ : ℕ → Ty) (eq : Bool) (a c : Expr) (W : ℕ) : Prop :=
  ∀ x m lo hi o, W ≤ 64 → (ty Γ a).s = false →
    mrwMasked a (ty Γ a).w false = some (x,m) → mrwRuns m (ty Γ a).w = some [(lo,hi)] →
    mrwSource (own Γ) x (ty Γ a).w = some (some o) → lo < o.avail →
    ¬(lo = 0 ∧ o.avail ≤ hi+1) → hi < o.avail ∨ srcExact Γ x (ty Γ a).w = true ∨
      eq = true ∧ EqTakes Γ a c W

structure CmpReads (Γ : ℕ → Ty) (eq : Bool) (a b : Expr) (W : ℕ) : Prop where
  eqs : eq = true → EqConstReads Γ a b W ∧ EqConstReads Γ b a W
  aligns : eq = true → (mrwConst b W = some 0 → (ty Γ a).s = false → AlignReads Γ W a) ∧
    (mrwConst a W = some 0 → (ty Γ b).s = false → AlignReads Γ W b)
  runs : RunReads Γ eq a b W ∧ RunReads Γ eq b a W

def SelfIte (Γ : ℕ → Ty) (ptr : Expr → Expr → Bool) (a e c x e' : Expr) : Prop :=
  ∃ t f, mrwPeel (own Γ) 2 a e = some (.ite c t f,e') ∧
    (ty Γ (.ite c t f) = ty Γ t ∧ ty Γ (.ite c t f) = ty Γ f ∧ ty Γ (.ite c t f) = ty Γ e') ∧
    (mrwSame ptr 17 t e' = true ∧ x = f ∨
      mrwSame ptr 17 t e' = false ∧ mrwSame ptr 17 f e' = true ∧ x = t)

def isEq (op : BinOp) : Bool := op = .eq || op = .neq

inductive Spot
  | root (e : Expr)
  | cmp (eq : Bool) (l r : Expr)

/-- The comparisons that the rewriting meets: those under the connectives; in place of one of a
conditional with its own branch, those of its condition and the one of the other branch. -/
inductive Met (Γ : ℕ → Ty) (ptr : Expr → Expr → Bool) : Spot → Bool → Expr → Expr → Prop
  | part {op l r x eq a b} (hop : op = .and ∨ op = .or) (hx : x = l ∨ x = r) :
    Met Γ ptr (.root x) eq a b → Met Γ ptr (.root (.binary op l r)) eq a b
  | not {x eq a b} : Met Γ ptr (.root x) eq a b → Met Γ ptr (.root (.unary .not x)) eq a b
  | cmp {op l r eq a b} (hop : op.isCmp = true) :
    Met Γ ptr (.cmp (isEq op) l r) eq a b → Met Γ ptr (.root (.binary op l r)) eq a b
  | cond {k l r c x e eq a b} (h : SelfIte Γ ptr l r c x e ∨ SelfIte Γ ptr r l c x e) :
    Met Γ ptr (.root c) eq a b → Met Γ ptr (.cmp k l r) eq a b
  | branch {k l r c x e eq a b} (h : SelfIte Γ ptr l r c x e ∨ SelfIte Γ ptr r l c x e) :
    Met Γ ptr (.cmp k x e) eq a b → Met Γ ptr (.cmp k l r) eq a b
  | here {k l r} (h : ∀ c x e, ¬(SelfIte Γ ptr l r c x e ∨ SelfIte Γ ptr r l c x e)) :
    Met Γ ptr (.cmp k l r) k l r

def Reads (Γ : ℕ → Ty) (ptr : Expr → Expr → Bool) (s : Spot) : Prop :=
  ∀ eq a b, Met Γ ptr s eq a b → CmpReads Γ eq a b (max (ty Γ a).w (ty Γ b).w)

def SrcBits (Γ : ℕ → Ty) (x : Expr) (W : ℕ) (o : MrwSrc) : Prop :=
  ∀ ρ S i, i < W → (pat (eval Γ ρ x W S) W).testBit i =
    (decide (i < o.avail) && (pat (ρ.value o.var) o.vw).testBit (i+o.off))

structure SrcSpec (Γ : ℕ → Ty) (x : Expr) (W : ℕ) (o : MrwSrc) : Prop where
  width : o.vw = (Γ o.var).fix.w
  width_le : o.vw ≤ 64
  kept : o.avail = srcKept Γ x
  pos : 0 < o.avail
  fits : o.avail+o.off ≤ o.vw
  own : o.avail ≤ (ty Γ x).w
  le_seen : o.avail ≤ srcSeen Γ x W
  seen_own : W = (ty Γ x).w → srcSeen Γ x W ≤ W
  bits : ∀ ρ S i, i < W → (pat (eval Γ ρ x W S) W).testBit i =
    (decide (i < srcSeen Γ x W) && (pat (ρ.value o.var) o.vw).testBit (min i (o.avail-1)+o.off))

theorem ite_null_eq_some {α : Type} {p : Prop} [Decidable p] {x : Option (Option α)} {r : α}
    (h : (if p then some none else x) = some (some r)) : ¬p ∧ x = some (some r) := by
  split_ifs at h with hp
  · simp at h
  · exact ⟨hp,h⟩

theorem mrwSrc_own (ht : Typed Γ typeOf) {n W : ℕ} {r : Option MrwSrc}
    (h : mrwSrc typeOf n x W = some r) : mrwSrc (own Γ) n x W = some r := by
  induction n generalizing x W r with
  | zero => exact h
  | succ n ih =>
    cases x with
    | var id =>
      obtain ⟨t,hty,h⟩ := map_eq_some_iff.mp h
      obtain rfl := ht _ _ hty
      exact congrArg some h
    | extend y fromBits toBits signExtend | svCast y fromBits toBits signExtend dstSigned =>
      rw [mrwSrc] at h ⊢
      split_ifs at h ⊢ with hno
      · exact h
      · obtain ⟨q,hq,rfl⟩ := map_eq_some_iff.mp h
        rw [ih hq]
        rfl
    | extract y hiBit loBit =>
      rw [mrwSrc] at h ⊢
      obtain ⟨t,hty,h⟩ := bind_eq_some_iff.mp h
      obtain rfl := ht _ _ hty
      rw [own,Option.bind_some]
      split_ifs at h ⊢ with hno
      · exact h
      · obtain ⟨q,hq,rfl⟩ := map_eq_some_iff.mp h
        rw [ih hq]
        rfl
    | binary op l r =>
      cases r with
      | const value width isSigned =>
        rw [mrwSrc] at h ⊢
        split_ifs at h ⊢ with hop
        · exact h
        · obtain ⟨t,hty,h⟩ := bind_eq_some_iff.mp h
          obtain rfl := ht _ _ hty
          rw [own,Option.bind_some]
          split_ifs at h ⊢ with hno
          · exact h
          · obtain ⟨q,hq,rfl⟩ := map_eq_some_iff.mp h
            rw [ih hq]
            rfl
      | _ => exact h
    | _ => exact h

theorem pat_shiftRight_testBit {v : ℤ} {w lo n i : ℕ} (hi : i < n) (hw : lo+n ≤ w) :
    (pat (v >>> lo) n).testBit i = (pat v w).testBit (i+lo) := by
  have hmod : v ≡ (pat v w : ℤ) [ZMOD 2^w] := by
    rw [pat_cast]
    exact (Int.mod_modEq v _).symm
  have hn := pat_congr (shiftRight_modEq hmod hw)
  have hcast : ((pat v w : ℤ) >>> lo) = ((pat v w >>> lo : ℕ) : ℤ) := rfl
  rw [hn,hcast,pat_natCast,Nat.testBit_mod_two_pow,Nat.testBit_shiftRight,Nat.add_comm]
  simp [hi]

def OwnBits (Γ : ℕ → Ty) (x : Expr) (f : ℕ) : Prop :=
  ∀ ρ i, i < f → (pat (eval Γ ρ x (ty Γ x).w (ty Γ x).s) f).testBit i =
    (pat (eval Γ ρ x f (ty Γ x).s) f).testBit i

theorem ownBits_of_wrap {f : ℕ}
    (h : ∀ ρ, ∃ v, InTy v (ty Γ x).w (ty Γ x).s ∧ ∀ W S, eval Γ ρ x W S = wrap v W S) :
    OwnBits Γ x f := by
  intro ρ i hi
  obtain ⟨v,hv,heval⟩ := h ρ
  rw [heval,heval,wrap_of_inTy hv,pat_wrap]

theorem ownBits_of_width : OwnBits Γ x (ty Γ x).w := fun _ _ _ => rfl

theorem SrcSpec.convert {e : Expr} {f t W : ℕ} {se s : Bool} (h : SrcSpec Γ x f o)
    (hown : OwnBits Γ x f) (hf : 0 < f) (ht : 0 < t) (hse : f < t → se = false)
    (hty : ty Γ e = ⟨t,s⟩) (hkept : srcKept Γ e = min (srcKept Γ x) (min t f))
    (hseen : srcSeen Γ e W = seenAt (min (srcSeen Γ x f) (min t f)) ⟨t,s⟩ W)
    (heval : ∀ ρ S, eval Γ ρ e W S = wrap (wrap (wrap (eval Γ ρ x (ty Γ x).w (ty Γ x).s) f se) t s) W S) :
    SrcSpec Γ e W {o with avail := min o.avail (min t f)} := by
  have hpos := h.pos
  have hfits := h.fits
  have hle := h.le_seen
  refine ⟨h.width,h.width_le,by rw [hkept,h.kept],by simp; omega,by simp; omega,?_,?_,?_,?_⟩
  · rw [hty]
    exact (min_le_right _ _).trans (min_le_left t f)
  · rw [hseen,seenAt]
    simp only
    split_ifs <;> omega
  · rw [hty,hseen,seenAt]
    simp only
    split_ifs <;> omega
  · intro ρ S i hi
    -- the bits of the type of its own
    have hin : ∀ j, j < t → (pat (wrap (eval Γ ρ x (ty Γ x).w (ty Γ x).s) f se) t).testBit j =
        (decide (j < min (srcSeen Γ x f) f) &&
          (pat (ρ.value o.var) o.vw).testBit (min j (o.avail-1)+o.off)) := by
      intro j hj
      rw [wrap_testBit _ _ _ hj]
      split_ifs with hjf
      · rw [hown ρ j hjf,h.bits ρ _ j hjf]
        simp [hjf]
      · rw [hse (by omega)]
        simp
        omega
    rw [heval,pat_wrap,wrap_testBit _ _ _ hi,hseen,seenAt]
    simp only
    split_ifs with hit hrep hrep
    · rw [hin i hit]
      congr 1
      · rw [decide_eq_decide]
        omega
      · congr 1
        omega
    · rw [hin i hit]
      by_cases hlt : i < min (srcSeen Γ x f) f
      · have hmin : min i (o.avail-1) = min i (min o.avail (min t f)-1) := by omega
        rw [hmin]
        congr 1
        rw [decide_eq_decide]
        omega
      · simp only [hlt,decide_false,Bool.false_and,show ¬i < min (srcSeen Γ x f) (min t f) by omega]
    · rw [hrep.1,hin (t-1) (by omega),Bool.true_and]
      congr 1
      · rw [decide_eq_decide]
        omega
      · congr 1
        omega
    · have hno : (decide (i < min (srcSeen Γ x f) (min t f))) = false := by
        rw [decide_eq_false_iff_not]
        omega
      rw [hno,Bool.false_and,Bool.and_eq_false_iff]
      cases s with
      | false => exact Or.inl rfl
      | true =>
        right
        rw [hin (t-1) (by omega),Bool.and_eq_false_iff]
        left
        rw [decide_eq_false_iff_not]
        simp only [true_and] at hrep
        omega

theorem SrcSpec.slice {hiBit loBit W : ℕ} (h : SrcSpec Γ x (ty Γ x).w o) (hn : 0 < hiBit+1-loBit)
    (hhi : hiBit < (ty Γ x).w) (hlo : loBit < o.avail) :
    SrcSpec Γ (.extract x hiBit loBit) W
      {o with off := o.off+loBit, avail := min (o.avail-loBit) (hiBit+1-loBit)} := by
  have hfits := h.fits
  have hle := h.le_seen
  have hty : ty Γ (.extract x hiBit loBit) = ⟨hiBit+1-loBit,false⟩ := Ty.fix_eq hn
  refine ⟨h.width,h.width_le,by rw [srcKept,h.kept],by simp; omega,by simp; omega,?_,?_,?_,?_⟩
  · rw [hty]
    exact min_le_right _ _
  · rw [srcSeen]
    simp only
    omega
  · rw [hty,srcSeen]
    simp only
    omega
  · intro ρ S i hi
    have hseen : srcSeen Γ (.extract x hiBit loBit) W =
        min (srcSeen Γ x (ty Γ x).w-loBit) (hiBit+1-loBit) := rfl
    rw [eval,pat_wrap,wrap_testBit _ _ _ hi,Ty.fix_eq (t := ⟨hiBit+1-loBit,false⟩) hn,hseen,Bool.false_and]
    dsimp only
    split_ifs with hin
    · rw [pat_shiftRight_testBit (w := (ty Γ x).w) hin (by omega),h.bits ρ _ _ (by omega)]
      congr 1
      · rw [decide_eq_decide]
        omega
      · congr 1
        omega
    · rw [eq_comm,Bool.and_eq_false_iff]
      left
      rw [decide_eq_false_iff_not]
      omega

theorem SrcSpec.shift {l r : Expr} {value : ℤ} {width : ℕ} {isSigned : Bool}
    (h : SrcSpec Γ l (ty Γ l).w o)
    (hamount : ∀ ρ, pat (eval Γ ρ r (ty Γ r).w (ty Γ r).s) (ty Γ r).w = value.toNat)
    (hk : value.toNat < o.avail) (hr : r = .const value width isSigned) :
    SrcSpec Γ (.binary .rshift l r) (ty Γ l).w
      {o with off := o.off+value.toNat, avail := o.avail-value.toNat} := by
  have hfits := h.fits
  have hle := h.le_seen
  have hseen := h.seen_own rfl
  subst hr
  have hty : ty Γ (.binary .rshift l (.const value width isSigned)) = ty Γ l := ty_shift rfl _ _
  refine ⟨h.width,h.width_le,by rw [srcKept,h.kept],by simp; omega,by simp; omega,?_,?_,?_,?_⟩
  · rw [hty]
    simp only
    omega
  · rw [srcSeen]
    simp only
    omega
  · rw [srcSeen]
    omega
  · intro ρ S i hi
    have hseen' : srcSeen Γ (.binary .rshift l (.const value width isSigned)) (ty Γ l).w =
        srcSeen Γ l (ty Γ l).w-value.toNat := rfl
    have hshift : ∀ a, Sv.shift .rshift ⟨(ty Γ l).w,S⟩ a value.toNat =
        wrap ((pat a (ty Γ l).w >>> value.toNat : ℕ) : ℤ) (ty Γ l).w S := fun _ => rfl
    rw [eval_shift rfl,hamount,hshift,pat_wrap,pat_natCast,Nat.testBit_mod_two_pow,Nat.testBit_shiftRight,
      hseen',decide_eq_true hi,Bool.true_and]
    dsimp only
    by_cases hin : value.toNat+i < (ty Γ l).w
    · rw [h.bits ρ S _ hin]
      congr 1
      · rw [decide_eq_decide]
        omega
      · congr 1
        omega
    · rw [Nat.testBit_lt_two_pow ((pat_lt _ _).trans_le (Nat.pow_le_pow_right (by decide) (not_lt.mp hin))),
        eq_comm,Bool.and_eq_false_iff]
      left
      rw [decide_eq_false_iff_not]
      omega

theorem Explicit.amount {l r : Expr} (h : Explicit Γ (.binary .rshift l r)) {value : ℤ} {width : ℕ}
    {isSigned : Bool} (hr : r = .const value width isSigned) (h0 : 0 ≤ value) (hlt : value < 2^63) :
    pat (eval Γ ρ r (ty Γ r).w (ty Γ r).s) (ty Γ r).w = value.toNat := by
  subst hr
  obtain ⟨hpos,hplain⟩ := (h.1 rfl).2
  have hty : constType value width isSigned = ⟨width,isSigned⟩ := if_pos hpos.ne'
  have hval : constValue value ⟨width,isSigned⟩ = value := by
    rw [hplain]
    split_ifs
    · rfl
    · omega
  rw [ty,hty,eval,hty,hval,pat_wrap]
  have hin : InTy value width isSigned := by
    rw [← hval]
    exact wrap_inTy _ _ _
  have hmod : value % 2^width = value := by
    apply Int.emod_eq_of_lt h0
    unfold InTy at hin
    split_ifs at hin <;> omega
  rw [pat,hmod]

theorem mrwSrc_spec (ht : Typed Γ typeOf) {n : ℕ} {W : ℕ} (hsized : Sized Q Γ x)
    (hex : Explicit Γ x) (h : mrwSrc typeOf n x W = some (some o)) :
    SrcSpec Γ x W o ∧ OwnBits Γ x W := by
  induction n generalizing x W o with
  | zero => simp [mrwSrc] at h
  | succ n ih =>
    cases x with
    | var id =>
      obtain ⟨t,hty,h⟩ := map_eq_some_iff.mp h
      obtain rfl := ht _ _ hty
      split_ifs at h with hno
      obtain rfl := Option.some.inj h
      have hpos := ty_w_pos Γ (.var id)
      refine ⟨⟨rfl,by simp at hno ⊢; omega,rfl,hpos,le_refl _,le_refl _,le_refl _,fun h => h.ge,?_⟩,?_⟩
      · intro ρ S i hi
        rw [eval,pat_wrap,wrap_testBit _ _ _ hi]
        simp only [ty,srcSeen] at hno ⊢
        split_ifs with hiw
        · simp [hiw]
          congr 1
          omega
        · simp only [hiw,decide_false,Bool.false_and,Bool.and_eq_false_iff]
          left
          rw [Bool.eq_false_iff]
          intro hs
          exact hno (Or.inr ⟨by omega,hs⟩)
      · exact ownBits_of_wrap fun ρ => ⟨_,by rw [ty]; exact wrap_inTy _ _ _,fun W S => rfl⟩
    | extend y fromBits toBits signExtend =>
      rw [mrwSrc] at h
      obtain ⟨hno,h⟩ := ite_null_eq_some h
      obtain ⟨r,hr,h⟩ := map_eq_some_iff.mp h
      obtain ⟨o',rfl,rfl⟩ := map_eq_some_iff.mp h
      obtain ⟨hy,hown⟩ := ih hsized.1 hex hr
      simp only [Bool.not_eq_true,not_or,not_lt] at hno
      have hty : ty Γ (.extend y fromBits toBits signExtend) = ⟨toBits,(ty Γ y).s⟩ := Ty.fix_eq hsized.2.2
      have hmin : min toBits fromBits = fromBits := by omega
      have hspec := SrcSpec.convert (e := .extend y fromBits toBits signExtend) (W := W) hy hown
        hsized.2.1 hsized.2.2 (fun _ => hno.1) hty (by rw [hmin]; rfl) (by rw [hmin,← hty]; rfl)
        fun ρ S => by simp only [eval,Ty.fix_eq (t := ⟨toBits,(ty Γ y).s⟩) hsized.2.2]
      rw [hmin] at hspec
      refine ⟨hspec,ownBits_of_wrap fun ρ => ⟨_,?_,fun W S => rfl⟩⟩
      rw [hty,Ty.fix_eq (t := ⟨toBits,(ty Γ y).s⟩) hsized.2.2]
      exact wrap_inTy _ _ _
    | svCast y fromBits toBits signExtend dstSigned =>
      rw [mrwSrc] at h
      obtain ⟨hno,h⟩ := ite_null_eq_some h
      obtain ⟨r,hr,h⟩ := map_eq_some_iff.mp h
      obtain ⟨o',rfl,rfl⟩ := map_eq_some_iff.mp h
      obtain ⟨hy,hown⟩ := ih hsized.1 hex hr
      have hty : ty Γ (.svCast y fromBits toBits signExtend dstSigned) = ⟨toBits,dstSigned⟩ :=
        Ty.fix_eq hsized.2.2
      have hspec := SrcSpec.convert (e := .svCast y fromBits toBits signExtend dstSigned) (W := W) hy hown
        hsized.2.1 hsized.2.2 (fun hlt => by simpa using fun h1 => hno ⟨hlt,h1⟩) hty rfl
        (by rw [← hty]; rfl)
        fun ρ S => by simp only [eval,Ty.fix_eq (t := ⟨toBits,dstSigned⟩) hsized.2.2]
      refine ⟨hspec,ownBits_of_wrap fun ρ => ⟨_,?_,fun W S => rfl⟩⟩
      rw [hty,Ty.fix_eq (t := ⟨toBits,dstSigned⟩) hsized.2.2]
      exact wrap_inTy _ _ _
    | extract y hiBit loBit =>
      rw [mrwSrc] at h
      obtain ⟨t,hty,h⟩ := bind_eq_some_iff.mp h
      obtain rfl := ht _ _ hty
      obtain ⟨hno,h⟩ := ite_null_eq_some h
      obtain ⟨r,hr,h⟩ := map_eq_some_iff.mp h
      obtain ⟨o',rfl,ho⟩ := bind_eq_some_iff.mp h
      split_ifs at ho with hlo
      obtain rfl := Option.some.inj ho
      obtain ⟨hy,-⟩ := ih hsized.1 hex hr
      have hn : 0 < hiBit+1-loBit := by omega
      have hte : ty Γ (.extract y hiBit loBit) = ⟨hiBit+1-loBit,false⟩ := Ty.fix_eq hn
      refine ⟨hy.slice hn (by omega) (by omega),ownBits_of_wrap fun ρ => ⟨_,?_,fun W S => rfl⟩⟩
      rw [hte,Ty.fix_eq (t := ⟨hiBit+1-loBit,false⟩) hn]
      exact wrap_inTy _ _ _
    | binary op l r =>
      cases r with
      | const value width isSigned =>
        obtain ⟨hop,h⟩ := ite_null_eq_some h
        obtain rfl := not_not.mp hop
        obtain ⟨t,hty,h⟩ := bind_eq_some_iff.mp h
        obtain rfl := ht _ _ hty
        obtain ⟨hW,h⟩ := ite_null_eq_some h
        obtain rfl := not_not.mp hW
        obtain ⟨r,hr,h⟩ := map_eq_some_iff.mp h
        obtain ⟨o',rfl,ho⟩ := bind_eq_some_iff.mp h
        split_ifs at ho with hk
        obtain rfl := Option.some.inj ho
        obtain ⟨hl,-⟩ := ih hsized.1 hex.2.1 hr
        exact ⟨hl.shift (fun ρ => hex.amount rfl (by omega) hsized.2.2) (by omega) rfl,ownBits_of_width⟩
      | _ => simp [mrwSrc] at h
    | _ => simp [mrwSrc] at h

/-- Where no sign is repeated, and only there, the source is what `_mrw_src` says it is. -/
theorem SrcSpec.bits_iff {W : ℕ} (h : SrcSpec Γ x W o) :
    SrcBits Γ x W o ↔ srcExact Γ x W = true := by
  rw [srcExact,decide_eq_true_eq,← h.kept]
  have hpos := h.pos
  have hfits := h.fits
  constructor
  · intro hbits
    by_contra hno
    rw [not_le,lt_min_iff] at hno
    -- a variable of ones
    have hone := h.bits ⟨fun _ => -1,fun _ _ => 0,fun _ _ => 0,fun _ => false⟩ false o.avail hno.2
    rw [hbits _ _ _ hno.2] at hone
    have hset : (pat (-1) o.vw).testBit (o.avail-1+o.off) = true := by
      have : pat (-1) o.vw = 2^o.vw-1 := by
        have hneg := pat_sub_two_pow (n := 0) (w := 0) (W := o.vw) (by decide) (by omega)
        simpa using hneg
      rw [this,Nat.testBit_two_pow_sub_one,decide_eq_true_eq]
      omega
    simp [hno.1,hset] at hone
  · intro hle ρ S i hi
    rw [h.bits ρ S i hi]
    have hseen := h.le_seen
    by_cases hlt : i < o.avail
    · rw [show min i (o.avail-1) = i by omega]
      simp [hlt]
      omega
    · have hno : ¬i < srcSeen Γ x W := by omega
      simp [hlt,hno]

end Sv
end DvSolve
