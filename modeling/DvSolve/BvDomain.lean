import DvSolve.PropSlice

/-! Three-valued bit vectors and split ranges: `dvs_bvdom.c` and `dvs_bvbounds.c`. -/
namespace DvSolve
namespace Bvdom

open BitVec (getLsbD getLsbD_and getLsbD_eq_getElem getLsbD_not getLsbD_or getLsbD_setWidth getLsbD_xor le_def lt_def ofNat twoPow)
open Nat (two_pow_pos)

def mask (w : ℕ) : BitVec 64 := Solver.onesMask w

/-- `dvs_bvdom_t`: a bit set in `lo` is one, a bit clear in `hi` is zero. -/
structure Dom where
  lo : BitVec 64
  hi : BitVec 64
  width : ℕ
deriving DecidableEq

def initUnknown (w : ℕ) : Dom := ⟨0#64,mask w,w⟩

def initValue (w : ℕ) (v : BitVec 64) : Dom := ⟨v &&& mask w,v &&& mask w,w⟩

def initFromRangeU (w : ℕ) (loVal hiVal : BitVec 64) : Bool × Dom :=
  let m := mask w
  let loVal := loVal &&& m
  let hiVal := hiVal &&& m
  if hiVal < loVal then (false,initUnknown w)
  else
    let diff := loVal ^^^ hiVal
    match (List.range w).reverse.find? fun i => diff &&& 1#64 <<< i != 0#64 with
    | none => (true,initValue w loVal)
    | some firstDiff =>
      let belowMask := 1#64 <<< firstDiff ||| (1#64 <<< firstDiff-1#64)
      let fixedVal := loVal &&& (m &&& ~~~belowMask)
      (true,⟨fixedVal,fixedVal ||| belowMask,w⟩)

def isValid (d : Dom) : Bool := d.lo &&& ~~~d.hi &&& mask d.width == 0#64

def matchValue (d : Dom) (v : BitVec 64) : Bool :=
  let fixed := ~~~(d.lo ^^^ d.hi) &&& mask d.width
  fixed &&& d.lo == fixed &&& v &&& mask d.width

def meet (a b : Dom) : Dom :=
  let m := mask a.width
  ⟨(a.lo ||| b.lo) &&& m,a.hi &&& b.hi &&& m,a.width⟩

def bvnot (a : Dom) : Dom :=
  let m := mask a.width
  ⟨~~~a.hi &&& m,~~~a.lo &&& m,a.width⟩

def bvand (a b : Dom) : Dom :=
  let m := mask a.width
  ⟨a.lo &&& b.lo &&& m,a.hi &&& b.hi &&& m,a.width⟩

def bvor (a b : Dom) : Dom :=
  let m := mask a.width
  ⟨(a.lo ||| b.lo) &&& m,(a.hi ||| b.hi) &&& m,a.width⟩

def bvxor (a b : Dom) : Dom :=
  let m := mask a.width
  let fa := ~~~(a.lo ^^^ a.hi) &&& m
  let fb := ~~~(b.lo ^^^ b.hi) &&& m
  let fr := fa &&& fb
  let val := (a.lo ^^^ b.lo) &&& m
  ⟨val &&& fr,val &&& fr ||| (~~~fr &&& m),a.width⟩

def bvshlConst (a : Dom) (n : ℕ) : Dom :=
  let m := mask a.width
  if n ≥ a.width then ⟨0#64,0#64,a.width⟩ else ⟨a.lo <<< n &&& m,a.hi <<< n &&& m,a.width⟩

def bvshrConst (a : Dom) (n : ℕ) : Dom :=
  let m := mask a.width
  if n ≥ a.width then ⟨0#64,0#64,a.width⟩ else ⟨(a.lo &&& m) >>> n,(a.hi &&& m) >>> n,a.width⟩

/-- A shift of a 64-bit word, undefined from 64 on. -/
def shl64 (x : BitVec 64) (n : ℕ) : Option (BitVec 64) := if n < 64 then some (x <<< n) else none

def bvashrConst (a : Dom) (n : ℕ) : Option Dom :=
  let m := mask a.width
  if a.width = 0 then some ⟨0#64,0#64,0⟩
  else
    let mb := 1#64 <<< (a.width-1)
    let msbLo := a.lo &&& mb != 0#64
    let msbHi := a.hi &&& mb != 0#64
    if n ≥ a.width then
      if msbLo == msbHi then some ⟨if msbLo then m else 0#64,if msbLo then m else 0#64,a.width⟩
      else some ⟨0#64,m,a.width⟩
    else
      let loShifted := (a.lo &&& m) >>> n
      let hiShifted := (a.hi &&& m) >>> n
      (shl64 m (a.width-n)).map fun top =>
        let topMask := top &&& m
        if msbLo && msbHi then ⟨(loShifted ||| topMask) &&& m,(hiShifted ||| topMask) &&& m,a.width⟩
        else if !msbLo && !msbHi then ⟨loShifted,hiShifted,a.width⟩
        else ⟨loShifted &&& ~~~topMask,hiShifted ||| topMask,a.width⟩

def bvconcat (a b : Dom) : Dom :=
  ⟨(a.lo &&& mask a.width) <<< b.width ||| (b.lo &&& mask b.width),
    (a.hi &&& mask a.width) <<< b.width ||| (b.hi &&& mask b.width),a.width+b.width⟩

def bvextract (a : Dom) (hiBit loBit : ℕ) : Dom :=
  let m := mask (hiBit-loBit+1)
  ⟨a.lo >>> loBit &&& m,a.hi >>> loBit &&& m,hiBit-loBit+1⟩

def zeroExt (a : Dom) (n : ℕ) : Dom :=
  ⟨a.lo &&& mask a.width,a.hi &&& mask a.width,a.width+n⟩

def signExt (a : Dom) (n : ℕ) : Dom :=
  let w := a.width+n
  let am := mask a.width
  if n = 0 then ⟨a.lo &&& am,a.hi &&& am,w⟩
  else
    let mb := 1#64 <<< (a.width-1)
    let msbLo := a.lo &&& mb != 0#64
    let msbHi := a.hi &&& mb != 0#64
    let topMask := mask w &&& ~~~am
    if msbLo && msbHi then ⟨a.lo &&& am ||| topMask,a.hi &&& am ||| topMask,w⟩
    else if !msbLo && !msbHi then ⟨a.lo &&& am,a.hi &&& am,w⟩
    else ⟨a.lo &&& am,a.hi &&& am ||| topMask,w⟩

structure Range where
  min : BitVec 64
  max : BitVec 64
  width : ℕ
  empty : Bool

def rangeInit (width : ℕ) (min max : BitVec 64) : Range :=
  ⟨min &&& mask width,max &&& mask width,width,false⟩

def rangeInitEmpty (width : ℕ) : Range := ⟨0#64,0#64,width,true⟩

def rangeContains (r : Range) (v : BitVec 64) : Bool :=
  if r.empty then false
  else
    let m := mask r.width
    let vm := v &&& m
    r.min &&& m ≤ vm && vm ≤ r.max &&& m

def rangeIntersect (a b : Range) : Range :=
  if a.empty || b.empty then rangeInitEmpty a.width
  else
    let m := mask a.width
    let lo := if a.min &&& m > b.min &&& m then a.min &&& m else b.min &&& m
    let hi := if a.max &&& m < b.max &&& m then a.max &&& m else b.max &&& m
    if lo > hi then rangeInitEmpty a.width else rangeInit a.width lo hi

structure Bounds where
  lo : Range
  hi : Range
  width : ℕ

def boundsInitRange (width : ℕ) (min max : BitVec 64) : Bounds :=
  let m := mask width
  let min := min &&& m
  let max := max &&& m
  if min > max then ⟨rangeInitEmpty width,rangeInitEmpty width,width⟩
  else
    let maxPos := if width ≥ 64 then ofNat 64 (2^63-1) else 1#64 <<< (width-1)-1#64
    let minNeg := if width = 0 then 0#64 else 1#64 <<< (width-1)
    if max ≤ maxPos then ⟨rangeInit width min max,rangeInitEmpty width,width⟩
    else if min ≥ minNeg then ⟨rangeInitEmpty width,rangeInit width min max,width⟩
    else ⟨rangeInit width min maxPos,rangeInit width minNeg max,width⟩

def boundsContains (b : Bounds) (v : BitVec 64) : Bool := rangeContains b.lo v || rangeContains b.hi v

def boundsIntersect (a b : Bounds) : Bounds :=
  ⟨rangeIntersect a.lo b.lo,rangeIntersect a.hi b.hi,a.width⟩

/-- The value has the ones and the zeros that the domain fixes. -/
def Matches (d : Dom) {w : ℕ} (x : BitVec w) : Prop :=
  ∀ i < w, (d.lo.getLsbD i = true → x.getLsbD i = true) ∧
    (x.getLsbD i = true → d.hi.getLsbD i = true)

/-- The domain of width `w` that matches the values in `S`, with no bit left unknown that is
the same in all of them. -/
structure Best (d : Dom) (w : ℕ) (S : BitVec w → Prop) : Prop where
  width : d.width = w
  valid : isValid d = true
  sound : ∀ x, S x → Matches d x
  tight : ∀ i < w, d.lo.getLsbD i = false → d.hi.getLsbD i = true →
    ∀ b, ∃ x, S x ∧ x.getLsbD i = b

/-- The lower part of the bounds is free of the sign bit and the upper part has it. -/
structure Split (b : Bounds) : Prop where
  loWidth : b.lo.width = b.width
  hiWidth : b.hi.width = b.width
  low : ∀ v, rangeContains b.lo v = true → v.getLsbD (b.width-1) = false
  high : ∀ v, rangeContains b.hi v = true → v.getLsbD (b.width-1) = true

inductive Gate
  | and
  | or
  | xor

def Gate.dom : Gate → Dom → Dom → Dom
  | .and => bvand
  | .or => bvor
  | .xor => bvxor

def Gate.bits {w : ℕ} : Gate → BitVec w → BitVec w → BitVec w
  | .and => (· &&& ·)
  | .or => (· ||| ·)
  | .xor => (· ^^^ ·)

inductive Call
  | fromRange (w : ℕ) (lo hi : BitVec 64)
  | not (a : Dom)
  | gate (g : Gate) (a b : Dom)
  | shl (a : Dom) (n : ℕ)
  | shr (a : Dom) (n : ℕ)
  | ashr (a : Dom) (n : ℕ)
  | concat (a b : Dom)
  | extract (a : Dom) (hiBit loBit : ℕ)
  | zext (a : Dom) (n : ℕ)
  | sext (a : Dom) (n : ℕ)
  | common (a b : Dom)
  | initRange (w : ℕ) (min max : BitVec 64)
  | intersect (a b : Bounds)

structure Dom.Ok (d : Dom) : Prop where
  pos : 0 < d.width
  le : d.width ≤ 64
  valid : isValid d = true

def Call.Admitted : Call → Prop
  | .fromRange w lo hi => w ≤ 64 ∧ lo.toNat % 2^w ≤ hi.toNat % 2^w
  | .not a | .shl a _ | .shr a _ | .ashr a _ => a.Ok
  | .gate _ a b | .common a b => a.Ok ∧ b.Ok ∧ b.width = a.width
  | .concat a b => a.Ok ∧ b.Ok ∧ a.width+b.width ≤ 64
  | .extract a hiBit loBit => a.Ok ∧ loBit ≤ hiBit ∧ hiBit < a.width
  | .zext a n | .sext a n => a.Ok ∧ a.width+n ≤ 64
  | .initRange w _ _ => 0 < w ∧ w ≤ 64
  | .intersect a b => a.width ≤ 64 ∧ b.width = a.width ∧ Split a ∧ Split b

/-- The results of an operation on the values a domain matches. -/
def Image (a : Dom) {w : ℕ} (op : BitVec a.width → BitVec w) (z : BitVec w) : Prop :=
  ∃ x, Matches a x ∧ z = op x

/-- The result is the best abstraction of the operation, the meet is that of the values, and
the bounds hold the range and what both bounds hold. -/
def Call.Right : Call → Prop
  | .fromRange w lo hi => (initFromRangeU w lo hi).1 = true ∧ Best (initFromRangeU w lo hi).2 w
      fun x => lo.toNat % 2^w ≤ x.toNat ∧ x.toNat ≤ hi.toNat % 2^w
  | .not a => Best (bvnot a) a.width (Image a (~~~·))
  | .gate g a b => Best (g.dom a b) a.width fun z =>
      ∃ x y, Matches a x ∧ Matches b y ∧ z = g.bits x y
  | .shl a n => Best (bvshlConst a n) a.width (Image a (· <<< n))
  | .shr a n => Best (bvshrConst a n) a.width (Image a (· >>> n))
  | .ashr a n => ∃ r, bvashrConst a n = some r ∧ Best r a.width (Image a (·.sshiftRight n))
  | .concat a b => Best (bvconcat a b) (a.width+b.width) fun z =>
      ∃ (x : BitVec a.width) (y : BitVec b.width), Matches a x ∧ Matches b y ∧ z = x ++ y
  | .extract a hiBit loBit =>
    Best (bvextract a hiBit loBit) (hiBit-loBit+1) (Image a (·.extractLsb hiBit loBit))
  | .zext a n => Best (zeroExt a n) (a.width+n) (Image a (·.setWidth (a.width+n)))
  | .sext a n => Best (signExt a n) (a.width+n) (Image a (·.signExtend (a.width+n)))
  | .common a b => (∀ x : BitVec a.width, Matches (meet a b) x ↔ Matches a x ∧ Matches b x) ∧
      (isValid (meet a b) = false ↔ ∀ x : BitVec a.width, ¬(Matches a x ∧ Matches b x)) ∧
      ∀ d ∈ [a,b,meet a b], isValid d = true → ∀ v,
        matchValue d v = true ↔ Matches d (v.setWidth d.width)
  | .initRange w min max => Split (boundsInitRange w min max) ∧
      ∀ v, boundsContains (boundsInitRange w min max) v = true ↔
        min.toNat % 2^w ≤ v.toNat % 2^w ∧ v.toNat % 2^w ≤ max.toNat % 2^w
  | .intersect a b => Split (boundsIntersect a b) ∧
      ∀ v, boundsContains (boundsIntersect a b) v = true ↔
        boundsContains a v = true ∧ boundsContains b v = true

section Bits

variable {d a b r : Dom} {w n i : ℕ}

theorem mask_getLsbD (hw : w ≤ 64) (i : ℕ) : (mask w).getLsbD i = decide (i < w) :=
  Solver.onesMask_getLsbD hw i

theorem and_one_shiftLeft_ne {x : BitVec 64} (hi : i < 64) :
    (x &&& 1#64 <<< i != 0#64) = x.getLsbD i := by
  have htwo : 1#64 <<< i = twoPow 64 i := rfl
  rw [htwo,BitVec.and_twoPow]
  cases hx : x.getLsbD i with
  | false => simp
  | true =>
    have hne : twoPow 64 i ≠ 0#64 := fun h => by
      have := congrArg (fun y => y.getLsbD i) h
      simp [hi] at this
    simpa using hne

theorem isValid_iff (hw : d.width ≤ 64) :
    isValid d = true ↔ ∀ i < d.width, d.lo.getLsbD i = true → d.hi.getLsbD i = true := by
  rw [isValid,beq_iff_eq]
  constructor
  · intro h i hi hlo
    have hbit := congrArg (fun y => y.getLsbD i) h
    simp only [getLsbD_and,getLsbD_not,mask_getLsbD hw,hi,hlo,
      show i < 64 by omega,decide_true,BitVec.getLsbD_zero] at hbit
    simpa using hbit
  · intro h
    refine BitVec.eq_of_getLsbD_eq fun i hi => ?_
    simp only [getLsbD_and,getLsbD_not,mask_getLsbD hw,BitVec.getLsbD_zero]
    by_cases hiw : i < d.width
    · have := h i hiw
      cases hlo : d.lo.getLsbD i <;> simp_all
    · simp [hiw]

theorem matchValue_iff (hw : d.width ≤ 64) (hd : isValid d = true) (v : BitVec 64) :
    matchValue d v = true ↔ Matches d (v.setWidth d.width) := by
  have hv := (isValid_iff hw).mp hd
  rw [matchValue,beq_iff_eq]
  constructor
  · intro h i hi
    have hbit := congrArg (fun y => y.getLsbD i) h
    simp only [getLsbD_and,getLsbD_not,getLsbD_xor,mask_getLsbD hw,hi,
      show i < 64 by omega,decide_true,Bool.true_and,Bool.and_true] at hbit
    simp only [getLsbD_setWidth,hi,decide_true,Bool.true_and]
    cases hlo : d.lo.getLsbD i <;> cases hhi : d.hi.getLsbD i <;> simp_all
  · intro h
    refine BitVec.eq_of_getLsbD_eq fun i hi => ?_
    simp only [getLsbD_and,getLsbD_not,getLsbD_xor,mask_getLsbD hw]
    by_cases hiw : i < d.width
    · have h1 := h i hiw
      cases hlo : d.lo.getLsbD i <;> cases hhi : d.hi.getLsbD i <;> simp_all
    · simp [hiw]

theorem exists_matches (hd : ∀ i < w, d.lo.getLsbD i = true → d.hi.getLsbD i = true) (hi : i < w)
    {c : Bool} (hlo : d.lo.getLsbD i = true → c = true)
    (hhi : c = true → d.hi.getLsbD i = true) : ∃ x : BitVec w, Matches d x ∧ x.getLsbD i = c := by
  by_cases hc : d.lo.getLsbD i = c
  · refine ⟨d.lo.setWidth w,fun j hj => ?_,?_⟩
    · simpa [getLsbD_setWidth,hj] using hd j hj
    · simp [hi,hc]
  · obtain rfl : c = true := by
      cases c
      · exact absurd (by simpa using hc) (fun h => by simpa using hlo h)
      · rfl
    refine ⟨d.lo.setWidth w ||| twoPow w i,fun j hj => ?_,?_⟩
    · simp only [getLsbD_or,getLsbD_setWidth,BitVec.getLsbD_twoPow,hj,decide_true,
        Bool.true_and]
      refine ⟨fun h => by simp [h],fun h => ?_⟩
      rcases Bool.or_eq_true_iff.mp h with h | h
      · exact hd j hj h
      · obtain rfl : i = j := by simpa [hi] using h
        exact hhi rfl
    · simp [hi]

def Within (lo hi p : Bool) : Prop := (lo = true → p = true) ∧ (p = true → hi = true)

instance (lo hi p : Bool) : Decidable (Within lo hi p) := inferInstanceAs (Decidable (_ ∧ _))

/-- The bounds of the values of `g` on bits between bounds. -/
def Tight (g : Bool → Bool → Bool) (la ha lb hb lr hr : Bool) : Prop :=
  (∀ p q, Within la ha p → Within lb hb q → Within lr hr (g p q)) ∧
    (lr = false → hr = true → ∀ c, ∃ p q, Within la ha p ∧ Within lb hb q ∧ g p q = c)

instance (g : Bool → Bool → Bool) (la ha lb hb lr hr : Bool) :
    Decidable (Tight g la ha lb hb lr hr) := inferInstanceAs (Decidable (_ ∧ _))

/-- A result each bit of which is computed from one bit of each operand. -/
theorem Best.of_bits {wb : ℕ} (ha : a.Ok) (hb : b.Ok) (hwb : b.width = wb) (hw64 : w ≤ 64)
    (hr : r.width = w) (op : BitVec a.width → BitVec wb → BitVec w)
    (hop : ∀ j < w, ∃ i < a.width, ∃ k < wb, ∃ g : Bool → Bool → Bool,
      (∀ x y, (op x y).getLsbD j = g (x.getLsbD i) (y.getLsbD k)) ∧
        Tight g (a.lo.getLsbD i) (a.hi.getLsbD i) (b.lo.getLsbD k) (b.hi.getLsbD k)
          (r.lo.getLsbD j) (r.hi.getLsbD j)) :
    Best r w fun z => ∃ x y, Matches a x ∧ Matches b y ∧ z = op x y := by
  subst hwb hr
  have hva := (isValid_iff ha.le).mp ha.valid
  have hvb := (isValid_iff hb.le).mp hb.valid
  have hsound : ∀ x y, Matches a x → Matches b y → Matches r (op x y) := fun x y hx hy j hj => by
    obtain ⟨i,hi,k,hk,g,hg,ht⟩ := hop j hj
    rw [hg]
    exact ht.1 _ _ (hx i hi) (hy k hk)
  refine ⟨rfl,(isValid_iff hw64).mpr fun j hj hlo => ?_,?_,fun j hj hlo hhi c => ?_⟩
  · obtain ⟨i,hi,k,hk,-⟩ := hop j hj
    obtain ⟨x,hx,-⟩ := exists_matches hva hi (fun h => h) (hva i hi)
    obtain ⟨y,hy,-⟩ := exists_matches hvb hk (fun h => h) (hvb k hk)
    have := hsound x y hx hy j hj
    exact this.2 (this.1 hlo)
  · rintro _ ⟨x,y,hx,hy,rfl⟩
    exact hsound x y hx hy
  · obtain ⟨i,hi,k,hk,g,hg,ht⟩ := hop j hj
    obtain ⟨p,q,hp,hq,hc⟩ := ht.2 hlo hhi c
    obtain ⟨x,hx,hxi⟩ := exists_matches hva hi hp.1 hp.2
    obtain ⟨y,hy,hyk⟩ := exists_matches hvb hk hq.1 hq.2
    exact ⟨_,⟨x,y,hx,hy,rfl⟩,by rw [hg,hxi,hyk,hc]⟩

theorem Best.of_bits_one (ha : a.Ok) (hw64 : w ≤ 64) (hr : r.width = w)
    (op : BitVec a.width → BitVec w)
    (hop : ∀ j < w, ∃ i < a.width, ∃ g : Bool → Bool,
      (∀ x, (op x).getLsbD j = g (x.getLsbD i)) ∧
        Tight (fun p _ => g p) (a.lo.getLsbD i) (a.hi.getLsbD i) (a.lo.getLsbD i) (a.hi.getLsbD i)
          (r.lo.getLsbD j) (r.hi.getLsbD j)) : Best r w (Image a op) := by
  have h := Best.of_bits ha ha rfl hw64 hr (fun x _ => op x) fun j hj => by
    obtain ⟨i,hi,g,hg,ht⟩ := hop j hj
    exact ⟨i,hi,i,hi,fun p _ => g p,fun x _ => hg x,ht⟩
  refine ⟨h.width,h.valid,fun z ⟨x,hx,hz⟩ => h.sound z ⟨x,x,hx,hx,hz⟩,fun j hj hlo hhi c => ?_⟩
  obtain ⟨z,⟨x,-,hx,-,hz⟩,hc⟩ := h.tight j hj hlo hhi c
  exact ⟨z,⟨x,hx,hz⟩,hc⟩

variable {ha hb la lb : Bool}

theorem tight_left (h : la = true → ha = true) (h' : lb = true → hb = true) :
    Tight (fun p _ => p) la ha lb hb la ha := by
  revert la ha lb hb
  decide

theorem tight_right (h : la = true → ha = true) (h' : lb = true → hb = true) :
    Tight (fun _ q => q) la ha lb hb lb hb := by
  revert la ha lb hb
  decide

theorem tight_zero (h : la = true → ha = true) :
    Tight (fun _ _ => false) la ha la ha false false := by
  revert la ha
  decide

theorem not_right (ha : a.Ok) : (Call.not a).Right := by
  refine Best.of_bits_one (r := bvnot a) ha ha.le rfl (~~~·) fun j hj =>
    ⟨j,hj,(!·),fun x => by simp [hj],?_⟩
  have := (isValid_iff ha.le).mp ha.valid j hj
  have hw := ha.le
  simp only [bvnot,getLsbD_and,getLsbD_not,mask_getLsbD hw,hj,show j < 64 by omega,
    decide_true,Bool.true_and,Bool.and_true]
  generalize a.lo.getLsbD j = l at this ⊢
  generalize a.hi.getLsbD j = h at this ⊢
  revert l h
  decide

theorem gate_best (ha : a.Ok) (hb : b.Ok) (hwb : b.width = a.width) (hr : r.width = a.width)
    {g : Bool → Bool → Bool} {f : Bool → Bool → Bool → Bool → Bool × Bool}
    (hf : ∀ la ha lb hb : Bool, (la = true → ha = true) → (lb = true → hb = true) →
      Tight g la ha lb hb (f la ha lb hb).1 (f la ha lb hb).2)
    {op : BitVec a.width → BitVec a.width → BitVec a.width}
    (hop : ∀ x y j, (op x y).getLsbD j = g (x.getLsbD j) (y.getLsbD j))
    (hbits : ∀ j < a.width, (r.lo.getLsbD j,r.hi.getLsbD j) =
      f (a.lo.getLsbD j) (a.hi.getLsbD j) (b.lo.getLsbD j) (b.hi.getLsbD j)) :
    Best r a.width fun z => ∃ x y, Matches a x ∧ Matches b y ∧ z = op x y := by
  refine Best.of_bits ha hb hwb ha.le hr op fun j hj =>
    ⟨j,hj,j,hj,g,fun x y => hop x y j,?_⟩
  have ht := hf _ _ _ _ ((isValid_iff ha.le).mp ha.valid j hj)
    ((isValid_iff hb.le).mp hb.valid j (hwb ▸ hj))
  rwa [← hbits j hj] at ht

theorem gate_right (g : Gate) (ha : a.Ok) (hb : b.Ok) (hwb : b.width = a.width) :
    (Call.gate g a b).Right := by
  have hm := mask_getLsbD ha.le
  cases g with
  | and =>
    refine gate_best ha hb (r := bvand a b) hwb rfl (f := fun la ha lb hb => (la && lb,ha && hb))
      (by decide) (fun _ _ _ => getLsbD_and) fun j hj => ?_
    simp [bvand,hm,hj,-getLsbD_eq_getElem]
  | or =>
    refine gate_best ha hb (r := bvor a b) hwb rfl (f := fun la ha lb hb => (la || lb,ha || hb))
      (by decide) (fun _ _ _ => getLsbD_or) fun j hj => ?_
    simp [bvor,hm,hj,-getLsbD_eq_getElem]
  | xor =>
    refine gate_best ha hb (r := bvxor a b) hwb rfl
      (f := fun la ha lb hb =>
        let fixed := !(la ^^ ha) && !(lb ^^ hb)
        ((la ^^ lb) && fixed,(la ^^ lb) && fixed || !fixed))
      (by decide) (fun _ _ _ => getLsbD_xor) fun j hj => ?_
    have hle := ha.le
    simp [bvxor,hm,hj,show j < 64 by omega,-getLsbD_eq_getElem]

theorem copy_best (ha : a.Ok) (hw64 : w ≤ 64) (hr : r.width = w) (op : BitVec a.width → BitVec w)
    (src : ℕ → Option ℕ) (hsrc : ∀ j < w, ∀ i ∈ src j, i < a.width)
    (hop : ∀ x, ∀ j < w, (op x).getLsbD j = (src j).elim false x.getLsbD)
    (hbits : ∀ j < w, r.lo.getLsbD j = (src j).elim false a.lo.getLsbD ∧
      r.hi.getLsbD j = (src j).elim false a.hi.getLsbD) : Best r w (Image a op) := by
  have hv := (isValid_iff ha.le).mp ha.valid
  refine Best.of_bits_one ha hw64 hr op fun j hj => ?_
  obtain ⟨hlo,hhi⟩ := hbits j hj
  have hopj := fun x => hop x j hj
  have hi := hsrc j hj
  rw [hlo,hhi]
  cases hs : src j with
  | none => exact ⟨0,ha.pos,fun _ => false,fun x => by rw [hopj,hs]; rfl,tight_zero (hv 0 ha.pos)⟩
  | some i => exact ⟨i,hi i hs,id,fun x => by rw [hopj,hs]; rfl,tight_left (hv i (hi i hs)) (hv i (hi i hs))⟩

theorem shl_right (ha : a.Ok) (n : ℕ) : (Call.shl a n).Right := by
  have hle := ha.le
  have hm := mask_getLsbD hle
  refine copy_best ha hle (by unfold bvshlConst; split_ifs <;> rfl) (· <<< n)
    (fun j => if j < n then none else some (j-n)) (fun j hj i hi => ?_) (fun x j hj => ?_)
    fun j hj => ?_
  · split_ifs at hi
    · cases hi
    · cases hi
      omega
  · rw [BitVec.getLsbD_shiftLeft]
    split_ifs with h <;> simp [hj,h]
  · unfold bvshlConst
    split_ifs with h h' h'
    · simp
    · omega
    · simp [hm,hj,h',-getLsbD_eq_getElem]
    · simp [hm,hj,h',show j < 64 by omega,-getLsbD_eq_getElem]

theorem shr_right (ha : a.Ok) (n : ℕ) : (Call.shr a n).Right := by
  have hm := mask_getLsbD ha.le
  refine copy_best ha ha.le (by unfold bvshrConst; split_ifs <;> rfl) (· >>> n)
    (fun j => if n+j < a.width then some (n+j) else none) (fun j hj i hi => ?_) (fun x j hj => ?_)
    fun j hj => ?_
  · split_ifs at hi
    · cases hi
      assumption
    · cases hi
  · rw [BitVec.getLsbD_ushiftRight]
    split_ifs with h
    · rfl
    · exact BitVec.getLsbD_of_ge _ _ (by omega)
  · unfold bvshrConst
    split_ifs with h h' h'
    · omega
    · simp
    · simp [hm,h',-getLsbD_eq_getElem]
    · simp [hm,h',-getLsbD_eq_getElem]

/-- Shifted by no more than the word allows, each bit is the one `n` above or the sign. -/
theorem bvashrConst_bits (ha : a.Ok) {n : ℕ} (hn : ¬(a.width = 64 ∧ n = 0)) :
    ∃ r, bvashrConst a n = some r ∧ r.width = a.width ∧ ∀ j < a.width,
      r.lo.getLsbD j = a.lo.getLsbD (if n+j < a.width then n+j else a.width-1) ∧
      r.hi.getLsbD j = a.hi.getLsbD (if n+j < a.width then n+j else a.width-1) := by
  obtain ⟨hw0,hw,ha⟩ := ha
  have hmsb := (isValid_iff hw).mp ha (a.width-1) (by omega)
  unfold bvashrConst
  dsimp only
  rw [if_neg (by omega),and_one_shiftLeft_ne (by omega),and_one_shiftLeft_ne (by omega)]
  by_cases hge : n ≥ a.width
  · rw [if_pos hge]
    split_ifs with h h'
    · refine ⟨_,rfl,rfl,fun j hj => ?_⟩
      have hhi := beq_iff_eq.mp h
      rw [if_neg (by omega),mask_getLsbD hw,← hhi,h']
      simp [hj]
    · refine ⟨_,rfl,rfl,fun j hj => ?_⟩
      have hhi := beq_iff_eq.mp h
      rw [if_neg (by omega),← hhi]
      simpa using h'
    · refine ⟨_,rfl,rfl,fun j hj => ?_⟩
      rw [if_neg (by omega),mask_getLsbD hw]
      cases hlo : a.lo.getLsbD (a.width-1) <;> cases hhi : a.hi.getLsbD (a.width-1) <;>
        simp_all
  · rw [if_neg hge,shl64,if_pos (by omega)]
    refine ⟨_,rfl,by split_ifs <;> rfl,fun j hj => ?_⟩
    have h64 : j < 64 := by omega
    have htop : (mask a.width <<< (a.width-n) &&& mask a.width).getLsbD j =
        !decide (n+j < a.width) := by
      rw [getLsbD_and,BitVec.getLsbD_shiftLeft,mask_getLsbD hw,mask_getLsbD hw]
      by_cases h : n+j < a.width
      · simp [h,show j < a.width-n by omega]
      · simp [h,h64,hj,show ¬j < a.width-n by omega,show j-(a.width-n) < a.width by omega]
    have hshift : ∀ x : BitVec 64, ((x &&& mask a.width) >>> n).getLsbD j =
        (x.getLsbD (n+j) && decide (n+j < a.width)) := fun x => by
      rw [BitVec.getLsbD_ushiftRight,getLsbD_and,mask_getLsbD hw]
    have hlo' := hshift a.lo
    have hhi' := hshift a.hi
    have hm : (mask a.width).getLsbD j = true := by simp [mask_getLsbD hw,hj]
    dsimp only
    generalize mask a.width <<< (a.width-n) &&& mask a.width = topMask at htop ⊢
    by_cases h : n+j < a.width
    · rw [if_pos h]
      cases hlo : a.lo.getLsbD (a.width-1) <;> cases hhi : a.hi.getLsbD (a.width-1) <;>
        simp_all [-getLsbD_eq_getElem]
    · rw [if_neg h]
      cases hlo : a.lo.getLsbD (a.width-1) <;> cases hhi : a.hi.getLsbD (a.width-1) <;>
        simp_all [-getLsbD_eq_getElem]

theorem ashr_right (ha : a.Ok) {n : ℕ} (hn : ¬(a.width = 64 ∧ n = 0)) : (Call.ashr a n).Right := by
  obtain ⟨r,hr,hrw,hbits⟩ := bvashrConst_bits ha hn
  refine ⟨r,hr,copy_best ha ha.le hrw (·.sshiftRight n)
    (fun j => some (if n+j < a.width then n+j else a.width-1)) (fun j hj i hi => ?_)
    (fun x j hj => ?_) hbits⟩
  · obtain rfl := Option.some.inj hi
    split_ifs <;> omega
  · rw [BitVec.getLsbD_sshiftRight,BitVec.msb_eq_getLsbD_last]
    split_ifs <;> simp [hj,-getLsbD_eq_getElem]

theorem extract_right (ha : a.Ok) {hiBit loBit : ℕ} (hle : loBit ≤ hiBit) (hlt : hiBit < a.width) :
    (Call.extract a hiBit loBit).Right := by
  have hw := ha.le
  refine copy_best (w := hiBit-loBit+1) ha (by omega) rfl (·.extractLsb hiBit loBit)
    (fun j => some (loBit+j)) (fun j hj i hi => ?_) (fun x j hj => ?_) fun j hj => ?_
  · obtain rfl := Option.some.inj hi
    omega
  · rw [BitVec.getLsbD_extractLsb,decide_eq_true hj]
    rfl
  · simp [bvextract,mask_getLsbD (show hiBit-loBit+1 ≤ 64 by omega),hj,-getLsbD_eq_getElem]

theorem zext_right (ha : a.Ok) {n : ℕ} (hn : a.width+n ≤ 64) : (Call.zext a n).Right := by
  refine copy_best (r := zeroExt a n) ha hn rfl (·.setWidth (a.width+n))
    (fun j => if j < a.width then some j else none) (fun j hj i hi => ?_) (fun x j hj => ?_)
    fun j hj => ?_
  · split_ifs at hi
    · cases hi
      assumption
    · cases hi
  · rw [getLsbD_setWidth]
    split_ifs with h
    · simp [hj]
    · simpa [hj] using BitVec.getLsbD_of_ge x j (by omega)
  · split_ifs with h <;> simp [zeroExt,mask_getLsbD ha.le,h,-getLsbD_eq_getElem]

theorem sext_right (ha : a.Ok) {n : ℕ} (hn : a.width+n ≤ 64) : (Call.sext a n).Right := by
  have hle := ha.le
  have hpos := ha.pos
  have hmsb := (isValid_iff hle).mp ha.valid (a.width-1) (by omega)
  have hm := mask_getLsbD hle
  have hm' := mask_getLsbD hn
  refine copy_best ha hn (by unfold signExt; dsimp only; split_ifs <;> rfl)
    (·.signExtend (a.width+n)) (fun j => some (if j < a.width then j else a.width-1))
    (fun j hj i hi => ?_) (fun x j hj => ?_) fun j hj => ?_
  · obtain rfl := Option.some.inj hi
    split_ifs <;> omega
  · rw [BitVec.getLsbD_signExtend,BitVec.msb_eq_getLsbD_last]
    split_ifs <;> simp [hj,-getLsbD_eq_getElem]
  · unfold signExt
    dsimp only
    rw [and_one_shiftLeft_ne (by omega),and_one_shiftLeft_ne (by omega)]
    have h64 : j < 64 := by omega
    by_cases hz : n = 0
    · have hlt : j < a.width := by omega
      simp [hz,hlt,hm,-getLsbD_eq_getElem]
    · rw [if_neg hz]
      by_cases h : j < a.width
      · rw [if_pos h]
        cases hlo : a.lo.getLsbD (a.width-1) <;> cases hhi : a.hi.getLsbD (a.width-1) <;>
          simp_all [-getLsbD_eq_getElem]
      · rw [if_neg h]
        cases hlo : a.lo.getLsbD (a.width-1) <;> cases hhi : a.hi.getLsbD (a.width-1) <;>
          simp_all [-getLsbD_eq_getElem]

theorem concat_right (ha : a.Ok) (hb : b.Ok) (hw : a.width+b.width ≤ 64) :
    (Call.concat a b).Right := by
  have hva := (isValid_iff ha.le).mp ha.valid
  have hvb := (isValid_iff hb.le).mp hb.valid
  have hma := mask_getLsbD ha.le
  have hmb := mask_getLsbD hb.le
  refine Best.of_bits (r := bvconcat a b) ha hb rfl hw rfl (· ++ ·) fun j hj => ?_
  by_cases h : j < b.width
  · refine ⟨0,ha.pos,j,h,fun _ q => q,fun x y => ?_,?_⟩
    · simp [BitVec.getLsbD_append,h,-getLsbD_eq_getElem]
    · have hbit : ∀ x y : BitVec 64, ((x &&& mask a.width) <<< b.width |||
          (y &&& mask b.width)).getLsbD j = y.getLsbD j := fun x y => by
        simp [hmb,h,-getLsbD_eq_getElem]
      rw [bvconcat,hbit,hbit]
      exact tight_right (hva 0 ha.pos) (hvb j h)
  · have hi : j-b.width < a.width := by omega
    refine ⟨j-b.width,hi,0,hb.pos,fun p _ => p,fun x y => ?_,?_⟩
    · simp [BitVec.getLsbD_append,h,-getLsbD_eq_getElem]
    · have hbit : ∀ x y : BitVec 64, ((x &&& mask a.width) <<< b.width |||
          (y &&& mask b.width)).getLsbD j = x.getLsbD (j-b.width) := fun x y => by
        simp [hma,hmb,h,hi,show j < 64 by omega,-getLsbD_eq_getElem]
      rw [bvconcat,hbit,hbit]
      exact tight_left (hva _ hi) (hvb 0 hb.pos)

/-- The meet matches what both match, and is invalid where there is nothing. -/
theorem common_right (ha : a.Ok) (hb : b.Ok) : (Call.common a b).Right := by
  have hm := mask_getLsbD ha.le
  have hlo : ∀ j < a.width, (meet a b).lo.getLsbD j = (a.lo.getLsbD j || b.lo.getLsbD j) :=
    fun j hj => by simp [meet,hm,hj,-getLsbD_eq_getElem]
  have hhi : ∀ j < a.width, (meet a b).hi.getLsbD j = (a.hi.getLsbD j && b.hi.getLsbD j) :=
    fun j hj => by simp [meet,hm,hj,-getLsbD_eq_getElem]
  have hmatch : ∀ x : BitVec a.width, Matches (meet a b) x ↔ Matches a x ∧ Matches b x := by
    intro x
    constructor
    · refine fun h => ⟨fun j hj => ?_,fun j hj => ?_⟩ <;>
      · have := h j hj
        simp_all
    · rintro ⟨h1,h2⟩ j hj
      rw [hlo j hj,hhi j hj]
      exact ⟨fun h => (Bool.or_eq_true_iff.mp h).elim (h1 j hj).1 (h2 j hj).1,
        fun h => Bool.and_eq_true_iff.mpr ⟨(h1 j hj).2 h,(h2 j hj).2 h⟩⟩
  refine ⟨hmatch,?_,fun d hd hv v => matchValue_iff ?_ hv v⟩
  · rw [← Bool.not_eq_true,isValid_iff (d := meet a b) ha.le]
    constructor
    · rintro hnot x hx
      exact hnot fun j hj h => ((hmatch x).mpr hx j hj).2 (((hmatch x).mpr hx j hj).1 h)
    · intro hnone hv
      refine hnone ((meet a b).lo.setWidth a.width) ((hmatch _).mp fun j hj => ?_)
      simpa [hj] using hv j hj
  · simp only [List.mem_cons,List.not_mem_nil,or_false] at hd
    rcases hd with rfl | rfl | rfl
    · exact ha.le
    · exact hb.le
    · exact ha.le

theorem find_highest (p : ℕ → Bool) (w : ℕ) :
    match (List.range w).reverse.find? p with
    | none => ∀ i < w, p i = false
    | some d => d < w ∧ p d = true ∧ ∀ i, d < i → i < w → p i = false := by
  induction w with
  | zero => simp
  | succ w ih =>
    rw [List.range_succ,List.reverse_append,List.reverse_singleton,List.singleton_append,
      List.find?_cons]
    cases hp : p w with
    | true => exact ⟨Nat.lt_succ_self w,hp,fun i h1 h2 => by omega⟩
    | false =>
      cases hf : (List.range w).reverse.find? p with
      | none =>
        rw [hf] at ih
        intro i hi
        rcases Nat.lt_succ_iff_lt_or_eq.mp hi with h | rfl
        · exact ih i h
        · exact hp
      | some d =>
        rw [hf] at ih
        obtain ⟨h1,h2,h3⟩ := ih
        refine ⟨h1.trans (Nat.lt_succ_self w),h2,fun i hdi hi => ?_⟩
        rcases Nat.lt_succ_iff_lt_or_eq.mp hi with h | rfl
        · exact h3 i hdi h
        · exact hp

/-- Two numbers that first differ at bit `d` share the bits above, and the middle of the
block lies between them. -/
theorem first_diff {x y d : ℕ} (hle : x ≤ y) (hd : x.testBit d ≠ y.testBit d)
    (hhigh : ∀ i, d < i → x.testBit i = y.testBit i) : ∃ q, x/2^(d+1) = q ∧ y/2^(d+1) = q ∧
      x < 2^d*(2*q+1) ∧ 2^d*(2*q+1) ≤ y := by
  have hq : x/2^(d+1) = y/2^(d+1) := Nat.eq_of_testBit_eq fun i => by
    rw [Nat.testBit_div_two_pow,Nat.testBit_div_two_pow]
    exact hhigh _ (by omega)
  have hx : x/2^d/2 = x/2^(d+1) := by rw [Nat.div_div_eq_div_mul,pow_succ]
  have hy : y/2^d/2 = y/2^(d+1) := by rw [Nat.div_div_eq_div_mul,pow_succ]
  have hmono : x/2^d ≤ y/2^d := Nat.div_le_div_right hle
  rw [Nat.testBit_eq_decide_div_mod_eq,Nat.testBit_eq_decide_div_mod_eq] at hd
  have hne : x/2^d % 2 ≠ y/2^d % 2 := fun h => hd (by rw [h])
  refine ⟨_,rfl,hq.symm,?_,?_⟩
  · rw [Nat.mul_comm]
    exact (Nat.div_lt_iff_lt_mul (two_pow_pos d)).mp (by omega)
  · rw [Nat.mul_comm]
    exact (Nat.le_div_iff_mul_le (two_pow_pos d)).mp (by omega)

theorem belowMask_getLsbD {d : ℕ} (hd : d < 64) (i : ℕ) :
    (1#64 <<< d ||| (1#64 <<< d-1#64)).getLsbD i = decide (i ≤ d) := by
  rw [Solver.onesMask_of_lt hd,getLsbD_or,Solver.onesMask_getLsbD hd.le,
    BitVec.getLsbD_shiftLeft,BitVec.getLsbD_one]
  by_cases h : i < d
  · simp [h,h.le]
  · by_cases he : i = d
    · simp [he,hd]
    · simp [h,show ¬i ≤ d by omega,show ¬i-d = 0 by omega]

theorem and_mask_toNat (hw : w ≤ 64) (v : BitVec 64) : (v &&& mask w).toNat = v.toNat % 2^w := by
  rw [BitVec.toNat_and,mask,Solver.onesMask_toNat hw,Nat.and_two_pow_sub_one_eq_mod]

theorem getLsbD_of_lt_two_pow {v : BitVec 64} (hv : v.toNat < 2^w) {i : ℕ} (hi : w ≤ i) :
    v.getLsbD i = false :=
  Nat.testBit_lt_two_pow (hv.trans_le (Nat.pow_le_pow_right (by decide) hi))

theorem initValue_best (hw : w ≤ 64) {l : BitVec 64} :
    Best (initValue w l) w fun x => l.toNat % 2^w ≤ x.toNat ∧ x.toNat ≤ l.toNat % 2^w := by
  refine ⟨rfl,(isValid_iff (d := initValue w l) hw).mpr fun i _ h => h,fun x hx i hi => ?_,
    fun i hi h h' => ?_⟩
  · have hxv : x.getLsbD i = (l &&& mask w).getLsbD i := by
      rw [getLsbD,getLsbD,and_mask_toNat hw,le_antisymm hx.2 hx.1]
    rw [hxv]
    exact ⟨id,id⟩
  · exact absurd (h.symm.trans h') (by decide)

/-- From the highest bit `d` in which the ends differ downwards nothing is known. -/
theorem block_best (hw : w ≤ 64) {l u : BitVec 64} {d : ℕ} (hdw : d < w) (hu : u.toNat < 2^w)
    (hle : l.toNat ≤ u.toNat) (hd : l.getLsbD d ≠ u.getLsbD d)
    (habove : ∀ i, d < i → l.getLsbD i = u.getLsbD i) :
    let below := 1#64 <<< d ||| (1#64 <<< d-1#64)
    let fixed := l &&& (mask w &&& ~~~below)
    Best ⟨fixed,fixed ||| below,w⟩ w fun x => l.toNat ≤ x.toNat ∧ x.toNat ≤ u.toNat := by
  intro below fixed
  obtain ⟨q,hq,hq',hmid,hmid'⟩ := first_diff hle hd habove
  have hbelow : ∀ i, below.getLsbD i = decide (i ≤ d) := belowMask_getLsbD (by omega)
  have hfixed : ∀ i < w, fixed.getLsbD i = (l.getLsbD i && decide (d < i)) := fun i hi => by
    rw [getLsbD_and,getLsbD_and,mask_getLsbD hw,getLsbD_not,hbelow,
      decide_eq_true hi,decide_eq_true (show i < 64 by omega),Bool.true_and,Bool.true_and,
      ← decide_not]
    simp only [not_le]
  refine ⟨rfl,(isValid_iff (d := ⟨fixed,fixed ||| below,w⟩) hw).mpr fun i _ h => ?_,
    fun x hx i hi => ?_,fun i hi h h' c => ?_⟩
  · dsimp only at h ⊢
    rw [getLsbD_or,h]
    rfl
  · dsimp only
    rw [getLsbD_or,hbelow,hfixed i hi]
    by_cases hdi : d < i
    · have hxq : x.toNat/2^(d+1) = q :=
        le_antisymm (hq' ▸ Nat.div_le_div_right hx.2) (hq ▸ Nat.div_le_div_right hx.1)
      have heq : x.getLsbD i = l.getLsbD i := by
        have := congrArg (fun n => n.testBit (i-(d+1))) (hxq.trans hq.symm)
        simp only [Nat.testBit_div_two_pow,show i-(d+1)+(d+1) = i by omega] at this
        exact this
      rw [heq,decide_eq_true hdi,Bool.and_true]
      exact ⟨id,fun h => by rw [h]; rfl⟩
    · simp [hdi,show i ≤ d by omega]
  · dsimp only at h h'
    rw [getLsbD_or,hbelow,h,Bool.false_or,decide_eq_true_eq] at h'
    -- the middle of the block and its predecessor differ in all the bits up to `d`
    have hpred : 2^d*(2*q+1)-1 = 2^d*(2*q)+(2^d-1) := by
      have := two_pow_pos d
      rw [Nat.mul_add,Nat.mul_one]
      omega
    have hbits : (2^d*(2*q+1)).testBit i = decide (i = d) ∧
        (2^d*(2*q+1)-1).testBit i = decide (i ≠ d) := by
      rw [hpred,Nat.testBit_two_pow_mul_add _ (Nat.sub_lt (two_pow_pos d) Nat.one_pos),
        Nat.testBit_two_pow_mul,Nat.testBit_two_pow_sub_one]
      rcases Nat.lt_or_eq_of_le h' with hid | rfl
      · simp [hid,hid.ne]
      · simp [Nat.testBit_zero]
    have hin : ∀ n, l.toNat ≤ n → n ≤ u.toNat → n.testBit i = c →
        ∃ x : BitVec w, (l.toNat ≤ x.toNat ∧ x.toNat ≤ u.toNat) ∧ x.getLsbD i = c := by
      intro n hn hn' hc
      have hv : (ofNat w n).toNat = n := Nat.mod_eq_of_lt (hn'.trans_lt hu)
      exact ⟨ofNat w n,by rw [hv]; exact ⟨hn,hn'⟩,by rw [getLsbD,hv,hc]⟩
    by_cases hc : c = decide (i = d)
    · exact hin _ hmid.le hmid' (hbits.1.trans hc.symm)
    · refine hin (2^d*(2*q+1)-1) (by omega) (by omega) (hbits.2.trans ?_)
      by_cases hid : i = d <;> cases c <;> simp_all

theorem fromRange_right (hw : w ≤ 64) {loVal hiVal : BitVec 64}
    (hle : loVal.toNat % 2^w ≤ hiVal.toNat % 2^w) : (Call.fromRange w loVal hiVal).Right := by
  have hbound : ∀ v : BitVec 64, (v &&& mask w).toNat < 2^w := fun v => by
    rw [and_mask_toNat hw]
    exact Nat.mod_lt _ (two_pow_pos w)
  have hlow := hbound loVal
  have hhiw := hbound hiVal
  unfold Call.Right initFromRangeU
  simp only [← and_mask_toNat hw] at hle ⊢
  generalize loVal &&& mask w = l at hlow hle ⊢
  generalize hiVal &&& mask w = u at hhiw hle ⊢
  rw [if_neg fun hlt => not_lt.mpr hle (lt_def.mp hlt)]
  have hdiff : ∀ i < w, ((l ^^^ u) &&& 1#64 <<< i != 0#64) = (l.getLsbD i ^^ u.getLsbD i) :=
    fun i hi => by rw [and_one_shiftLeft_ne (by omega),getLsbD_xor]
  have hsame : ∀ i, (i < w → ((l ^^^ u) &&& 1#64 <<< i != 0#64) = false) →
      l.getLsbD i = u.getLsbD i := fun i h => by
    by_cases hiw : i < w
    · have := h hiw
      rw [hdiff i hiw] at this
      simpa using this
    · rw [getLsbD_of_lt_two_pow hlow (by omega),getLsbD_of_lt_two_pow hhiw (by omega)]
  have hfind := find_highest (fun i => (l ^^^ u) &&& 1#64 <<< i != 0#64) w
  generalize (List.range w).reverse.find? _ = top at hfind ⊢
  cases top with
  | none =>
    obtain rfl : l = u := BitVec.eq_of_getLsbD_eq fun i _ => hsame i (hfind i)
    have hb := initValue_best (l := l) hw
    rw [Nat.mod_eq_of_lt hlow] at hb
    exact ⟨rfl,hb⟩
  | some d =>
    obtain ⟨hdw,hbit,habove⟩ := hfind
    rw [hdiff d hdw] at hbit
    exact ⟨rfl,block_best hw hdw hhiw hle (by simpa using hbit) fun i hi =>
      hsame i (habove i hi)⟩

variable {v : BitVec 64}

theorem rangeContains_init (hw : w ≤ 64) (min max : BitVec 64) :
    rangeContains (rangeInit w min max) v = true ↔
      min.toNat % 2^w ≤ v.toNat % 2^w ∧ v.toNat % 2^w ≤ max.toNat % 2^w := by
  simp only [rangeContains,rangeInit,BitVec.and_assoc,BitVec.and_self,le_def,
    and_mask_toNat hw,Bool.false_eq_true,if_false,Bool.and_eq_true,decide_eq_true_eq]

theorem rangeContains_empty : rangeContains (rangeInitEmpty w) v = false := rfl

theorem rangeContains_iff {r : Range} (hw : r.width ≤ 64) : rangeContains r v = true ↔
    r.empty = false ∧ r.min.toNat % 2^r.width ≤ v.toNat % 2^r.width ∧
      v.toNat % 2^r.width ≤ r.max.toNat % 2^r.width := by
  simp only [rangeContains,le_def,and_mask_toNat hw]
  cases r.empty <;> simp

theorem rangeIntersect_contains {a b : Range} (hw : a.width ≤ 64) (hwb : b.width = a.width) :
    rangeContains (rangeIntersect a b) v = true ↔
      rangeContains a v = true ∧ rangeContains b v = true := by
  rw [rangeContains_iff hw,rangeContains_iff (r := b) (hwb ▸ hw),hwb]
  unfold rangeIntersect
  dsimp only
  split_ifs with hempty <;>
    simp only [rangeContains_empty,rangeContains_init hw,gt_iff_lt,lt_def,
      and_mask_toNat hw,Nat.mod_mod,Bool.or_eq_true,Bool.false_eq_true,false_iff] at *
  · rintro ⟨⟨h1,-⟩,h2,-⟩
    simp [h1,h2] at hempty
  all_goals
    simp only [not_or,Bool.not_eq_true] at hempty
    simp only [hempty.1,hempty.2,true_and]
    omega

theorem rangeIntersect_width (a b : Range) : (rangeIntersect a b).width = a.width := by
  unfold rangeIntersect
  dsimp only
  split_ifs <;> rfl

theorem getLsbD_sign (hw0 : 0 < w) (v : BitVec 64) :
    v.getLsbD (w-1) = decide (2^(w-1) ≤ v.toNat % 2^w) := by
  have hp : 2^w = 2*2^(w-1) := by rw [← pow_succ',Nat.sub_add_cancel hw0]
  have hbit : v.getLsbD (w-1) = (v.toNat % 2^w).testBit (w-1) := by
    rw [Nat.testBit_mod_two_pow,decide_eq_true (by omega),Bool.true_and]
    rfl
  rw [hbit]
  have hlt := Nat.mod_lt v.toNat (two_pow_pos w)
  generalize v.toNat % 2^w = n at hlt ⊢
  rw [Nat.testBit_eq_decide_div_mod_eq,decide_eq_decide]
  have hdiv : n/2^(w-1) < 2 := Nat.div_lt_of_lt_mul (by omega)
  rw [Nat.mod_eq_of_lt hdiv]
  have hone : 1 ≤ n/2^(w-1) ↔ 1*2^(w-1) ≤ n := Nat.le_div_iff_mul_le (two_pow_pos (w-1))
  omega

theorem initRange_right (hw0 : 0 < w) (hw : w ≤ 64) (min max : BitVec 64) :
    (Call.initRange w min max).Right := by
  unfold Call.Right
  have hp : 2^w = 2*2^(w-1) := by rw [← pow_succ',Nat.sub_add_cancel hw0]
  have hneg : (1#64 <<< (w-1)).toNat = 2^(w-1) := BitVec.toNat_twoPow_of_lt (w := 64) (by omega)
  have hmax : (if w ≥ 64 then ofNat 64 (2^63-1) else 1#64 <<< (w-1)-1#64).toNat =
      2^(w-1)-1 := by
    split_ifs with h
    · obtain rfl : w = 64 := by omega
      rfl
    · rw [Solver.onesMask_of_lt (by omega),Solver.onesMask_toNat (by omega)]
  unfold boundsInitRange
  dsimp only
  rw [if_neg (show ¬w = 0 by omega)]
  generalize (if w ≥ 64 then ofNat 64 (2^63-1) else 1#64 <<< (w-1)-1#64) = maxPos at hmax ⊢
  generalize 1#64 <<< (w-1) = minNeg at hneg ⊢
  have hmin : (min &&& mask w).toNat = min.toNat % 2^w := and_mask_toNat hw min
  have hmax' : (max &&& mask w).toNat = max.toNat % 2^w := and_mask_toNat hw max
  generalize min &&& mask w = mn at hmin ⊢
  generalize max &&& mask w = mx at hmax' ⊢
  have hmn : mn.toNat % 2^w = min.toNat % 2^w := by rw [hmin,Nat.mod_mod]
  have hmx : mx.toNat % 2^w = max.toNat % 2^w := by rw [hmax',Nat.mod_mod]
  have hself : maxPos.toNat % 2^w = 2^(w-1)-1 := by
    rw [hmax]
    exact Nat.mod_eq_of_lt (by omega)
  have hself' : minNeg.toNat % 2^w = 2^(w-1) := by
    rw [hneg]
    exact Nat.mod_eq_of_lt (by omega)
  split_ifs with h1 h2 h3 <;>
    simp only [gt_iff_lt,ge_iff_le,lt_def,le_def] at *
  all_goals
    refine ⟨⟨rfl,rfl,fun v h => ?_,fun v h => ?_⟩,fun v => ?_⟩
    all_goals
      simp only [boundsContains,rangeContains_empty,rangeContains_init hw,getLsbD_sign hw0,
        Bool.or_eq_true,Bool.false_eq_true,decide_eq_true_eq,decide_eq_false_iff_not,false_or,
        or_false,false_iff] at * <;> omega

theorem intersect_right {a b : Bounds} (hw : a.width ≤ 64) (hwb : b.width = a.width)
    (ha : Split a) (hb : Split b) : (Call.intersect a b).Right := by
  have hlo : ∀ v, rangeContains (boundsIntersect a b).lo v = true ↔
      rangeContains a.lo v = true ∧ rangeContains b.lo v = true := fun v =>
    rangeIntersect_contains (ha.loWidth ▸ hw) (by rw [ha.loWidth,hb.loWidth,hwb])
  have hhi : ∀ v, rangeContains (boundsIntersect a b).hi v = true ↔
      rangeContains a.hi v = true ∧ rangeContains b.hi v = true := fun v =>
    rangeIntersect_contains (ha.hiWidth ▸ hw) (by rw [ha.hiWidth,hb.hiWidth,hwb])
  refine ⟨⟨(rangeIntersect_width _ _).trans ha.loWidth,(rangeIntersect_width _ _).trans ha.hiWidth,
    fun v h => ha.low v ((hlo v).mp h).1,fun v h => ha.high v ((hhi v).mp h).1⟩,fun v => ?_⟩
  have hal := ha.low v
  have hah := ha.high v
  have hbl := hb.low v
  have hbh := hb.high v
  rw [hwb] at hbl hbh
  simp only [boundsContains,Bool.or_eq_true]
  rw [hlo,hhi]
  constructor
  · rintro (⟨h,h'⟩ | ⟨h,h'⟩)
    · exact ⟨.inl h,.inl h'⟩
    · exact ⟨.inr h,.inr h'⟩
  · rintro ⟨h | h,h' | h'⟩
    · exact .inl ⟨h,h'⟩
    · exact absurd ((hal h).symm.trans (hbh h')) (by decide)
    · exact absurd ((hbl h').symm.trans (hah h)) (by decide)
    · exact .inr ⟨h,h'⟩

end Bits

/-- Only an arithmetic shift of a full word by nothing is wrong: it shifts a word by 64. -/
theorem bvdom_exact {c : Call} (h : c.Admitted) :
    c.Right ↔ ∀ a, c = .ashr a 0 → a.width ≠ 64 := by
  cases c with
  | ashr a n =>
    refine ⟨?_,fun hno => ashr_right h fun ⟨h64,hn⟩ => hno a (by rw [hn]) h64⟩
    rintro ⟨r,hr,-⟩ a' heq h64
    cases heq
    simp [bvashrConst,h64,shl64] at hr
  | fromRange w lo hi => exact iff_of_true (fromRange_right h.1 h.2) (fun _ => nofun)
  | not a => exact iff_of_true (not_right h) (fun _ => nofun)
  | gate g a b => exact iff_of_true (gate_right g h.1 h.2.1 h.2.2) (fun _ => nofun)
  | shl a n => exact iff_of_true (shl_right h n) (fun _ => nofun)
  | shr a n => exact iff_of_true (shr_right h n) (fun _ => nofun)
  | concat a b => exact iff_of_true (concat_right h.1 h.2.1 h.2.2) (fun _ => nofun)
  | extract a hiBit loBit => exact iff_of_true (extract_right h.1 h.2.1 h.2.2) (fun _ => nofun)
  | zext a n => exact iff_of_true (zext_right h.1 h.2) (fun _ => nofun)
  | sext a n => exact iff_of_true (sext_right h.1 h.2) (fun _ => nofun)
  | common a b => exact iff_of_true (common_right h.1 h.2.1) (fun _ => nofun)
  | initRange w min max => exact iff_of_true (initRange_right h.1 h.2 min max) (fun _ => nofun)
  | intersect a b =>
    exact iff_of_true (intersect_right h.1 h.2.1 h.2.2.1 h.2.2.2) (fun _ => nofun)

theorem bvdom_exact_nibble : (Call.ashr ⟨8#64,12#64,4⟩ 1).Right ↔
    ∀ a, Call.ashr ⟨8#64,12#64,4⟩ 1 = .ashr a 0 → a.width ≠ 64 :=
  bvdom_exact (show Dom.Ok _ from ⟨by decide,by decide,by decide⟩)

/-- A full word shifted by zero, which is the word itself. -/
theorem ashr_full_word :
    (Call.ashr ⟨1#64,1#64,64⟩ 0).Admitted ∧ ¬(Call.ashr ⟨1#64,1#64,64⟩ 0).Right :=
  ⟨show Dom.Ok _ from ⟨by decide,by decide,by decide⟩,
    fun ⟨_,hr,_⟩ => absurd hr (by simp [bvashrConst,shl64])⟩

end Bvdom
end DvSolve
