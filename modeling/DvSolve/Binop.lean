import DvSolve.PropModSem
import DvSolve.PropShift
import DvSolve.ValidateSem

/-! Where the propagator of an operator may stand for the wrapping one: `_binop_exact` and
`_emit_binop_prop`, against the validator. -/
namespace DvSolve
namespace Solver

open TwosComp
open Sv (BinOp)
open BitVec (ofInt toInt_lt)
open Bool (false_eq_true)
open List (mem_cons not_mem_nil)
open Validate (arithVI ev held_of_lt maskVU maxW vtype wrapVI)

variable {v : Variable} {vars : ℕ → Variable} {s : Engine}

def rngBounds (v : Variable) : Option (BitVec 64 × BitVec 64) :=
  if rng64 v then some (varLo64 v,varHi64 v) else none

/-- `dvs_add_i64_ovf`, `dvs_sub_i64_ovf` and `dvs_mul_i64_ovf`. -/
def fitsI64 (x : ℤ) : Option (BitVec 64) :=
  if -2^63 ≤ x ∧ x < 2^63 then some (ofInt 64 x) else none

/-- The least and the greatest of four corners, if none overflows. -/
def corners
    (p : Option (BitVec 64) × Option (BitVec 64) × Option (BitVec 64) × Option (BitVec 64)) :
    Option (BitVec 64 × BitVec 64) :=
  match p with
  | (some p0,some p1,some p2,some p3) =>
    some ([p1,p2,p3].foldl i64Min p0,[p1,p2,p3].foldl i64Max p0)
  | _ => none

def cornerRange (op : BinOp) (alo ahi blo bhi : BitVec 64) : Option (BitVec 64 × BitVec 64) :=
  match op with
  | .add =>
    (fitsI64 (alo.toInt+blo.toInt)).bind fun lo =>
      (fitsI64 (ahi.toInt+bhi.toInt)).map fun hi => (lo,hi)
  | .sub =>
    (fitsI64 (alo.toInt-bhi.toInt)).bind fun lo =>
      (fitsI64 (ahi.toInt-blo.toInt)).map fun hi => (lo,hi)
  | .mul =>
    corners (fitsI64 (alo.toInt*blo.toInt),fitsI64 (alo.toInt*bhi.toInt),
      fitsI64 (ahi.toInt*blo.toInt),fitsI64 (ahi.toInt*bhi.toInt))
  | .lshift =>
    if blo.toInt < 0 then none
    else if 63 ≤ bhi.toInt then if alo = 0#64 ∧ ahi = 0#64 then some (0#64,0#64) else none
    else
      corners (shlI64 alo blo.toNat,shlI64 alo bhi.toNat,shlI64 ahi blo.toNat,shlI64 ahi bhi.toNat)
  | _ => none

def modular : BinOp → Bool
  | .add | .sub | .mul | .lshift => true
  | _ => false

/-- `_binop_exact`: `none` is 0, and the range comes with `has_range`. -/
def binopExact (vars : ℕ → Variable) (op : BinOp) (r a b : ℕ) :
    Option (Option (BitVec 64 × BitVec 64)) :=
  let w := (vars r).width
  let rs := (vars r).signed
  if 1 ≤ w ∧ w ≤ 64 ∧ modular op then some none
  else if w = 0 ∨ w > 64 then none
  else
    (rngBounds (vars a)).bind fun (alo,ahi) => (rngBounds (vars b)).bind fun (blo,bhi) =>
    match op with
    | .div | .mod =>
      let sgn := (vars a).signed || (vars b).signed
      if !sgn ∧ (alo.toInt < 0 ∨ blo.toInt < 0) then none else some none
    | .band | .bor | .bxor =>
      if !rs ∧ (alo.toInt < 0 ∨ blo.toInt < 0) then none else some none
    | .rshift | .ashr => if !rs ∧ alo.toInt < 0 then none else some none
    | .add | .sub | .mul | .lshift =>
      let rmin : ℤ := if rs then -2^(w-1) else 0
      let rmax : ℤ := if rs then 2^(w-1)-1 else if w ≥ 63 then 2^63-1 else 2^w-1
      (cornerRange op alo ahi blo bhi).bind fun (lo,hi) =>
        if lo.toInt < rmin ∨ hi.toInt > rmax then none else some (some (lo,hi))
    | _ => some none

def emitBinopProp (vars : ℕ → Variable) (op : BinOp) (r a b : ℕ) : Option Fire :=
  let wide := !(vars r).tier0 || !(vars a).tier0 || !(vars b).tier0
  match op with
  | .div => some (if wide then fireBoundsDiv64 r a b else fireBoundsDiv32 r a b)
  | .mod => some (if wide then fireBoundsMod64 r a b else fireBoundsMod32 r a b)
  | .band => some (fireBoundsBand64 r a b)
  | .bor => some (fireBoundsBor64 r a b)
  | .bxor => some (fireBoundsBxor64 r a b)
  | .rshift | .ashr => some (fireBoundsLshr64 r a b)
  | _ => none

structure Shows (ctx : Validate.Ctx) (W : List ℕ) (vars : ℕ → Variable) (σ : ℕ → ℤ) : Prop where
  lt : ∀ v ∈ W, v < ctx.nVars
  width : ∀ v ∈ W, ctx.width v = (vars v).width
  signed : ∀ v ∈ W, ctx.signed v = (vars v).signed
  value : ∀ v ∈ W, ctx.value v = σ v

/-- `a op b` in the type of `r`, as the validator evaluates it. -/
def svResult (ctx : Validate.Ctx) (vars : ℕ → Variable) (op : BinOp) (r a b : ℕ) : Option ℤ :=
  ev ctx (.binary op (.var a) (.var b)) (vars r).width (vars r).signed

/-- The operands of a propagator: the domains lie in the type of the result, and everything is of
one signedness; a shift has an amount that is not negative instead, and a logical one an operand
that is not negative. -/
structure Matched (op : BinOp) (r a b : ℕ) (vars : ℕ → Variable) : Prop where
  left : (vars r).bot ≤ (vars a).least ∧ (vars a).most ≤ (vars r).top
  right : op.isShift = false → (vars r).bot ≤ (vars b).least ∧ (vars b).most ≤ (vars r).top
  sign : op.isShift = false → (vars a).signed = (vars r).signed ∧ (vars b).signed = (vars r).signed
  amount : op.isShift = true → 0 ≤ (vars b).least
  logical : op = .rshift → 0 ≤ (vars a).least

theorem Variable.Ok.inTy_iff (hv : v.Ok) (x : ℤ) :
    InTy x v.width v.signed ↔ v.bot ≤ x ∧ x ≤ v.top := by
  obtain ⟨n,hn⟩ : ∃ n, v.width = n+1 := ⟨v.width-1,by have := hv.pos; omega⟩
  unfold InTy Variable.bot Variable.top
  rw [hn]
  cases v.signed <;> simp only [Nat.add_sub_cancel,pow_succ,if_true,false_eq_true,if_false] <;>
    omega

section Result

variable {ctx : Validate.Ctx} {W : List ℕ} {σ : ℕ → ℤ} {op : BinOp} {w : ℕ} {S : Bool} {a b : ℕ}

theorem wrapVI_of_inTy {x : ℤ} (hw : 0 < w) (hle : w ≤ 64) (h : InTy x w S) :
    wrapVI x w S = x := by
  rw [wrapVI,if_neg (by unfold maxW; omega),wrap_of_inTy h]

theorem ev_var (h : Shows ctx W vars σ) (ha : a ∈ W) (hok : (vars a).Ok)
    (hown : InTy (σ a) (vars a).width (vars a).signed) (hw : 0 < w) (hle : w ≤ 64)
    (hin : InTy (σ a) w S) : ev ctx (.var a) w S = some (σ a) := by
  have hlt := h.lt a ha
  have hwid := hok.le
  rw [ev,Validate.within,if_neg (by unfold maxW; omega),
    if_neg (by rw [h.width a ha]; omega),h.width a ha,h.signed a ha,h.value a ha]
  dsimp only
  have hval : (if (vars a).signed then σ a else σ a % 2^64) = σ a := by
    split_ifs with hs
    · rfl
    · rw [Bool.not_eq_true] at hs
      rw [hs] at hown
      have hbig := hown.mono hwid
      exact Int.emod_eq_of_lt hbig.1 hbig.2
  rw [hval,wrapVI_of_inTy hok.pos hwid hown,wrapVI_of_inTy hw hle hin]

theorem arithVI_eq (ρ : Sv.Env) (hw : 0 < w) (hle : w ≤ 64) {x y : ℤ} (hx : InTy x w S)
    (hy : InTy y w S) (hop : op.isArith = true) (hdiv : op = .div ∨ op = .mod → y ≠ 0) :
    arithVI op w S x y = some (Sv.arith ρ op ⟨w,S⟩ x y) := by
  have hsmall : w < maxW := by unfold maxW; omega
  obtain ⟨v,hv⟩ : ∃ v, arithVI op w S x y = some v := by
    have hmask : y ≠ 0 → maskVU y w ≠ 0 := fun h => by
      rw [maskVU,if_neg (by omega)]
      exact mt hy.pat_eq_zero.mp h
    unfold arithVI
    cases op <;> simp only [Sv.BinOp.isArith,false_eq_true] at hop <;> dsimp only
    case div | mod =>
      rw [if_neg (hmask (hdiv (by simp)))]
      split_ifs <;> exact ⟨_,rfl⟩
    all_goals exact ⟨_,rfl⟩
  have h := Validate.arithVI_held (ρ:=ρ) hw hsmall.le (.inl hx) (.inl hy) (v:=v)
    (by rwa [held_of_lt hsmall,held_of_lt hsmall])
  rw [hv,h,held_of_lt hsmall]

theorem shiftVI_eq (hw : 0 < w) (hle : w ≤ 64) {x : ℤ} (hx : InTy x w S)
    (hop : op.isShift = true) (n : ℕ) :
    Validate.shiftVI op w S x n = Sv.shift op ⟨w,S⟩ x n := by
  have hsmall : w < maxW := by unfold maxW; omega
  have h := Validate.shiftVI_held hop hw hsmall.le (.inl hx) n
  rwa [held_of_lt hsmall,held_of_lt hsmall] at h

variable {r : ℕ}

structure Operands (r a b : ℕ) (vars : ℕ → Variable) (σ : ℕ → ℤ) : Prop where
  ok : ∀ v ∈ [r,a,b], (vars v).Ok
  ownA : InTy (σ a) (vars a).width (vars a).signed
  ownB : InTy (σ b) (vars b).width (vars b).signed
  left : InTy (σ a) (vars r).width (vars r).signed

theorem svResult_arith (ρ : Sv.Env) (hc : Shows ctx [a,b] vars σ) (h : Operands r a b vars σ)
    (hin : InTy (σ b) (vars r).width (vars r).signed) (hop : op.isArith = true)
    (hdiv : op = .div ∨ op = .mod → σ b ≠ 0) : svResult ctx vars op r a b =
      some (Sv.arith ρ op ⟨(vars r).width,(vars r).signed⟩ (σ a) (σ b)) := by
  have hr := h.ok r (by simp)
  have hle := hr.le
  rw [svResult,ev,Validate.within,if_neg (by unfold maxW; omega),if_pos hop,
    ev_var hc (by simp) (h.ok a (by simp)) h.ownA hr.pos hr.le h.left,
    ev_var hc (by simp) (h.ok b (by simp)) h.ownB hr.pos hr.le hin]
  exact arithVI_eq ρ hr.pos hr.le h.left hin hop hdiv

theorem svResult_shift (hc : Shows ctx [a,b] vars σ) (h : Operands r a b vars σ)
    (hop : op.isShift = true) (hamount : 0 ≤ σ b) : svResult ctx vars op r a b =
      some (Sv.shift op ⟨(vars r).width,(vars r).signed⟩ (σ a) (σ b).toNat) := by
  have hr := h.ok r (by simp)
  have hb := h.ok b (by simp)
  have hle := hr.le
  have hleb := hb.le
  have harith : op.isArith = false := by
    cases op <;> simp_all [Sv.BinOp.isArith,Sv.BinOp.isShift]
  have hty : vtype ctx (.var b) = some ⟨(vars b).width,(vars b).signed⟩ := by
    have := hc.lt b (by simp)
    rw [vtype,if_neg (by omega),hc.width b (by simp),hc.signed b (by simp),Sv.Ty.fix,if_neg hb.pos.ne']
  have hpat : maskVU (σ b) (vars b).width = (σ b).toNat := by
    rw [maskVU,if_neg (by have := hb.pos; unfold maxW; omega),pat,Int.emod_eq_of_lt hamount]
    have hown := h.ownB
    unfold InTy at hown
    split_ifs at hown <;> omega
  rw [svResult,ev,Validate.within,if_neg (by unfold maxW; omega),if_neg (by simp [harith]),if_pos hop,
    ev_var hc (by simp) (h.ok a (by simp)) h.ownA hr.pos hr.le h.left,hty]
  simp only [Option.bind_some]
  rw [Validate.within,if_neg (by unfold maxW; omega),
    ev_var hc (by simp) hb h.ownB hb.pos hb.le h.ownB,Option.map_some,hpat,
    shiftVI_eq hr.pos hr.le h.left hop]

end Result

section Fixed

variable {W : List ℕ} {D R : (ℕ → ℤ) → Prop} {f : Fire} {σ : ℕ → ℤ} {r a b id : ℕ}

theorem PropagatesOn.decides (h : PropagatesOn W D R f s) (hp : Pinned W s.ctx.vars σ) (hD : D σ) :
    (f.run s).1 = .conflict ↔ ¬R σ :=
  ⟨fun hc => h.conflict hc σ hp.inside hD,h.refutes σ hp hD⟩

theorem between_decides (hok : ∀ v ∈ W, (s.ctx.vars v).Ok) (hp : Pinned W s.ctx.vars σ)
    (hid : id ∈ W) (q : BitVec 64) :
    ((Fire.between id q q (.done .ok)).run s).1 = .conflict ↔ varOrd (s.ctx.vars id) q ≠ σ id := by
  by_cases hq : varOrd (s.ctx.vars id) q = σ id
  · have hok := Fire.run_of_wp (Fire.wp_between (Q:=fun res _ => res ≠ .conflict) (.refl hok)
      (f:=.done .ok) hp.inside hid hq.le hq.ge fun _ _ _ => by simp [Fire.wp])
    simp [hok,hq]
  · have hconf := Fire.run_of_wp (Fire.wp_between_pinned (Q:=fun res _ => res = .conflict)
      (f:=.done .ok) (.refl hok) hp hid (fun _ => rfl) fun h1 h2 => absurd (le_antisymm h1 h2) hq)
    simp [hconf,hq]

variable {op : (n : ℕ) → BitVec n → BitVec n → BitVec n} {g : ℕ → ℕ → ℕ}

theorem bit_word (hop : Bitwise op)
    (hnat : ∀ n (x y : BitVec n), (op n x y).toNat = g x.toNat y.toNat)
    (h : Operands r a b vars σ) (hin : InTy (σ b) (vars r).width (vars r).signed)
    (hp : Pinned [r,a,b] vars σ) :
    varOrd (vars r) (op 64 (varLo64 (vars a)) (varLo64 (vars b))) =
      wrap (g (pat (σ a) (vars r).width) (pat (σ b) (vars r).width)) (vars r).width
        (vars r).signed := by
  have hr := h.ok r (by simp)
  have hext : ∀ {x : ℤ}, InTy x (vars r).width (vars r).signed →
      ofInt 64 x = extend (vars r).signed (ofInt (vars r).width x) := fun hx =>
    ofInt_eq_extend hr rfl rfl ((hr.inTy_iff _).mp hx).1 ((hr.inTy_iff _).mp hx).2
  rw [varLo64_eq (h.ok a (by simp)) (hp.least a (by simp)) (hp.most a (by simp)),
    varLo64_eq (h.ok b (by simp)) (hp.least b (by simp)) (hp.most b (by simp)),
    hext h.left,hext hin,← hop]
  have hz := wrap_inTy (g (pat (σ a) (vars r).width) (pat (σ b) (vars r).width)) (vars r).width
    (vars r).signed
  rw [← hr.varOrd_ofInt ((hr.inTy_iff _).mp hz).1 ((hr.inTy_iff _).mp hz).2,hext hz]
  congr 2
  have hpat : ∀ x : ℤ, (ofInt (vars r).width x).toNat = pat x (vars r).width := fun x => by
    rw [BitVec.toNat_ofInt,pat]
    norm_num
  apply BitVec.eq_of_toNat_eq
  rw [hpat,pat_congr (wrap_emod _ _ _),pat_natCast,← hpat,← hpat,← hnat,Nat.mod_eq_of_lt]
  exact BitVec.isLt _

theorem wrap_true_eq_bmod (x : ℤ) {w : ℕ} (hw : 0 < w) : wrap x w true = x.bmod (2^w) := by
  obtain ⟨n,rfl⟩ : ∃ n, w = n+1 := ⟨w-1,by omega⟩
  rw [wrap,Int.bmod_def]
  push_cast
  rw [pow_succ]
  simp only [true_and]
  split_ifs <;> omega

section Relations

variable {ρ : Sv.Env} {op : BinOp} (h : Operands r a b vars σ)

include h

theorem divRel_iff (hin : InTy (σ b) (vars r).width (vars r).signed)
    (ha : (vars a).signed = (vars r).signed) (hb : (vars b).signed = (vars r).signed)
    (h0 : σ b ≠ 0) : DivRel r a b vars σ ↔
      σ r = Sv.arith ρ .div ⟨(vars r).width,(vars r).signed⟩ (σ a) (σ b) := by
  have hr := h.ok r (by simp)
  have hleft := h.left
  rw [DivRel,signedOp,ha,hb,Bool.or_self,Bool.or_self,Sv.arith,if_neg h0]
  cases hs : (vars r).signed
  · rw [hs] at hleft hin
    simp only [InTy,false_eq_true,if_false] at hleft hin
    have h1 := Int.tdiv_nonneg hleft.1 hin.1
    have h2 := Int.tdiv_le_self (σ b) hleft.1
    rw [if_neg (by simp),wrap_of_inTy]
    simp only [InTy,false_eq_true,if_false]
    omega
  · rw [if_pos rfl,wrap_true_eq_bmod _ hr.pos]

theorem modRel_iff (h0 : σ b ≠ 0) :
    ModRel r a b σ ↔ σ r = Sv.arith ρ .mod ⟨(vars r).width,(vars r).signed⟩ (σ a) (σ b) := by
  have hleft := h.left
  have habs : ((σ a).tmod (σ b)).natAbs ≤ (σ a).natAbs := by
    rw [Int.natAbs_tmod]
    exact Nat.mod_le _ _
  obtain ⟨hpos,hneg,-⟩ := TruncDiv.tmod_range (x:=σ a) h0
  rw [ModRel,Sv.arith,if_neg h0,wrap_of_inTy]
  dsimp only
  unfold InTy at hleft ⊢
  split_ifs at hleft ⊢ <;> omega

theorem shrRel_iff (hop : op = .rshift ∨ op = .ashr) (hlog : op = .rshift → 0 ≤ σ a) :
    ShrRel r a b σ ↔ σ r = Sv.shift op ⟨(vars r).width,(vars r).signed⟩ (σ a) (σ b).toNat := by
  have hleft := h.left
  have hlogical : 0 ≤ σ a → wrap ((pat (σ a) (vars r).width >>> (σ b).toNat : ℕ) : ℤ)
      (vars r).width (vars r).signed = σ a/2^(σ b).toNat := fun h0 => by
    have hlt : σ a < 2^(vars r).width := by
      unfold InTy at hleft
      split_ifs at hleft <;> omega
    have hval : ((pat (σ a) (vars r).width >>> (σ b).toNat : ℕ) : ℤ) = σ a/2^(σ b).toNat := by
      rw [Nat.shiftRight_eq_div_pow]
      push_cast
      rw [pat_cast,Int.emod_eq_of_lt h0 hlt]
    have hin := Sv.InTy_shiftRight hleft (σ b).toNat
    rw [Int.shiftRight_eq_div_pow] at hin
    push_cast at hin
    rw [hval,wrap_of_inTy hin]
  rw [ShrRel]
  rcases hop with rfl | rfl
  · rw [Sv.shift,hlogical (hlog rfl)]
    all_goals simp
  · rw [Sv.shift]
    split_ifs with hs
    · rw [Int.shiftRight_eq_div_pow]
      rfl
    · rw [hlogical]
      unfold InTy at hleft
      rw [if_neg hs] at hleft
      exact hleft.1

end Relations

/-! A result past the signed words, beside operands that are not. -/

section Far

variable (hp : Pinned [r,a,b] s.ctx.vars σ) (hok : ∀ v ∈ [r,a,b], (s.ctx.vars v).Ok)
  (hs : signedOp (s.ctx.vars r) (s.ctx.vars a) (s.ctx.vars b) = false)
  (ha : (varLo64 (s.ctx.vars a)).toInt = σ a) (hb : (varLo64 (s.ctx.vars b)).toInt = σ b)
  (ha0 : 0 ≤ σ a) (hb0 : 0 < σ b) (hfar : 2^63 ≤ σ r)

include hp hok hs ha hb ha0 hb0 hfar

theorem fireBoundsDiv64_far : ((fireBoundsDiv64 r a b).run s).1 = .conflict := by
  refine Fire.run_of_wp (Q:=fun res _ => res = .conflict) ?_
  have hne : varLo64 (s.ctx.vars b) ≠ 0#64 := fun h => by
    rw [h] at hb
    simp at hb
    omega
  simp only [fireBoundsDiv64,Fire.wp]
  rw [if_neg (by simp [hs]),if_pos ⟨hp.fixed (by simp),hne⟩,if_pos (by omega),
    ← hp.fixed (show a ∈ [r,a,b] by simp),divFixed,if_neg (lt_irrefl _)]
  refine Fire.wp_between_pinned (.refl hok) hp (by simp) (fun _ => rfl) fun _ h2 => absurd h2 ?_
  have hq := toInt_lt (x:=(varLo64 (s.ctx.vars a)).sdiv (varLo64 (s.ctx.vars b)))
  rw [varOrd_of_nonneg]
  · norm_num at hq
    omega
  · intro _
    rw [sdiv_toInt (by omega),ha,hb]
    exact Int.tdiv_nonneg ha0 hb0.le

omit ha ha0 in
theorem fireBoundsMod64_far : ((fireBoundsMod64 r a b).run s).1 = .conflict := by
  refine Fire.run_of_wp (Q:=fun res _ => res = .conflict) ?_
  have hpred := pred_toInt (x:=varLo64 (s.ctx.vars b)) (by omega)
  have hq := toInt_lt (x:=varLo64 (s.ctx.vars b))
  simp only [fireBoundsMod64,Fire.wp]
  rw [if_neg (by simp [hs]),modUnsigned,if_pos ⟨hp.fixed (by simp),by omega⟩]
  refine Fire.wp_between_pinned (.refl hok) hp (by simp) (fun _ => rfl) fun _ h2 => absurd h2 ?_
  rw [varOrd_of_nonneg fun _ => by omega,hpred]
  omega

end Far

/-! The division fires. -/

theorem rng64_of_lt {x : ℤ} (h1 : v.least = x) (h2 : v.most = x) (hx : v.beyond = true → x < 2^63) :
    rng64 v = true := by
  cases hb : v.beyond
  · simp [rng64,hb]
  · rw [Variable.least,varOrd_beyond hb] at h1
    rw [Variable.most,varOrd_beyond hb] at h2
    have hlt := hx hb
    have hl := toInt_of_lt (A:=varLo64 v) (by omega)
    have hh := toInt_of_lt (A:=varHi64 v) (by omega)
    simp only [rng64,hb,Bool.true_and,Bool.not_eq_true',Bool.or_eq_false_iff,decide_eq_false_iff_not]
    omega

variable (hh : Honest r a b s.ctx.vars) (hp : Pinned [r,a,b] s.ctx.vars σ) (h0 : σ b ≠ 0)

include hp in
theorem Pinned.eq {τ : ℕ → ℤ} (hτ : Inside W s.ctx.vars τ) {x : ℕ} (hx : x ∈ [r,a,b])
    (hxW : x ∈ W) :
    τ x = σ x := by
  have := hτ.least x hxW
  have := hτ.most x hxW
  have := hp.least x hx
  have := hp.most x hx
  omega

include hh hp h0

theorem fireBoundsDiv64_decides :
    ((fireBoundsDiv64 r a b).run s).1 = .conflict ↔ ¬DivRel r a b s.ctx.vars σ := by
  refine ((fireBoundsDiv64_propagates hh).mpr fun τ _ _ _ hL => hL.2.1 ⟨?_,?_⟩).decides hp h0
  · rw [hp.least a (by simp),hp.most a (by simp)]
  · rw [hp.least b (by simp),hp.most b (by simp)]

theorem fireBoundsDiv32_decides (hsm : Small r a b s.ctx.vars) :
    ((fireBoundsDiv32 r a b).run s).1 = .conflict ↔ ¬DivRel r a b s.ctx.vars σ := by
  refine ((fireBoundsDiv32_propagates hh hsm).mpr fun τ _ _ _ hL => hL.2.1 ⟨?_,?_⟩).decides hp h0
  · rw [hp.least a (by simp),hp.most a (by simp)]
  · rw [hp.least b (by simp),hp.most b (by simp)]

theorem fireBoundsMod64_decides
    (hone : signedOp (s.ctx.vars r) (s.ctx.vars a) (s.ctx.vars b) = true → (s.ctx.vars r).signed = true) :
    ((fireBoundsMod64 r a b).run s).1 = .conflict ↔ ¬ModRel r a b σ := by
  refine ((fireBoundsMod64_propagates hh).mpr fun τ hτ hb hR hL => ?_).decides hp h0
  split_ifs at hL with hs
  · rcases hL with hL | hL
    · exact hL.2.1 (by rw [hp.most b (by simp),← hp.least b (by simp)]; exact hL.1)
    · have := hone hs
      simp [Variable.beyond,this] at hL
  · -- the step back from the dividend is none
    have hu := UnsignedMod.of hh hτ hb hR (by simpa using hs)
    have hrem := hu.rem
    have hτa := hp.eq hτ (x:=a) (by simp) (by simp)
    have hτb := hp.eq hτ (x:=b) (by simp) (by simp)
    have hout := not_out (q:=τ r) (x:=τ a) (k:=τ b) (by omega) (by omega) hu.rel.symm
    obtain ⟨-,-,hL⟩ := hL
    rw [hp.least a (by simp),hp.most a (by simp),hp.least b (by simp),← hτa,← hτb] at hL
    exact hL.elim (fun h => hout.1 h.2) hout.2

end Fixed

structure Later (r a b : ℕ) (vars : ℕ → Variable) (σ : ℕ → ℤ) (s : Engine) (τ : ℕ → ℤ) : Prop where
  same : ∀ v ∈ [r,a,b], SameType (vars v) (s.ctx.vars v)
  ok : ∀ v ∈ [r,a,b], (s.ctx.vars v).Ok
  pinned : Pinned [r,a,b] s.ctx.vars τ
  left : τ a = σ a
  right : τ b = σ b

/-- At every later state the fire conflicts unless the result is `z`. -/
def ComputesTo (vars : ℕ → Variable) (r a b : ℕ) (f : Fire) (σ : ℕ → ℤ) (z : ℤ) : Prop :=
  ∀ (s : Engine) (τ : ℕ → ℤ), Later r a b vars σ s τ → ((f.run s).1 = .conflict ↔ τ r ≠ z)

section Emitted

variable {op : BinOp} {r a b : ℕ} {σ τ : ℕ → ℤ} {rng : Option (BitVec 64 × BitVec 64)}

/-- The operators whose propagators do not wrap by themselves. -/
def integerOps : List BinOp := [.div,.mod,.band,.bor,.bxor,.rshift,.ashr]

theorem binopExact_rng (hop : op ∈ integerOps) (h : binopExact vars op r a b = some rng) :
    rng64 (vars a) = true ∧ rng64 (vars b) = true ∧ rng = none := by
  have hmod : modular op = false := by
    simp only [integerOps,mem_cons,not_mem_nil,or_false] at hop
    rcases hop with rfl | rfl | rfl | rfl | rfl | rfl | rfl <;> rfl
  unfold binopExact at h
  rw [if_neg (by simp [hmod])] at h
  by_cases hw : (vars r).width = 0 ∨ (vars r).width > 64
  · rw [if_pos hw] at h
    cases h
  rw [if_neg hw] at h
  obtain ⟨pa,ha,h⟩ := Option.bind_eq_some_iff.mp h
  obtain ⟨pb,hb,h⟩ := Option.bind_eq_some_iff.mp h
  refine ⟨?_,?_,?_⟩
  · unfold rngBounds at ha
    split_ifs at ha with hr
    exact hr
  · unfold rngBounds at hb
    split_ifs at hb with hr
    exact hr
  · simp only [integerOps,mem_cons,not_mem_nil,or_false] at hop
    rcases hop with rfl | rfl | rfl | rfl | rfl | rfl | rfl <;> dsimp only at h <;>
      split_ifs at h <;> exact (Option.some.inj h).symm

theorem Matched.operands (hok : ∀ v ∈ [r,a,b], (vars v).Ok) (hm : Matched op r a b vars)
    (hσ : Inside [a,b] vars σ) : Operands r a b vars σ ∧
      (op.isShift = false → InTy (σ b) (vars r).width (vars r).signed) := by
  have ha1 := hσ.least a (by simp)
  have ha2 := hσ.most a (by simp)
  have hb1 := hσ.least b (by simp)
  have hb2 := hσ.most b (by simp)
  have hr := hok r (by simp)
  have hl := hm.left
  refine ⟨⟨hok,?_,?_,?_⟩,fun hs => ?_⟩
  · exact ((hok a (by simp)).inTy_iff _).mpr ((hok a (by simp)).inType ha1 ha2)
  · exact ((hok b (by simp)).inTy_iff _).mpr ((hok b (by simp)).inType hb1 hb2)
  · exact (hr.inTy_iff _).mpr ⟨by omega,by omega⟩
  · have := hm.right hs
    exact (hr.inTy_iff _).mpr ⟨by omega,by omega⟩

section Later

variable (h : Later r a b vars σ s τ) (hσ : Inside [a,b] vars σ)

include h

theorem Later.operands (ho : Operands r a b vars σ) : Operands r a b s.ctx.vars τ where
  ok := h.ok
  ownA := by
    rw [h.left,(h.same a (by simp)).width,(h.same a (by simp)).signed]
    exact ho.ownA
  ownB := by
    rw [h.right,(h.same b (by simp)).width,(h.same b (by simp)).signed]
    exact ho.ownB
  left := by
    rw [h.left,(h.same r (by simp)).width,(h.same r (by simp)).signed]
    exact ho.left

include hσ

theorem Later.rng64 (ha : rng64 (vars a) = true) (hb : rng64 (vars b) = true) :
    σ a < 2^63 ∧ rng64 (s.ctx.vars a) = true ∧ rng64 (s.ctx.vars b) = true := by
  have hlt : ∀ x ∈ [a,b], Solver.rng64 (vars x) = true → σ x < 2^63 := fun x hx hr => by
    have h1 := hσ.most x hx
    have h2 := toInt_lt (x:=varHi64 (vars x))
    rw [most_of_rng64 hr] at h1
    omega
  refine ⟨hlt a (by simp) ha,
    rng64_of_lt (h.pinned.least a (by simp)) (h.pinned.most a (by simp)) fun _ => ?_,
    rng64_of_lt (h.pinned.least b (by simp)) (h.pinned.most b (by simp)) fun _ => ?_⟩
  · exact h.left ▸ hlt a (by simp) ha
  · exact h.right ▸ hlt b (by simp) hb

theorem Later.honest (ha : Solver.rng64 (vars a) = true) (hb : Solver.rng64 (vars b) = true)
    (hr : (s.ctx.vars r).beyond = true → τ r < 2^63) : Honest r a b s.ctx.vars := by
  obtain ⟨-,ha',hb'⟩ := h.rng64 hσ ha hb
  refine ⟨h.ok,fun v hv => ?_⟩
  simp only [mem_cons,not_mem_nil,or_false] at hv
  rcases hv with rfl | rfl | rfl
  · exact rng64_of_lt (h.pinned.least _ (by simp)) (h.pinned.most _ (by simp)) hr
  · exact ha'
  · exact hb'

end Later

theorem Matched.signs (hm : Matched op r a b vars) (hop : op.isShift = false)
    (h : Later r a b vars σ s τ) : (s.ctx.vars a).signed = (s.ctx.vars r).signed ∧
      (s.ctx.vars b).signed = (s.ctx.vars r).signed := by
  obtain ⟨ha,hb⟩ := hm.sign hop
  rw [(h.same a (by simp)).signed,(h.same b (by simp)).signed,(h.same r (by simp)).signed]
  exact ⟨ha,hb⟩

structure FarOperands (r a b : ℕ) (s : Engine) (τ : ℕ → ℤ) : Prop where
  unsigned : signedOp (s.ctx.vars r) (s.ctx.vars a) (s.ctx.vars b) = false
  left : (varLo64 (s.ctx.vars a)).toInt = τ a
  right : (varLo64 (s.ctx.vars b)).toInt = τ b
  nonneg : 0 ≤ τ a
  pos : 0 < τ b
  small : τ a < 2^63

theorem Later.far (h : Later r a b vars σ s τ) (hσ : Inside [a,b] vars σ)
    (ha : Solver.rng64 (vars a) = true) (hb : Solver.rng64 (vars b) = true)
    (hm : Matched op r a b vars) (hop : op.isShift = false) (h0 : τ b ≠ 0)
    (hbe : (s.ctx.vars r).beyond = true) : FarOperands r a b s τ := by
  obtain ⟨hlt,ha',hb'⟩ := h.rng64 hσ ha hb
  obtain ⟨hsa,hsb⟩ := hm.signs hop h
  have hs : (s.ctx.vars r).signed = false := by
    simp only [Variable.beyond,Bool.and_eq_true,Bool.not_eq_true'] at hbe
    exact hbe.1
  rw [hs] at hsa hsb
  have hb0 := (h.ok b (by simp)).nonneg hsb (h.pinned.least b (by simp)).le
  exact ⟨by rw [signedOp,hs,hsa,hsb]; rfl,(least_of_rng64 ha').symm.trans (h.pinned.least a (by simp)),
    (least_of_rng64 hb').symm.trans (h.pinned.least b (by simp)),
    (h.ok a (by simp)).nonneg hsa (h.pinned.least a (by simp)).le,by omega,h.left ▸ hlt⟩

/-- Without a large variable none is, and no result is past the signed words. -/
theorem Later.small (h : Later r a b vars σ s τ)
    (hw : (!(vars r).tier0 || !(vars a).tier0 || !(vars b).tier0) = false) :
    Small r a b s.ctx.vars ∧ (s.ctx.vars r).beyond = false := by
  have htier : ∀ v ∈ [r,a,b], (s.ctx.vars v).tier1 = false := fun v hv => by
    rw [(h.same v hv).tier1]
    simp only [Variable.tier0,Bool.or_eq_false_iff,Bool.not_eq_false',Bool.and_eq_true,
      Bool.not_eq_true'] at hw
    simp only [mem_cons,not_mem_nil,or_false] at hv
    rcases hv with rfl | rfl | rfl
    · exact hw.1.1.1
    · exact hw.1.2.1
    · exact hw.2.1
  have := (h.ok r (by simp)).narrow (htier r (by simp))
  refine ⟨htier,?_⟩
  simp only [Variable.beyond,Bool.and_eq_false_iff,decide_eq_false_iff_not]
  omega

section Emit

variable (hok : ∀ v ∈ [r,a,b], (vars v).Ok) (hσ : Inside [a,b] vars σ)
  (ha : Solver.rng64 (vars a) = true) (hb : Solver.rng64 (vars b) = true)

include hok hσ ha hb

theorem emit_div (hm : Matched .div r a b vars) (h0 : σ b ≠ 0) (ρ : Sv.Env) :
    ∃ f, emitBinopProp vars .div r a b = some f ∧ ComputesTo vars r a b f σ
      (Sv.arith ρ .div ⟨(vars r).width,(vars r).signed⟩ (σ a) (σ b)) := by
  refine ⟨_,rfl,fun s τ h => ?_⟩
  obtain ⟨ho,hin⟩ := hm.operands hok hσ
  obtain ⟨hsa,hsb⟩ := hm.signs rfl h
  have hτ0 : τ b ≠ 0 := h.right ▸ h0
  have hin' : InTy (τ b) (s.ctx.vars r).width (s.ctx.vars r).signed := by
    rw [h.right,(h.same r (by simp)).width,(h.same r (by simp)).signed]
    exact hin rfl
  have hrel := divRel_iff (ρ:=ρ) (h.operands ho) hin' hsa hsb hτ0
  rw [h.left,h.right,(h.same r (by simp)).width,(h.same r (by simp)).signed] at hrel
  rw [ne_eq,← hrel]
  cases hw : !(vars r).tier0 || !(vars a).tier0 || !(vars b).tier0
  · obtain ⟨hsm,hbe⟩ := h.small hw
    rw [if_neg (by simp)]
    exact fireBoundsDiv32_decides (h.honest hσ ha hb (by simp [hbe])) h.pinned hτ0 hsm
  · rw [if_pos rfl]
    by_cases hfar : (s.ctx.vars r).beyond = true ∧ 2^63 ≤ τ r
    · have hF := h.far hσ ha hb hm rfl hτ0 hfar.1
      have hle := Int.tdiv_le_self (τ b) hF.nonneg
      have hsmall := hF.small
      have hno : ¬DivRel r a b s.ctx.vars τ := by
        rw [DivRel,hF.unsigned,if_neg (by simp)]
        omega
      exact iff_of_true (fireBoundsDiv64_far h.pinned h.ok hF.unsigned hF.left hF.right hF.nonneg
        hF.pos hfar.2) hno
    · exact fireBoundsDiv64_decides (h.honest hσ ha hb fun hb => by
        by_contra hc
        exact hfar ⟨hb,by omega⟩) h.pinned hτ0

theorem emit_mod (hm : Matched .mod r a b vars) (h0 : σ b ≠ 0) (ρ : Sv.Env) :
    ∃ f, emitBinopProp vars .mod r a b = some f ∧ ComputesTo vars r a b f σ
      (Sv.arith ρ .mod ⟨(vars r).width,(vars r).signed⟩ (σ a) (σ b)) := by
  refine ⟨_,rfl,fun s τ h => ?_⟩
  obtain ⟨ho,-⟩ := hm.operands hok hσ
  obtain ⟨hsa,hsb⟩ := hm.signs rfl h
  have hτ0 : τ b ≠ 0 := h.right ▸ h0
  have hrel := modRel_iff (ρ:=ρ) (h.operands ho) hτ0
  rw [h.left,h.right,(h.same r (by simp)).width,(h.same r (by simp)).signed] at hrel
  rw [ne_eq,← hrel]
  cases hw : !(vars r).tier0 || !(vars a).tier0 || !(vars b).tier0
  · obtain ⟨hsm,hbe⟩ := h.small hw
    rw [if_neg (by simp)]
    exact (fireBoundsMod32_propagates (h.honest hσ ha hb (by simp [hbe])) hsm).decides h.pinned hτ0
  · rw [if_pos rfl]
    by_cases hfar : (s.ctx.vars r).beyond = true ∧ 2^63 ≤ τ r
    · have hF := h.far hσ ha hb hm rfl hτ0 hfar.1
      have hle := TruncDiv.emod_le_self hF.nonneg hF.pos
      have hsmall := hF.small
      have hno : ¬ModRel r a b τ := by
        rw [ModRel,Int.tmod_eq_emod_of_nonneg hF.nonneg]
        omega
      exact iff_of_true (fireBoundsMod64_far h.pinned h.ok hF.unsigned hF.right hF.pos hfar.2) hno
    · refine fireBoundsMod64_decides (h.honest hσ ha hb fun hb => by
        by_contra hc
        exact hfar ⟨hb,by omega⟩) h.pinned hτ0 fun hs => ?_
      rw [signedOp,hsa,hsb] at hs
      simpa using hs

omit ha hb in
theorem computesTo_bits (hm : Matched op r a b vars) (hop : op.isShift = false) {f : Fire}
    {o : (n : ℕ) → BitVec n → BitVec n → BitVec n} {g : ℕ → ℕ → ℕ} (hbit : Bitwise o)
    (hnat : ∀ n (x y : BitVec n), (o n x y).toNat = g x.toNat y.toNat)
    (hf : ∀ s : Engine, varLo64 (s.ctx.vars a) = varHi64 (s.ctx.vars a) →
      varLo64 (s.ctx.vars b) = varHi64 (s.ctx.vars b) → f.run s =
        (Fire.between r (o 64 (varLo64 (s.ctx.vars a)) (varLo64 (s.ctx.vars b)))
          (o 64 (varLo64 (s.ctx.vars a)) (varLo64 (s.ctx.vars b))) (.done .ok)).run s) :
    ComputesTo vars r a b f σ (wrap (g (pat (σ a) (vars r).width) (pat (σ b) (vars r).width))
      (vars r).width (vars r).signed) := by
  intro s τ h
  obtain ⟨ho,hin⟩ := hm.operands hok hσ
  have hin' : InTy (τ b) (s.ctx.vars r).width (s.ctx.vars r).signed := by
    rw [h.right,(h.same r (by simp)).width,(h.same r (by simp)).signed]
    exact hin hop
  have hword := bit_word hbit hnat (h.operands ho) hin' h.pinned
  rw [h.left,h.right,(h.same r (by simp)).width,(h.same r (by simp)).signed] at hword
  rw [hf s (h.pinned.fixed (by simp)) (h.pinned.fixed (by simp)),
    between_decides h.ok h.pinned (by simp),hword]
  exact ne_comm

theorem computesTo_shift (hm : Matched op r a b vars) (hop : op = .rshift ∨ op = .ashr) :
    ComputesTo vars r a b (fireBoundsLshr64 r a b) σ
      (Sv.shift op ⟨(vars r).width,(vars r).signed⟩ (σ a) (σ b).toNat) := by
  intro s τ h
  obtain ⟨ho,-⟩ := hm.operands hok hσ
  obtain ⟨-,ha',hb'⟩ := h.rng64 hσ ha hb
  have h1 := hσ.least a (by simp)
  have hadm : Admitted r a b s.ctx.vars := by
    refine ⟨h.ok,ha',hb',fun hs => ?_⟩
    have hbot := hm.left.1
    rw [Variable.bot,← (h.same r (by simp)).signed,hs,if_neg (by simp)] at hbot
    rw [h.pinned.least a (by simp),h.left]
    omega
  have hrel := shrRel_iff (h.operands ho) hop fun he => by
    have := hm.logical he
    rw [h.left]
    omega
  rw [h.left,h.right,(h.same r (by simp)).width,(h.same r (by simp)).signed] at hrel
  rw [(fireBoundsLshr64_propagates hadm).decides h.pinned,hrel]

theorem emit_arith (hop : op = .div ∨ op = .mod ∨ op = .band ∨ op = .bor ∨ op = .bxor)
    (hm : Matched op r a b vars) (hdiv : op = .div ∨ op = .mod → σ b ≠ 0) (ρ : Sv.Env) :
    ∃ f, emitBinopProp vars op r a b = some f ∧ ComputesTo vars r a b f σ
      (Sv.arith ρ op ⟨(vars r).width,(vars r).signed⟩ (σ a) (σ b)) := by
  rcases hop with rfl | rfl | rfl | rfl | rfl
  · exact emit_div hok hσ ha hb hm (hdiv (.inl rfl)) ρ
  · exact emit_mod hok hσ ha hb hm (hdiv (.inr rfl)) ρ
  · refine ⟨_,rfl,computesTo_bits hok hσ hm rfl (g:=(· &&& ·)) bitwise_and
      (fun _ _ _ => BitVec.toNat_and ..) fun s h1 h2 => ?_⟩
    simp only [fireBoundsBand64,Fire.run]
    rw [if_pos ⟨h1,h2⟩]
  · refine ⟨_,rfl,computesTo_bits hok hσ hm rfl (g:=(· ||| ·)) bitwise_or
      (fun _ _ _ => BitVec.toNat_or ..) fun s h1 h2 => ?_⟩
    simp only [fireBoundsBor64,Fire.run]
    rw [if_pos ⟨h1,h2⟩]
  · refine ⟨_,rfl,computesTo_bits hok hσ hm rfl (g:=(· ^^^ ·)) bitwise_xor
      (fun _ _ _ => BitVec.toNat_xor ..) fun s h1 h2 => ?_⟩
    simp only [fireBoundsBxor64,Fire.run]
    rw [if_pos ⟨h1,h2⟩]

end Emit

theorem shift_inTy {x : ℤ} {w n : ℕ} {S : Bool} (h : InTy x w S) (hop : op = .rshift ∨ op = .ashr) :
    InTy (Sv.shift op ⟨w,S⟩ x n) w S := by
  rcases hop with rfl | rfl
  · exact wrap_inTy _ _ _
  · rw [Sv.shift]
    split_ifs
    · exact Sv.InTy_shiftRight h n
    · exact wrap_inTy _ _ _

/-- Where `_binop_exact` admits an operator outside the modular set, the propagator emitted for it
computes what the validator evaluates, within the type of the result and any range given. -/
theorem binopExact_wraps (hop : op ∈ integerOps) (hok : ∀ v ∈ [r,a,b], (vars v).Ok)
    (hm : Matched op r a b vars) (h : binopExact vars op r a b = some rng)
    (hσ : Inside [a,b] vars σ) (hdiv : op = .div ∨ op = .mod → σ b ≠ 0) {ctx : Validate.Ctx}
    (hc : Shows ctx [a,b] vars σ) :
    ∃ z f, svResult ctx vars op r a b = some z ∧ (vars r).bot ≤ z ∧ z ≤ (vars r).top ∧
      (∀ lo hi, rng = some (lo,hi) → lo.toInt ≤ z ∧ z ≤ hi.toInt) ∧
      emitBinopProp vars op r a b = some f ∧ ComputesTo vars r a b f σ z := by
  obtain ⟨ha,hb,rfl⟩ := binopExact_rng hop h
  obtain ⟨ho,hin⟩ := hm.operands hok hσ
  have hr := hok r (by simp)
  let ρ : Sv.Env := ⟨σ,fun _ _ => 0,fun _ _ => 0,fun _ => false⟩
  simp only [integerOps,mem_cons,not_mem_nil,or_false] at hop
  by_cases hs : op = .rshift ∨ op = .ashr
  · have hshift : op.isShift = true := by rcases hs with rfl | rfl <;> rfl
    have hfit := (hr.inTy_iff _).mp (shift_inTy (n:=(σ b).toNat) ho.left hs)
    have hamount := (hm.amount hshift).trans (hσ.least b (by simp))
    exact ⟨_,_,svResult_shift hc ho hshift hamount,hfit.1,hfit.2,by simp,
      by rcases hs with rfl | rfl <;> rfl,computesTo_shift hok hσ ha hb hm hs⟩
  · have hop' : op = .div ∨ op = .mod ∨ op = .band ∨ op = .bor ∨ op = .bxor := by tauto
    have harith : op.isArith = true ∧ op.isShift = false := by
      rcases hop' with rfl | rfl | rfl | rfl | rfl <;> decide
    obtain ⟨f,hf,hcomp⟩ := emit_arith hok hσ ha hb hop' hm hdiv ρ
    have hfit := (hr.inTy_iff _).mp (Sv.arith_inTy (ρ:=ρ) harith.1
      ⟨(vars r).width,(vars r).signed⟩ (σ a) (σ b))
    exact ⟨_,f,svResult_arith ρ hc ho (hin harith.2) harith.1 hdiv,hfit.1,hfit.2,by simp,hf,hcomp⟩

def declared (vars : ℕ → Variable) (h : ∀ v, 0 < (vars v).width) (σ : ℕ → ℤ) : Validate.Ctx :=
  ⟨3,fun v => (vars v).width,fun v => (vars v).signed,σ,h⟩

def smallBytes : ℕ → Variable := fun _ => wideVar 0#64 100#64 8 false

theorem smallBytes_pos (v : ℕ) : 0 < (smallBytes v).width := Nat.succ_pos 7

theorem binopExact_wraps_bytes :
    ∃ z f, svResult (declared smallBytes smallBytes_pos fun v => 7*v) smallBytes .div 0 2 1 = some z ∧
      (smallBytes 0).bot ≤ z ∧ z ≤ (smallBytes 0).top ∧
      (∀ lo hi : BitVec 64, none = some (lo,hi) → lo.toInt ≤ z ∧ z ≤ hi.toInt) ∧
      emitBinopProp smallBytes .div 0 2 1 = some f ∧
      ComputesTo smallBytes 0 2 1 f (fun v => 7*v) z :=
  have hok : (wideVar 0#64 100#64 8 false).Ok :=
    wideVar_ok (by decide) (by decide) (by decide) (by decide)
  binopExact_wraps (by decide) (fun _ _ => hok)
    ⟨by decide,fun _ => by decide,fun _ => ⟨rfl,rfl⟩,fun h => absurd h (by decide),
      fun h => absurd h (by decide)⟩ rfl ⟨by decide,by decide⟩ (fun _ => by decide)
    ⟨by decide,fun _ _ => rfl,fun _ _ => rfl,fun _ _ => rfl⟩

def narrowResult (v : ℕ) : Variable :=
  if v = 0 then wideVar 88#64 88#64 8 false
  else if v = 1 then wideVar 600#64 600#64 16 false else wideVar 1#64 1#64 16 false

theorem narrowResult_ok (v : ℕ) : (narrowResult v).Ok := by
  unfold narrowResult
  split_ifs <;> exact wideVar_ok (by decide) (by decide) (by decide) (by decide)

/-- The quotient 600 wraps to 88 in eight bits, where the propagator conflicts. -/
theorem binopExact_wrong :
    ¬∀ (vars : ℕ → Variable) (op : BinOp) (r a b : ℕ) (rng : Option (BitVec 64 × BitVec 64))
      (σ : ℕ → ℤ) (ctx : Validate.Ctx), op ∈ integerOps → (∀ v ∈ [r,a,b], (vars v).Ok) →
      binopExact vars op r a b = some rng → Inside [a,b] vars σ →
      (op = .div ∨ op = .mod → σ b ≠ 0) → Shows ctx [a,b] vars σ →
      ∃ z f, svResult ctx vars op r a b = some z ∧ (vars r).bot ≤ z ∧ z ≤ (vars r).top ∧
        (∀ lo hi, rng = some (lo,hi) → lo.toInt ≤ z ∧ z ≤ hi.toInt) ∧
        emitBinopProp vars op r a b = some f ∧ ComputesTo vars r a b f σ z := by
  intro h
  let σ : ℕ → ℤ := fun v => if v = 0 then 88 else if v = 1 then 600 else 1
  obtain ⟨z,f,hz,-,-,-,hf,hcomp⟩ := h narrowResult .div 0 1 2 none σ
    (declared narrowResult (fun v => (narrowResult_ok v).pos) σ) (by decide)
    (fun v _ => narrowResult_ok v) rfl ⟨by decide,by decide⟩ (fun _ => by decide)
    ⟨by decide,fun _ _ => rfl,fun _ _ => rfl,fun _ _ => rfl⟩
  obtain rfl : 88 = z :=
    Option.some.inj ((by decide : svResult _ _ _ _ _ _ = some 88).symm.trans hz)
  obtain rfl : fireBoundsDiv64 0 1 2 = f := Option.some.inj hf
  have hconf := (hcomp (holding narrowResult) σ ⟨fun v _ => .refl _,fun v _ => narrowResult_ok v,
    ⟨by decide,by decide⟩,rfl,rfl⟩).mp (by decide)
  exact hconf rfl

end Emitted

end Solver
end DvSolve
