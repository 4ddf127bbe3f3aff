import DvSolve.SvMaskSrc
import DvSolve.SvElabSem

/-! Rewriting of masks keeps the truth of a root whose sources repeat no sign. -/
namespace DvSolve
namespace Sv

open TwosComp BitRuns Validate
open List (Forall₂)
open Option (bind_eq_some_iff ite_none_left_eq_some map_eq_some_iff)

variable {Q : ℕ → ℕ → Prop} {Γ : ℕ → Ty} {ρ : Env} {typeOf : Expr → Option Ty}
variable {m W : ℕ} {op : BinOp} {a : Expr} {h l : ℕ} {s : MrwSrc} {e x : Expr} {v : ℕ}

theorem eq_iff_testBit {n : ℕ} (hm : m < 2^W) (hn : n < 2^W) :
    m = n ↔ ∀ i, i < W → m.testBit i = n.testBit i := by
  constructor
  · rintro rfl i _
    rfl
  · intro h
    apply Nat.eq_of_testBit_eq
    intro i
    by_cases hi : i < W
    · exact h i hi
    · have hp := Nat.pow_le_pow_right (show 0 < 2 by decide) (not_lt.mp hi)
      rw [Nat.testBit_lt_two_pow (hm.trans_le hp),Nat.testBit_lt_two_pow (hn.trans_le hp)]

theorem truth_cmp (hop : op.isCmp = true) (a b : Expr) :
    truth Γ ρ (.binary op a b) = rel Γ ρ op a b := by
  rw [truth,eval_cmp hop,Bool.eq_iff_iff,decide_eq_true_eq,ofBool_ne_zero]
  rfl

/-- Equality, and its negation, are those of the patterns. -/
theorem rel_iff_pat (hop : op = .eq ∨ op = .neq) {b : Expr} {S : Bool}
    (hW : max (ty Γ a).w (ty Γ b).w = W) (hS : ((ty Γ a).s && (ty Γ b).s) = S) :
    rel Γ ρ op a b = true ↔ (op = .eq ↔ pat (eval Γ ρ a W S) W = pat (eval Γ ρ b W S) W) := by
  subst hW
  subst hS
  have hw : 0 < max (ty Γ a).w (ty Γ b).w := lt_max_of_lt_left (ty_w_pos Γ a)
  have ha := eval_inTy (Γ := Γ) (ρ := ρ) (e := a) (S := (ty Γ a).s && (ty Γ b).s) hw
    fun h => (Bool.and_eq_true_iff.mp h).1
  have hb := eval_inTy (Γ := Γ) (ρ := ρ) (e := b) (S := (ty Γ a).s && (ty Γ b).s) hw
    fun h => (Bool.and_eq_true_iff.mp h).2
  rw [ha.pat_inj hb]
  rcases hop with rfl | rfl
  · simp only [true_iff]
    exact decide_eq_true_iff
  · simp only [reduceCtorEq,false_iff]
    exact decide_eq_true_iff

/-- The bits of a variable from `l+off` to `h+off`. -/
def fieldVal (ρ : Env) (s : MrwSrc) (h l : ℕ) : ℕ := pat (ρ.value s.var) s.vw >>> (l+s.off) % 2^(h+1-l)

theorem fieldVal_lt (s : MrwSrc) (h l : ℕ) : fieldVal ρ s h l < 2^(h+1-l) :=
  Nat.mod_lt _ (Nat.two_pow_pos _)

theorem fieldVal_testBit (s : MrwSrc) {i : ℕ} (hi : i < h+1-l) :
    (fieldVal ρ s h l).testBit i = (pat (ρ.value s.var) s.vw).testBit (i+l+s.off) := by
  rw [fieldVal,Nat.testBit_mod_two_pow,Nat.testBit_shiftRight,decide_eq_true hi,Bool.true_and]
  congr 1
  omega

theorem ty_field (hw : s.vw = (Γ s.var).fix.w) (hl : l ≤ h) (hh : h+s.off < s.vw) :
    (ty Γ (mrwField s h l)).w = h+1-l := by
  simp only [mrwField]
  split_ifs with hv
  · rw [ty,← hw]
    omega
  · rw [ty,Ty.fix_w (by simp; omega)]
    simp
    omega

theorem pat_field (hw : s.vw = (Γ s.var).fix.w) (hl : l ≤ h) (hh : h+s.off < s.vw) (S : Bool) :
    pat (eval Γ ρ (mrwField s h l) (h+1-l) S) (h+1-l) = fieldVal ρ s h l := by
  rw [eq_iff_testBit (pat_lt _ _) (fieldVal_lt s h l)]
  intro i hi
  rw [fieldVal_testBit s hi]
  simp only [mrwField]
  split_ifs with hv
  · rw [eval,pat_wrap,wrap_testBit _ _ _ hi,← hw,if_pos (by omega),show i+l+s.off = i by omega]
  · rw [eval,pat_wrap]
    have hn : h+s.off+1-(l+s.off) = h+1-l := by omega
    rw [hn,Ty.fix_eq (t := ⟨h+1-l,false⟩) (by simp; omega),pat_wrap]
    have hown : (ty Γ (.var s.var)).w = s.vw := by rw [ty,hw]
    rw [pat_shiftRight_testBit (w := s.vw) hi (by omega),hown,eval,← hw,pat_wrap,pat_wrap]
    congr 1
    omega

/-- Every slice of a variable is among those of `Q`. -/
def Narrow (Q : ℕ → ℕ → Prop) : Prop := ∀ hi w, hi < 64 → Q hi w

theorem sized_field (hQ : Narrow Q) (hle : s.vw ≤ 64) (hl : l ≤ h) (hh : h+s.off < s.vw) :
    Sized Q Γ (mrwField s h l) := by
  simp only [mrwField]
  split_ifs
  · trivial
  · exact ⟨trivial,by omega,hQ _ _ (by omega)⟩

theorem int64_emod (n : ℕ) (hW : W ≤ 64) : int64 n % 2^W = n % 2^W :=
  emod_of_le hW (wrap_emod _ _ _)

theorem int64_of_lt {n : ℕ} (h : n < 2^63) : int64 n = n := by
  apply wrap_of_inTy
  unfold InTy
  simp only [if_true]
  omega

theorem sized_int64 (n W : ℕ) (s : Bool) : Sized Q Γ (.const (int64 n) W s) := by
  have h := wrap_inTy n 64 true
  unfold InTy at h
  simp only [if_true] at h
  exact ⟨by unfold int64; omega,by unfold int64; omega⟩

theorem pat_fieldConst {b n : ℕ} (hn : 0 < n) (hn64 : n ≤ 64) (hb : b < 2^n) (S : Bool) :
    pat (eval Γ ρ (.const (int64 b) n false) n S) n = b := by
  have hmod : (b : ℤ) % 2^n = b := Int.emod_eq_of_lt (by positivity) (by exact_mod_cast hb)
  have hc : constValue (int64 b) ⟨n,false⟩ % 2^n = b := by
    rw [constValue_emod (t := ⟨n,false⟩) _ hn64 (le_refl _),int64_emod b hn64,hmod]
  rw [eval,constType,if_pos hn.ne',pat_wrap,pat,hc,Int.toNat_natCast]

theorem truth_field (hop : op = .eq ∨ op = .neq) {b : ℕ} (hw : s.vw = (Γ s.var).fix.w)
    (hle : s.vw ≤ 64) (hl : l ≤ h) (hh : h+s.off < s.vw) (hb : b < 2^(h+1-l)) :
    truth Γ ρ (.binary op (mrwField s h l) (.const (int64 b) (h+1-l) false)) = true ↔
      (op = .eq ↔ fieldVal ρ s h l = b) := by
  have hty := ty_field hw hl hh
  have htc : ty Γ (.const (int64 b) (h+1-l) false) = ⟨h+1-l,false⟩ := if_pos (by omega)
  have hcmp : op.isCmp = true := by rcases hop with rfl | rfl <;> rfl
  rw [truth_cmp hcmp,rel_iff_pat hop (by rw [hty,htc,max_self]) rfl,pat_field hw hl hh,
    pat_fieldConst (by omega) (by omega) hb]

theorem forall₂_right {α β : Type} {R : α → β → Prop} {P : β → Prop} {as : List α} {bs : List β}
    (h : Forall₂ R as bs) (hP : ∀ a b, R a b → P b) : ∀ b ∈ bs, P b := by
  induction h with
  | nil => simp
  | cons hab _ ih => exact List.forall_mem_cons.mpr ⟨hP _ _ hab,ih⟩

theorem truth_chain {α : Type} (hop : op = .eq ∨ op = .neq) {P : α → Prop} {rs : List α}
    {ts : List Expr} (hts : Forall₂ (fun r t => truth Γ ρ t = true ↔ (op = .eq ↔ P r)) rs ts)
    (h : mrwChain op ts = some e) : truth Γ ρ e = true ↔ (op = .eq ↔ ∀ r ∈ rs, P r) := by
  have hfold : ∀ rs ts, Forall₂ (fun r t => truth Γ ρ t = true ↔ (op = .eq ↔ P r)) rs ts →
      ∀ acc : Expr, ∀ R : Prop, (truth Γ ρ acc = true ↔ (op = .eq ↔ R)) →
      (truth Γ ρ (ts.foldl (fun acc t => .binary (if op = .eq then .and else .or) acc t) acc) = true ↔
        (op = .eq ↔ R ∧ ∀ r ∈ rs, P r)) := by
    intro rs ts hrel
    induction hrel with
    | nil =>
      intro acc R hacc
      simpa using hacc
    | @cons r t rs ts hr _ ih =>
      intro acc R hacc
      have hstep : truth Γ ρ (.binary (if op = .eq then .and else .or) acc t) = true ↔ (op = .eq ↔ R ∧ P r) := by
        rcases hop with rfl | rfl
        · rw [if_pos rfl,truth,decide_eq_true_eq,eval_and,ofBool_ne_zero,Bool.and_eq_true,hacc,hr]
          simp
        · rw [if_neg (by decide),truth,decide_eq_true_eq,eval_or,ofBool_ne_zero,Bool.or_eq_true,hacc,hr]
          simp
          tauto
      rw [List.foldl_cons,ih _ _ hstep]
      simp [and_assoc]
  cases hts with
  | nil => simp [mrwChain] at h
  | cons hr hts =>
    obtain rfl := Option.some.inj h
    rw [hfold _ _ hts _ _ hr]
    simp

theorem sized_chain {ts : List Expr} (hts : ∀ t ∈ ts, Sized Q Γ t) (h : mrwChain op ts = some e) :
    Sized Q Γ e := by
  have hfold : ∀ ts : List Expr, (∀ t ∈ ts, Sized Q Γ t) → ∀ acc : Expr, Sized Q Γ acc →
      Sized Q Γ (ts.foldl (fun acc t => .binary (if op = .eq then .and else .or) acc t) acc) := by
    intro ts
    induction ts with
    | nil => exact fun _ _ hacc => hacc
    | cons t ts ih =>
      intro hts acc hacc
      rw [List.forall_mem_cons] at hts
      exact ih hts.2 _ ⟨hacc,hts.1⟩
  cases ts with
  | nil => simp [mrwChain] at h
  | cons t ts =>
    obtain rfl := Option.some.inj h
    rw [List.forall_mem_cons] at hts
    exact hfold ts hts.2 t hts.1

theorem mrwConst_spec {c : Expr} {k : ℕ} (h : mrwConst c W = some k) :
    W ≤ 64 ∧ k < 2^W ∧ ∀ Γ ρ S, pat (eval Γ ρ c W S) W = k := by
  cases c with
  | const value width isSigned =>
    simp only [mrwConst] at h
    split_ifs at h with hno
    obtain rfl := Option.some.inj h
    refine ⟨by omega,pat_lt _ _,fun Γ ρ S => ?_⟩
    rw [eval,pat_wrap]
    exact pat_congr (svWrap_own_emod value (constType_w_pos _ _ _) (by omega)).symm
  | _ => simp [mrwConst] at h

structure Masked (Q : ℕ → ℕ → Prop) (Γ : ℕ → Ty) (op : BinOp) (a : Expr) (W : ℕ) (x : Expr) (m : ℕ) :
    Prop where
  width : W ≤ 64
  lt : m < 2^W
  other : ∃ y, mrwConst y W = some m ∧ (a = .binary op x y ∨ a = .binary op y x)
  sized : Sized Q Γ x
  shifts : Explicit Γ x

theorem mrwMasked_spec {f : Bool} (hsized : Sized Q Γ a) (hex : Explicit Γ a)
    (h : mrwMasked a W f = some (x,m)) : Masked Q Γ (if f then .bor else .band) a W x m := by
  cases a with
  | binary op l r =>
    simp only [mrwMasked] at h
    rw [ite_none_left_eq_some] at h
    obtain ⟨hop,h⟩ := h
    obtain rfl := not_not.mp hop
    cases hr : mrwConst r W with
    | some k =>
      rw [hr] at h
      obtain ⟨rfl,rfl⟩ := Prod.mk.inj (Option.some.inj h)
      obtain ⟨h1,h2,-⟩ := mrwConst_spec hr
      exact ⟨h1,h2,⟨r,hr,Or.inl rfl⟩,hsized.1,hex.2.1⟩
    | none =>
      rw [hr] at h
      obtain ⟨k,hl,he⟩ := map_eq_some_iff.mp h
      obtain ⟨rfl,rfl⟩ := Prod.mk.inj he
      obtain ⟨h1,h2,-⟩ := mrwConst_spec hl
      exact ⟨h1,h2,⟨l,hl,Or.inr rfl⟩,hsized.2,hex.2.2⟩
  | _ => simp [mrwMasked] at h

theorem pat_band (a b : Expr) (W : ℕ) (S : Bool) :
    pat (eval Γ ρ (.binary .band a b) W S) W = pat (eval Γ ρ a W S) W &&& pat (eval Γ ρ b W S) W := by
  rw [eval_arith rfl,arith,pat_wrap,pat_natCast,Nat.mod_eq_of_lt]
  exact Nat.and_lt_two_pow _ (pat_lt _ _)

theorem pat_bor (a b : Expr) (W : ℕ) (S : Bool) :
    pat (eval Γ ρ (.binary .bor a b) W S) W = pat (eval Γ ρ a W S) W ||| pat (eval Γ ρ b W S) W := by
  rw [eval_arith rfl,arith,pat_wrap,pat_natCast,Nat.mod_eq_of_lt]
  exact Nat.or_lt_two_pow (pat_lt _ _) (pat_lt _ _)

theorem Masked.band (h : Masked Q Γ .band a W x m) (ρ : Env) (S : Bool) :
    pat (eval Γ ρ a W S) W = pat (eval Γ ρ x W S) W &&& m := by
  obtain ⟨y,hy,rfl | rfl⟩ := h.other
  · rw [pat_band,(mrwConst_spec hy).2.2]
  · rw [pat_band,(mrwConst_spec hy).2.2,Nat.and_comm]

theorem Masked.bor (h : Masked Q Γ .bor a W x m) (ρ : Env) (S : Bool) :
    pat (eval Γ ρ a W S) W = pat (eval Γ ρ x W S) W ||| m := by
  obtain ⟨y,hy,rfl | rfl⟩ := h.other
  · rw [pat_bor,(mrwConst_spec hy).2.2]
  · rw [pat_bor,(mrwConst_spec hy).2.2,Nat.or_comm]

theorem mrwSource_spec (ht : Typed Γ typeOf) {o : MrwSrc} (hsized : Sized Q Γ x)
    (hex : Explicit Γ x) (h : mrwSource typeOf x W = some (some o)) :
    SrcSpec Γ x W o ∧ mrwSource (own Γ) x W = some (some o) :=
  ⟨(mrwSrc_spec ht hsized hex h).1,mrwSrc_own ht h⟩

theorem mrwRuns_eq {rs : List (ℕ × ℕ)} (h : mrwRuns m W = some rs) : rs = runs m W W 0 := by
  simp only [mrwRuns] at h
  split_ifs at h
  exact (Option.some.inj h).symm

theorem mrwBits_testBit {j : ℕ} (hj : j < h+1-l) : (mrwBits v h l).testBit j = v.testBit (l+j) := by
  rw [mrwBits,Nat.testBit_mod_two_pow,Nat.testBit_shiftRight,decide_eq_true hj,Bool.true_and]

theorem mrwBits_eq_zero (hz : mrwBits v h l = 0) {i : ℕ} (hl : l ≤ i) (hh : i ≤ h) :
    v.testBit i = false := by
  have hbit := mrwBits_testBit (v := v) (show i-l < h+1-l by omega)
  rw [hz,Nat.zero_testBit,Nat.add_sub_cancel' hl] at hbit
  exact hbit.symm

theorem mrwStuck_spec {r : ℕ × ℕ} (hstuck : mrwStuck s v r = false) {i : ℕ} (hl : r.1 ≤ i) (hh : i ≤ r.2)
    (ha : s.avail ≤ i) : v.testBit i = false := by
  by_cases hlo : r.1 ≥ s.avail
  · rw [mrwStuck,if_pos hlo,decide_eq_false_iff_not,not_not] at hstuck
    exact mrwBits_eq_zero hstuck hl hh
  · rw [mrwStuck,if_neg hlo,if_neg (show ¬r.2 < s.avail by omega)] at hstuck
    dsimp only at hstuck
    rw [decide_eq_true (show s.avail-1 < r.2 by omega),Bool.true_and,decide_eq_false_iff_not,not_not] at hstuck
    exact mrwBits_eq_zero hstuck (by omega) hh

def srcBit (ρ : Env) (s : MrwSrc) (i : ℕ) : Bool :=
  decide (i < s.avail) && (pat (ρ.value s.var) s.vw).testBit (i+s.off)

theorem SrcSpec.bit_below (h : SrcSpec Γ x W s) {i : ℕ} (hi : i < s.avail) (hW : i < W) (ρ : Env) (S : Bool) :
    (pat (eval Γ ρ x W S) W).testBit i = srcBit ρ s i := by
  have hle := h.le_seen
  rw [h.bits ρ S i hW,srcBit,decide_eq_true hi,decide_eq_true (by omega),show min i (s.avail-1) = i by omega]

/-- From `avail` on the last of the bits is repeated. -/
theorem SrcSpec.bit_above (h : SrcSpec Γ x W s) {i : ℕ} (hi : s.avail ≤ i) (hW : i < W) (ρ : Env) (S : Bool) :
    (pat (eval Γ ρ x W S) W).testBit i = (decide (i < srcSeen Γ x W) && srcBit ρ s (s.avail-1)) := by
  have hpos := h.pos
  rw [h.bits ρ S i hW,srcBit,decide_eq_true (show s.avail-1 < s.avail by omega),
    show min i (s.avail-1) = s.avail-1 by omega,Bool.true_and]

theorem mrwRun_spec (hQ : Narrow Q) (hop : op = .eq ∨ op = .neq) (hs : SrcSpec Γ x W s) {r : ℕ × ℕ}
    {t : Expr} (hr : r.1 ≤ r.2) (hlo : r.1 < s.avail) (hstuck : mrwStuck s v r = false)
    (h : mrwRun op s v r = some t) :
    (∀ ρ, truth Γ ρ t = true ↔ (op = .eq ↔ ∀ i, r.1 ≤ i → i ≤ r.2 → srcBit ρ s i = v.testBit i)) ∧
      Sized Q Γ t := by
  have hfits := hs.fits
  rw [mrwRun] at h
  set hi := if r.2 < s.avail then r.2 else s.avail-1 with hhi
  have hhi' : r.1 ≤ hi ∧ hi < s.avail ∧ hi ≤ r.2 := by
    rw [hhi]
    split_ifs <;> omega
  obtain ⟨k,hk,rfl⟩ := map_eq_some_iff.mp h
  obtain rfl := mkConst_eq hk
  have hb : mrwBits v hi r.1 < 2^(hi+1-r.1) := Nat.mod_lt _ (Nat.two_pow_pos _)
  refine ⟨fun ρ => ?_,sized_field hQ hs.width_le hhi'.1 (by omega),sized_int64 _ _ _⟩
  rw [truth_field hop hs.width hs.width_le hhi'.1 (by omega) hb,eq_iff_testBit (fieldVal_lt _ _ _) hb]
  -- above the bits of the variable both are zero
  have htop : ∀ i, hi < i → i ≤ r.2 → v.testBit i = false := by
    intro i h1 h2
    refine mrwStuck_spec hstuck (by omega) h2 ?_
    rw [hhi] at h1
    split_ifs at h1 <;> omega
  apply iff_congr Iff.rfl
  constructor
  · intro hall i h1 h2
    by_cases hih : i ≤ hi
    · have := hall (i-r.1) (by omega)
      rw [fieldVal_testBit s (by omega),mrwBits_testBit (by omega)] at this
      rw [srcBit,decide_eq_true (by omega),Bool.true_and,show i = r.1+(i-r.1) by omega,← this]
      congr 1
      omega
    · rw [htop i (by omega) h2,srcBit,decide_eq_false]
      · rfl
      · rw [hhi] at hih
        split_ifs at hih <;> omega
  · intro hall j hj
    rw [fieldVal_testBit s hj,mrwBits_testBit hj,← hall (r.1+j) (by omega) (by omega),srcBit,
      decide_eq_true (by omega),Bool.true_and]
    congr 1
    omega

/-- What the runs compare: the bits of `m` below `avail`; of those above, `v` asks none. -/
theorem mrwEqRuns_bits (ht : Typed Γ typeOf) (hQ : Narrow Q) (hop : op = .eq ∨ op = .neq)
    (hsized : Sized Q Γ x) (hex : Explicit Γ x) (h : mrwEqRuns typeOf op x m v W = some (some e)) :
    ∃ s rs, SrcSpec Γ x W s ∧ mrwSource (own Γ) x W = some (some s) ∧ mrwRuns m W = some rs ∧
      Sized Q Γ e ∧ (∀ i < W, m.testBit i = true → s.avail ≤ i → v.testBit i = false) ∧
      (∃ i < W, m.testBit i = true ∧ i < s.avail) ∧ ∀ ρ, truth Γ ρ e = true ↔
        (op = .eq ↔ ∀ i < W, m.testBit i = true → i < s.avail → srcBit ρ s i = v.testBit i) := by
  obtain ⟨s,hsrc,h⟩ := bind_eq_some_iff.mp h
  cases s with
  | none => simp at h
  | some s =>
    obtain ⟨hs,hown⟩ := mrwSource_spec ht hsized hex hsrc
    cases hrs : mrwRuns m W with
    | none => simp [hrs] at h
    | some rs =>
      have hruns := mrwRuns_eq hrs
      simp only [hrs] at h
      obtain ⟨hstuck,h⟩ := ite_null_eq_some h
      obtain ⟨ts,hts,h⟩ := map_eq_some_iff.mp h
      have hmem : ∀ r ∈ rs.filter fun r => decide (r.1 < s.avail), r ∈ rs ∧ r.1 < s.avail := fun r hr => by
        rw [List.mem_filter,decide_eq_true_eq] at hr
        exact hr
      have hfree : ∀ r ∈ rs, mrwStuck s v r = false := fun r hr => by
        rw [Bool.eq_false_iff]
        exact fun hb => hstuck (List.any_eq_true.mpr ⟨r,hr,hb⟩)
      have hzero : ∀ i < W, m.testBit i = true → s.avail ≤ i → v.testBit i = false := by
        intro i hi hm ha
        obtain ⟨r,hr,h1,h2⟩ := (testBit_iff_runs hi).mp hm
        rw [← hruns] at hr
        exact mrwStuck_spec (hfree r hr) h1 h2 ha
      have hbelow : ∃ i < W, m.testBit i = true ∧ i < s.avail := by
        rcases hfil : rs.filter fun r => decide (r.1 < s.avail) with _ | ⟨r,rs'⟩
        · rw [hfil] at hts
          obtain rfl := Option.some.inj hts
          simp [mrwChain] at h
        · obtain ⟨hr,hlo⟩ := hmem r (hfil ▸ List.mem_cons_self)
          have hset := runs_set (hruns ▸ hr)
          exact ⟨r.1,by omega,hset.2.2.2 _ (le_refl _) hset.2.1,hlo⟩
      have hrel := (List.forall₂_and_left _ ts).mpr ⟨hmem,forall₂_of_mapM hts⟩
      have hspec := hrel.imp fun r t hrt => mrwRun_spec hQ hop hs (v := v)
        (runs_set (hruns ▸ hrt.1.1)).2.1 hrt.1.2 (hfree r hrt.1.1) hrt.2
      refine ⟨s,rs,hs,hown,rfl,sized_chain (fun t htm => ?_) h,hzero,hbelow,fun ρ => ?_⟩
      · exact forall₂_right hspec (fun _ _ hrt => hrt.2) t htm
      · rw [truth_chain hop (hspec.imp fun r t hrt => hrt.1 ρ) h]
        apply iff_congr Iff.rfl
        constructor
        · intro hall i hi hm hlt
          obtain ⟨r,hr,h1,h2⟩ := (testBit_iff_runs hi).mp hm
          rw [← hruns] at hr
          exact hall r (List.mem_filter.mpr ⟨hr,by simp; omega⟩) i h1 h2
        · intro hall r hr i h1 h2
          have hset := runs_set (hruns ▸ (hmem r hr).1)
          have hm := hset.2.2.2 i h1 h2
          rcases lt_or_ge i s.avail with hlt | hge
          · exact hall i (by omega) hm hlt
          · rw [hzero i (by omega) hm hge,srcBit,decide_eq_false (by omega),Bool.false_and]

/-- A variable of which the source's bits are those of `v`, the last of them set. -/
theorem exists_srcBit (hs : SrcSpec Γ x W s) (v : ℕ) :
    ∃ ρ : Env, ∀ i < s.avail, srcBit ρ s i = (v.testBit i || decide (i = s.avail-1)) := by
  have hfits := hs.fits
  have hpos := hs.pos
  set n := v % 2^s.avail ||| 2^(s.avail-1) with hn
  have hlt : n < 2^s.avail := by
    rw [hn]
    exact Nat.or_lt_two_pow (Nat.mod_lt _ (Nat.two_pow_pos _)) (Nat.pow_lt_pow_right (by decide) (by omega))
  have hw : n*2^s.off < 2^s.vw := by
    calc n*2^s.off < 2^s.avail*2^s.off := Nat.mul_lt_mul_of_pos_right hlt (Nat.two_pow_pos _)
      _ = 2^(s.avail+s.off) := (pow_add _ _ _).symm
      _ ≤ 2^s.vw := Nat.pow_le_pow_right (by decide) hfits
  refine ⟨⟨fun _ => ((n*2^s.off : ℕ) : ℤ),fun _ _ => 0,fun _ _ => 0,fun _ => false⟩,fun i hi => ?_⟩
  rw [srcBit,decide_eq_true hi,Bool.true_and,pat_natCast,Nat.mod_eq_of_lt hw,Nat.testBit_mul_two_pow,
    decide_eq_true (by omega),Bool.true_and,Nat.add_sub_cancel,hn,Nat.testBit_or,Nat.testBit_mod_two_pow,
    decide_eq_true hi,Bool.true_and,Nat.testBit_two_pow]
  congr 1
  rw [decide_eq_decide]
  omega

/-- The runs are what is asked exactly where a repeated sign does no harm. -/
theorem mrwEqRuns_spec (ht : Typed Γ typeOf) (hQ : Narrow Q) (hop : op = .eq ∨ op = .neq)
    (hsized : Sized Q Γ x) (hex : Explicit Γ x) (S : Bool)
    (h : mrwEqRuns typeOf op x m v W = some (some e)) :
    Sized Q Γ e ∧ ((∀ ρ, truth Γ ρ e = true ↔ (op = .eq ↔ ∀ i < W, m.testBit i = true →
      (pat (eval Γ ρ x W S) W).testBit i = v.testBit i)) ↔ EqReads Γ x m v W) := by
  obtain ⟨s,rs,hs,hown,hrs,hsized',hzero,⟨k,hk,hkm,hka⟩,htruth⟩ := mrwEqRuns_bits ht hQ hop hsized hex h
  refine ⟨hsized',⟨fun hall o rs' ho _ => ?_,fun hreads ρ => ?_⟩⟩
  · obtain rfl := Option.some.inj (Option.some.inj (hown.symm.trans ho))
    by_contra hno
    simp only [not_or,not_and,not_exists,not_forall,Bool.not_eq_false] at hno
    obtain ⟨-,-,⟨j,hj,hjm,hja⟩,hsign⟩ := hno
    obtain ⟨ρ,hρ⟩ := exists_srcBit hs v
    -- below `avail` the source is `v` where it is compared, and its sign is set
    have hbits : ∀ i < W, m.testBit i = true → i < s.avail → srcBit ρ s i = v.testBit i := by
      intro i _ hm hlt
      rw [hρ i hlt]
      by_cases hi : i = s.avail-1
      · subst hi
        rw [hsign hm]
        rfl
      · simp [hi]
    have hreal : ∀ i < W, m.testBit i = true → (pat (eval Γ ρ x W S) W).testBit i = v.testBit i := by
      have hsame := (hall ρ).symm.trans (htruth ρ)
      rcases em (op = .eq) with heq | hne
      · simp only [heq,true_iff] at hsame
        exact hsame.mpr hbits
      · simp only [hne,false_iff] at hsame
        exact (not_iff_not.mp hsame).mpr hbits
    have hbit := hreal j hj hjm
    rw [hs.bit_above (by omega) hj,hρ _ (by omega),decide_eq_true (by omega),hzero j hj hjm (by omega)] at hbit
    simp at hbit
  · rw [htruth ρ]
    apply iff_congr Iff.rfl
    constructor
    · intro hall i hi hm
      rcases lt_or_ge i s.avail with hlt | hge
      · rw [hs.bit_below hlt hi]
        exact hall i hi hm hlt
      · rw [hs.bit_above hge hi,hzero i hi hm hge,Bool.and_eq_false_iff]
        rcases hreads s rs hown hrs with ⟨j,hj,ha,hmj,hv⟩ | hnone | hkept | ⟨hms,hvs⟩
        · rw [hzero j hj hmj ha] at hv
          exact absurd hv (by decide)
        · exact absurd (hnone k hk hkm) (by omega)
        · exact Or.inl (decide_eq_false (by have := hkept i hi hm; omega))
        · exact Or.inr ((hall _ (by omega) hms (by omega)).trans hvs)
    · intro hall i hi hm hlt
      rw [← hs.bit_below hlt hi ρ S]
      exact hall i hi hm

theorem testBit_notMask {i : ℕ} (hi : i < W) : ((2^W-1) ^^^ m).testBit i = !m.testBit i := by
  rw [Nat.testBit_xor,Nat.testBit_two_pow_sub_one,decide_eq_true hi,Bool.true_xor]

/-- `x & m == v`, for `v` within `m`, is equality on the bits of `m`. -/
theorem and_eq_iff {P : ℕ} (hm : m < 2^W) (hv : v < 2^W) (hin : v &&& ((2^W-1) ^^^ m) = 0) :
    P &&& m = v ↔ ∀ i, i < W → m.testBit i = true → P.testBit i = v.testBit i := by
  rw [eq_iff_testBit (Nat.and_lt_two_pow _ hm) hv]
  apply forall₂_congr
  intro i hi
  have hbit := congrArg (fun n => n.testBit i) hin
  simp only [Nat.testBit_and,testBit_notMask hi,Nat.zero_testBit] at hbit
  rw [Nat.testBit_and]
  cases hmi : m.testBit i <;> simp_all

/-- `x | m == v`, for `v` with the bits of `m` set, is equality on the other bits. -/
theorem or_eq_iff {P : ℕ} (hP : P < 2^W) (hm : m < 2^W) (hv : v < 2^W) (hin : v &&& m = m) :
    P ||| m = v ↔ ∀ i, i < W → ((2^W-1) ^^^ m).testBit i = true → P.testBit i = v.testBit i := by
  rw [eq_iff_testBit (Nat.or_lt_two_pow hP hm) hv]
  apply forall₂_congr
  intro i hi
  have hbit := congrArg (fun n => n.testBit i) hin
  simp only [Nat.testBit_and] at hbit
  rw [Nat.testBit_or,testBit_notMask hi]
  cases hmi : m.testBit i <;> simp_all

def Rewrites (Q : ℕ → ℕ → Prop) (Γ : ℕ → Ty) (op : BinOp) (a b e : Expr) : Prop :=
  (∀ ρ, truth Γ ρ e = rel Γ ρ op a b) ∧ Sized Q Γ e

structure Operand (Q : ℕ → ℕ → Prop) (Γ : ℕ → Ty) (a : Expr) : Prop where
  sized : Sized Q Γ a
  shifts : Explicit Γ a

theorem mrwMasked_or {p : Expr × ℕ} (h : mrwMasked a W false = some p) : mrwMasked a W true = none := by
  cases a with
  | binary op l r =>
    simp only [mrwMasked] at h
    rw [ite_none_left_eq_some] at h
    obtain rfl := not_not.mp h.1
    simp [mrwMasked]
  | _ => rfl

theorem mrwEqConst_spec (ht : Typed Γ typeOf) (hQ : Narrow Q) (hop : op = .eq ∨ op = .neq)
    {c : Expr} (hW : max (ty Γ a).w (ty Γ c).w = W) (ha : Operand Q Γ a)
    (h : mrwEqConst typeOf op a c W = some (some e)) :
    Sized Q Γ e ∧ ((∀ ρ, truth Γ ρ e = rel Γ ρ op a c) ↔ EqConstReads Γ a c W) := by
  simp only [mrwEqConst] at h
  cases hc : mrwConst c W with
  | none =>
    rw [hc] at h
    cases hand : mrwMasked a W false <;> cases hor : mrwMasked a W true <;> simp [hand,hor] at h
  | some v =>
    obtain ⟨-,hv,hcv⟩ := mrwConst_spec hc
    cases hand : mrwMasked a W false with
    | some p =>
      obtain ⟨x,m⟩ := p
      simp only [hand,hc] at h
      obtain ⟨hin,h⟩ := ite_null_eq_some h
      have hm := mrwMasked_spec ha.sized ha.shifts hand
      obtain ⟨hsized,hruns⟩ := mrwEqRuns_spec ht hQ hop hm.sized hm.shifts ((ty Γ a).s && (ty Γ c).s) h
      refine ⟨hsized,(forall_congr' fun ρ => ?_).trans (hruns.trans ⟨fun hr => ⟨?_,?_⟩,fun hr => ?_⟩)⟩
      · rw [Bool.eq_iff_iff,rel_iff_pat hop hW rfl,hm.band,hcv,and_eq_iff hm.lt hv (not_not.mp hin)]
      · intro x' m' v' h1 h2 _
        obtain ⟨rfl,rfl⟩ := Prod.mk.inj (Option.some.inj (hand.symm.trans h1))
        obtain rfl := Option.some.inj (hc.symm.trans h2)
        exact hr
      · intro x' m' v' h1
        rw [mrwMasked_or hand] at h1
        exact absurd h1.symm (Option.some_ne_none _)
      · exact hr.and x m v hand hc (not_not.mp hin)
    | none =>
      cases hor : mrwMasked a W true with
      | none => simp [hand,hor] at h
      | some p =>
        obtain ⟨x,m⟩ := p
        simp only [hand,hor,hc] at h
        obtain ⟨hin,h⟩ := ite_null_eq_some h
        have hm := mrwMasked_spec ha.sized ha.shifts hor
        obtain ⟨hsized,hruns⟩ := mrwEqRuns_spec ht hQ hop hm.sized hm.shifts ((ty Γ a).s && (ty Γ c).s) h
        refine ⟨hsized,(forall_congr' fun ρ => ?_).trans (hruns.trans ⟨fun hr => ⟨?_,?_⟩,fun hr => ?_⟩)⟩
        · rw [Bool.eq_iff_iff,rel_iff_pat hop hW rfl,hm.bor,hcv,
            or_eq_iff (pat_lt _ _) hm.lt hv (not_not.mp hin)]
        · intro x' m' v' h1
          rw [hand] at h1
          exact absurd h1.symm (Option.some_ne_none _)
        · intro x' m' v' h1 h2 _
          obtain ⟨rfl,rfl⟩ := Prod.mk.inj (Option.some.inj (hor.symm.trans h1))
          obtain rfl := Option.some.inj (hc.symm.trans h2)
          exact hr
        · exact hr.or x m v hor hc (not_not.mp hin)

theorem truth_fields {y : Expr} (hop : op = .eq ∨ op = .neq) {sx sy : MrwSrc}
    (hx : SrcSpec Γ x W sx) (hy : SrcSpec Γ y W sy) (hl : l ≤ h) (hhx : h < sx.avail)
    (hhy : h < sy.avail) : truth Γ ρ (.binary op (mrwField sx h l) (mrwField sy h l)) = true ↔
      (op = .eq ↔ ∀ i, l ≤ i → i ≤ h → srcBit ρ sx i = srcBit ρ sy i) := by
  have hfx := hx.fits
  have hfy := hy.fits
  have hcmp : op.isCmp = true := by rcases hop with rfl | rfl <;> rfl
  have htx := ty_field hx.width hl (show h+sx.off < sx.vw by omega)
  have hty := ty_field hy.width hl (show h+sy.off < sy.vw by omega)
  rw [truth_cmp hcmp,rel_iff_pat hop (by rw [htx,hty,max_self]) rfl,pat_field hx.width hl (by omega),
    pat_field hy.width hl (by omega),eq_iff_testBit (fieldVal_lt _ _ _) (fieldVal_lt _ _ _)]
  apply iff_congr Iff.rfl
  constructor
  · intro hall i h1 h2
    have := hall (i-l) (by omega)
    rw [fieldVal_testBit sx (by omega),fieldVal_testBit sy (by omega),Nat.sub_add_cancel h1] at this
    rw [srcBit,srcBit,this,decide_eq_true (show i < sx.avail by omega),
      decide_eq_true (show i < sy.avail by omega)]
  · intro hall j hj
    have := hall (j+l) (by omega) (by omega)
    rw [srcBit,srcBit,decide_eq_true (show j+l < sx.avail by omega),
      decide_eq_true (show j+l < sy.avail by omega)] at this
    rw [fieldVal_testBit sx hj,fieldVal_testBit sy hj]
    exact this

theorem and_right_eq_iff {P R : ℕ} (hm : m < 2^W) :
    P &&& m = R &&& m ↔ ∀ i, i < W → m.testBit i = true → P.testBit i = R.testBit i := by
  rw [eq_iff_testBit (Nat.and_lt_two_pow _ hm) (Nat.and_lt_two_pow _ hm)]
  apply forall₂_congr
  intro i _
  rw [Nat.testBit_and,Nat.testBit_and]
  cases m.testBit i <;> simp

theorem mrwEqMasked_spec (ht : Typed Γ typeOf) (hQ : Narrow Q) (hop : op = .eq ∨ op = .neq)
    {b : Expr} (hW : max (ty Γ a).w (ty Γ b).w = W) (ha : Operand Q Γ a) (hb : Operand Q Γ b)
    (h : mrwEqMasked typeOf op a b W = some (some e)) : Rewrites Q Γ op a b e := by
  simp only [mrwEqMasked] at h
  cases hma : mrwMasked a W false with
  | none => simp [hma] at h
  | some p =>
    cases hmb : mrwMasked b W false with
    | none => simp [hma,hmb] at h
    | some q =>
      obtain ⟨x,m⟩ := p
      obtain ⟨y,m'⟩ := q
      simp only [hma,hmb] at h
      obtain ⟨hmm,h1⟩ := ite_null_eq_some h
      obtain rfl := not_not.mp hmm
      have hx := mrwMasked_spec ha.sized ha.shifts hma
      have hy := mrwMasked_spec hb.sized hb.shifts hmb
      obtain ⟨ox,hsx,h2⟩ := bind_eq_some_iff.mp h1
      cases ox with
      | none => simp at h2
      | some sx =>
        obtain ⟨oy,hsy,h3⟩ := map_eq_some_iff.mp h2
        cases oy with
        | none => simp at h3
        | some sy =>
          cases hrs : mrwRuns m W with
          | none => simp [hrs] at h3
          | some rs =>
            simp only [hrs,ite_none_left_eq_some] at h3
            obtain ⟨hav,hchain⟩ := h3
            have hx1 := (mrwSource_spec ht hx.sized hx.shifts hsx).1
            have hy1 := (mrwSource_spec ht hy.sized hy.shifts hsy).1
            have hfx := hx1.fits
            have hfy := hy1.fits
            have hset : ∀ r ∈ rs, r.1 ≤ r.2 ∧ r.2 < W ∧ ∀ k, r.1 ≤ k → k ≤ r.2 → m.testBit k = true :=
              fun r hr => (runs_set (mrwRuns_eq hrs ▸ hr)).2
            have hin : ∀ r ∈ rs, r.2 < sx.avail ∧ r.2 < sy.avail := fun r hr => by
              by_contra hno
              exact hav (List.any_eq_true.mpr ⟨r,hr,by simp; omega⟩)
            refine ⟨fun ρ => ?_,sized_chain (fun t htm => ?_) hchain⟩
            · have hparts : Forall₂ (fun r t => truth Γ ρ t = true ↔
                  (op = .eq ↔ ∀ i, r.1 ≤ i → i ≤ r.2 → srcBit ρ sx i = srcBit ρ sy i)) rs
                  (rs.map fun r => .binary op (mrwField sx r.2 r.1) (mrwField sy r.2 r.1)) := by
                rw [List.forall₂_map_right_iff,List.forall₂_same]
                exact fun r hr => truth_fields hop hx1 hy1 (hset r hr).1 (hin r hr).1 (hin r hr).2
              rw [Bool.eq_iff_iff,truth_chain hop hparts hchain,rel_iff_pat hop hW rfl,hx.band,hy.band,
                and_right_eq_iff hx.lt]
              apply iff_congr Iff.rfl
              constructor
              · intro hall i hi hm
                obtain ⟨r,hr,h1,h2⟩ := (testBit_iff_runs hi).mp hm
                rw [← mrwRuns_eq hrs] at hr
                obtain ⟨hlx,hly⟩ := hin r hr
                rw [hx1.bit_below (by omega) hi,hy1.bit_below (by omega) hi]
                exact hall r hr i h1 h2
              · intro hall r hr i h1 h2
                obtain ⟨-,hlt,hbits⟩ := hset r hr
                obtain ⟨hlx,hly⟩ := hin r hr
                have := hall i (by omega) (hbits i h1 h2)
                rw [hx1.bit_below (by omega) (by omega),hy1.bit_below (by omega) (by omega)] at this
                exact this
            · obtain ⟨r,hr,rfl⟩ := List.mem_map.mp htm
              exact ⟨sized_field hQ hx1.width_le (hset r hr).1 (by have := (hin r hr).1; omega),
                sized_field hQ hy1.width_le (hset r hr).1 (by have := (hin r hr).2; omega)⟩

theorem and_run {P : ℕ} (hm : m < 2^W) (hrun : mrwRuns m W = some [(l,h)]) :
    P &&& m = (P >>> l % 2^(h+1-l))*2^l := by
  have hset := runs_set (mrwRuns_eq hrun ▸ List.mem_singleton_self (l,h))
  apply Nat.eq_of_testBit_eq
  intro i
  rw [Nat.testBit_and,Nat.testBit_mul_two_pow,Nat.testBit_mod_two_pow,Nat.testBit_shiftRight]
  by_cases hi : i < W
  · have hrun' := testBit_iff_runs (m := m) hi
    rw [← mrwRuns_eq hrun] at hrun'
    simp only [List.mem_singleton,exists_eq_left] at hrun'
    by_cases hin : l ≤ i ∧ i ≤ h
    · rw [hrun'.mpr hin,Bool.and_true,decide_eq_true hin.1,decide_eq_true (by omega),
        Nat.add_sub_cancel' hin.1]
      simp
    · rw [Bool.eq_false_iff.mpr fun hb => hin (hrun'.mp hb),Bool.and_false,eq_comm]
      by_cases hl : l ≤ i
      · rw [decide_eq_false (show ¬i-l < h+1-l by omega)]
        simp
      · simp [hl]
  · have hp := Nat.pow_le_pow_right (show 0 < 2 by decide) (not_lt.mp hi)
    rw [Nat.testBit_lt_two_pow (hm.trans_le hp),Bool.and_false,
      decide_eq_false (show ¬i-l < h+1-l by omega)]
    simp

theorem SrcSpec.field (h : SrcSpec Γ x W s) {hi : ℕ} (hhi : hi < s.avail) (hW : hi < W) (ρ : Env)
    (S : Bool) :
    pat (eval Γ ρ x W S) W >>> l % 2^(hi+1-l) = fieldVal ρ s hi l := by
  rw [eq_iff_testBit (Nat.mod_lt _ (Nat.two_pow_pos _)) (fieldVal_lt s hi l)]
  intro i hin
  rw [fieldVal_testBit s hin,Nat.testBit_mod_two_pow,Nat.testBit_shiftRight,h.bit_below (by omega) (by omega),
    srcBit,decide_eq_true hin,decide_eq_true (by omega),Nat.add_comm l i]
  rfl

theorem mul_compare {F p q r : ℕ} (hr : r < p) :
    (F*p < q*p+r ↔ F < q+if r ≠ 0 then 1 else 0) ∧ (F*p ≤ q*p+r ↔ F ≤ q) := by
  rcases lt_trichotomy F q with h | rfl | h
  · have := Nat.mul_le_mul_right p (show F+1 ≤ q from h)
    rw [Nat.succ_mul] at this
    split_ifs <;> omega
  · split_ifs <;> omega
  · have := Nat.mul_le_mul_right p (show q+1 ≤ F from h)
    rw [Nat.succ_mul] at this
    split_ifs <;> omega

theorem mrwBound_spec {F k n b : ℕ}
    (h : mrwBound op (k >>> l) (k >>> l+if k % 2^l ≠ 0 then 1 else 0) (2^n-1) = some b) :
    b < 2^n ∧ op.isCmp = true ∧ cmpVal op ((F*2^l : ℕ) : ℤ) (k : ℕ) = cmpVal op (F : ℤ) (b : ℤ) := by
  have hn : 0 < 2^n := Nat.two_pow_pos n
  have hk : k = k >>> l*2^l+k % 2^l := by
    rw [Nat.shiftRight_eq_div_pow,Nat.mul_comm]
    exact (Nat.div_add_mod k (2^l)).symm
  obtain ⟨hlt,hle⟩ := mul_compare (F := F) (q := k >>> l) (show k % 2^l < 2^l from Nat.mod_lt _ (Nat.two_pow_pos l))
  rw [← hk] at hlt hle
  have hcast : ∀ {x y u v : ℕ}, (x < y ↔ u < v) → ((x : ℤ) < y ↔ (u : ℤ) < v) := fun hxy => by exact_mod_cast hxy
  have hcast' : ∀ {x y u v : ℕ}, (x ≤ y ↔ u ≤ v) → ((x : ℤ) ≤ y ↔ (u : ℤ) ≤ v) := fun hxy => by exact_mod_cast hxy
  cases op with
  | lt =>
    simp only [mrwBound,ite_none_left_eq_some,Option.some.injEq] at h
    obtain ⟨hno,rfl⟩ := h
    exact ⟨by omega,rfl,decide_eq_decide.mpr (hcast hlt)⟩
  | gte =>
    simp only [mrwBound,ite_none_left_eq_some,Option.some.injEq] at h
    obtain ⟨hno,rfl⟩ := h
    exact ⟨by omega,rfl,decide_eq_decide.mpr (hcast' (by omega))⟩
  | lte =>
    simp only [mrwBound,ite_none_left_eq_some,Option.some.injEq] at h
    obtain ⟨hno,rfl⟩ := h
    exact ⟨by omega,rfl,decide_eq_decide.mpr (hcast' hle)⟩
  | gt =>
    simp only [mrwBound,ite_none_left_eq_some,Option.some.injEq] at h
    obtain ⟨hno,rfl⟩ := h
    exact ⟨by omega,rfl,decide_eq_decide.mpr (hcast (by omega))⟩
  | _ => simp [mrwBound] at h

theorem eval_eq_pat (hW : 0 < W) : eval Γ ρ e W false = pat (eval Γ ρ e W false) W :=
  (pat_of_inTy (eval_inTy hW (by simp)) (le_refl _)).symm

theorem mrwOrder_spec (ht : Typed Γ typeOf) (hQ : Narrow Q) {c : Expr}
    (hW : max (ty Γ a).w (ty Γ c).w = W) (ha : Operand Q Γ a)
    (h : mrwOrder typeOf op a c W = some (some e)) : Rewrites Q Γ op a c e := by
  have hpos : 0 < W := by
    rw [← hW]
    exact lt_max_of_lt_left (ty_w_pos Γ a)
  simp only [mrwOrder] at h
  cases hma : mrwMasked a W false with
  | none => simp [hma] at h
  | some p =>
    cases hc : mrwConst c W with
    | none => simp [hma,hc] at h
    | some k =>
      obtain ⟨x,m⟩ := p
      simp only [hma,hc] at h
      have hx := mrwMasked_spec ha.sized ha.shifts hma
      obtain ⟨-,-,hcv⟩ := mrwConst_spec hc
      obtain ⟨ta,hta,h⟩ := bind_eq_some_iff.mp h
      obtain ⟨tc,htc,h⟩ := bind_eq_some_iff.mp h
      obtain rfl := ht _ _ hta
      obtain rfl := ht _ _ htc
      obtain ⟨hsigned,h⟩ := ite_null_eq_some h
      split at h
      · next l hi hrun =>
        obtain ⟨o,hsrc,h1⟩ := bind_eq_some_iff.mp h
        cases o with
        | none => simp at h1
        | some s =>
          have hs := (mrwSource_spec ht hx.sized hx.shifts hsrc).1
          obtain ⟨hav,h2⟩ := ite_null_eq_some h1
          cases hb : mrwBound op (k >>> l) (k >>> l+if k % 2^l ≠ 0 then 1 else 0) (2^(hi+1-l)-1) with
          | none =>
            rw [hb] at h2
            simp at h2
          | some b =>
            rw [hb] at h2
            obtain ⟨kc,hkc,h3⟩ := map_eq_some_iff.mp h2
            obtain rfl := Option.some.inj h3
            obtain rfl := mkConst_eq hkc
            have hfits := hs.fits
            have hvw := hs.width_le
            have hrange := runs_set (mrwRuns_eq hrun ▸ List.mem_singleton_self (l,hi))
            have hle : l ≤ hi := hrange.2.1
            have hwf : hi+s.off < s.vw := by omega
            refine ⟨fun ρ => ?_,sized_field hQ hs.width_le hle hwf,sized_int64 _ _ _⟩
            obtain ⟨hblt,hop,hcmp⟩ := mrwBound_spec (F := fieldVal ρ s hi l) hb
            have hS : ((ty Γ a).s && (ty Γ c).s) = false := by
              simp only [not_or,Bool.not_eq_true] at hsigned
              rw [hsigned.1,Bool.false_and]
            have htf := ty_field hs.width hle hwf
            have htk : ty Γ (.const (int64 b) (hi+1-l) false) = ⟨hi+1-l,false⟩ := if_pos (by omega)
            rw [truth_cmp hop,rel,rel]
            simp only [Ty.join_w,Ty.join_s,hW,hS,htf,htk,max_self,Bool.and_false]
            rw [eval_eq_pat (e := a) hpos,eval_eq_pat (e := c) hpos,hx.band,hcv,and_run hx.lt hrun,
              hs.field (by omega) hrange.2.2.1,hcmp,
              eval_eq_pat (e := mrwField s hi l) (by omega),eval_eq_pat (e := .const _ _ _) (by omega),
              pat_field hs.width hle hwf,pat_fieldConst (by omega) (by omega) hblt]
      · simp at h

end Sv
end DvSolve
