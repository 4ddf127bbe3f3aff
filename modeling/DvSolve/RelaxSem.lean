import DvSolve.Relax
import DvSolve.SvSem

/-! The relaxed constant: satisfiable with it, and with none between it and the original. -/
namespace DvSolve
namespace Contra

open Sv TwosComp

variable {c' c₀ inf mid r x₁ : ℤ}

theorem half_between {fv : ℤ} (h : 1 < |fv - inf|)
    (hm : mid = inf + (fv - inf).tdiv 2) :
    (inf < mid ∧ mid < fv ∨ fv < mid ∧ mid < inf) ∧ 2 * |mid - inf| ≤ |fv - inf| ∧
      2 * |fv - mid| ≤ |fv - inf| + 1 := by
  rcases le_total inf fv with hle | hle
  · rw [Int.tdiv_eq_ediv_of_nonneg (by omega)] at hm
    rw [abs_of_nonneg (by omega)] at h ⊢
    rw [abs_of_nonneg (by omega),abs_of_nonneg (by omega)]
    omega
  · rw [show fv - inf = -(inf - fv) by ring,Int.neg_tdiv,Int.tdiv_eq_ediv_of_nonneg (by omega)] at hm
    rw [abs_of_nonpos (by omega)] at h ⊢
    rw [abs_of_nonpos (by omega),abs_of_nonpos (by omega)]
    omega

theorem bisect_succ (feas : ℤ → Bool) (n : ℕ) {fv : ℤ} (hlt : |fv - inf| < 2^63) :
    bisect feas (n + 1) inf fv = if |fv - inf| ≤ 1 then some fv
      else if feas (inf + (fv - inf).tdiv 2) then bisect feas n inf (inf + (fv - inf).tdiv 2)
      else bisect feas n (inf + (fv - inf).tdiv 2) fv := by
  have habs : (if inf < fv then fv - inf else inf - fv) = |fv - inf| := by
    split_ifs with h
    · rw [abs_of_pos (by omega)]
    · rw [abs_of_nonpos (by omega)]
      ring
  have hi : i64 |fv - inf| = some |fv - inf| :=
    if_pos ⟨by have := abs_nonneg (fv - inf); omega,hlt⟩
  simp only [bisect,habs,hi,Option.bind_some]

/-- A constant of the range that is satisfiable, next to one that is not or to the original one. -/
structure Edge (N : ℤ → Prop) (c₀ fv c q : ℤ) : Prop where
  sat : N c
  last : q = c₀ ∨ ¬N q
  near : c - q ≤ 1 ∧ q - c ≤ 1
  order : c₀ ≤ q ∧ q ≤ c ∧ c ≤ fv ∨ fv ≤ c ∧ c ≤ q ∧ q ≤ c₀
  apart : c₀ = fv ∨ q ≠ c

variable {feas : ℤ → Bool}

theorem bisect_spec (n : ℕ) (inf fv : ℤ) (hfv : feas fv = true)
    (hgap : |fv - inf| ≤ 2^n) (hlt : |fv - inf| < 2^63) :
    ∃ r q, bisect feas n inf fv = some r ∧ Edge (fun c => feas c = true) inf fv r q := by
  have hend : ∀ inf fv : ℤ, feas fv = true → |fv - inf| ≤ 1 →
      Edge (fun c => feas c = true) inf fv fv inf := fun inf fv hfv h => by
    rw [abs_le] at h
    exact ⟨hfv,Or.inl rfl,by omega,by omega,em _⟩
  induction n generalizing inf fv with
  | zero => exact ⟨fv,inf,rfl,hend inf fv hfv (by simpa using hgap)⟩
  | succ n ih =>
    rw [bisect_succ feas n hlt]
    split_ifs with h₁ h₂
    · exact ⟨fv,inf,rfl,hend inf fv hfv h₁⟩
    all_goals
      obtain ⟨mid,hm⟩ : ∃ mid, mid = inf + (fv - inf).tdiv 2 := ⟨_,rfl⟩
      obtain ⟨hb,hl,hr⟩ := half_between (not_le.mp h₁) hm
      rw [← hm] at h₂ ⊢
    · have hg : |mid - inf| ≤ 2^n := by omega
      obtain ⟨r,q,heq,h⟩ := ih _ _ h₂ hg (by omega)
      obtain ⟨hfr,hq,hrq,hpos,hne⟩ := h
      exact ⟨r,q,heq,hfr,hq,hrq,by omega,Or.inr (hne.resolve_left (by omega))⟩
    · have hg : |fv - mid| ≤ 2^n := by omega
      obtain ⟨r,q,heq,h⟩ := ih _ _ hfv hg (by omega)
      obtain ⟨hfr,hq,hrq,hpos,hne⟩ := h
      refine ⟨r,q,heq,hfr,?_,hrq,by omega,Or.inr (hne.resolve_left (by omega))⟩
      rcases hq with rfl | hq
      · exact Or.inr h₂
      · exact Or.inr hq

/-- `c'` is as far as `c` or further on the way from the original constant to the end. -/
def Onward (c₀ fv c c' : ℤ) : Prop := c₀ < c ∧ c ≤ c' ∧ c' ≤ fv ∨ fv ≤ c' ∧ c' ≤ c ∧ c < c₀

variable {N : ℤ → Prop}

theorem Edge.eq {fv c q q' : ℤ} (h : Edge N c₀ fv c q)
    (h' : Edge N c₀ fv c' q') (hmono : ∀ c c', Onward c₀ fv c c' → N c → N c') : c = c' := by
  -- of two edges the further one would be next to a constant that is satisfiable
  have hfar : ∀ c q c' q', Edge N c₀ fv c q → Edge N c₀ fv c' q' →
      ¬(c₀ < c ∧ c < c' ∨ c' < c ∧ c < c₀) := by
    rintro c q c' q' ⟨hs,-,hn,ho,ha⟩ ⟨-,hl',hn',ho',ha'⟩ hlt
    have hon : Onward c₀ fv c q' := by
      unfold Onward
      omega
    rcases hl' with rfl | hl'
    · unfold Onward at hon
      omega
    · exact hl' (hmono c q' hon hs)
  have h₁ := hfar _ _ _ _ h h'
  have h₂ := hfar _ _ _ _ h' h
  obtain ⟨-,-,hn,ho,ha⟩ := h
  obtain ⟨-,-,hn',ho',ha'⟩ := h'
  omega

variable {W id n : ℕ}

theorem bisect_gap {fv : ℤ}
    (h : bisect feas (n + 1) inf fv = some r) : |fv - inf| < 2^63 := by
  by_contra hge
  have hgap : i64 (if inf < fv then fv - inf else inf - fv) = none := by
    rw [not_lt,le_abs] at hge
    unfold i64
    split_ifs <;> first | rfl | omega
  rw [bisect,hgap] at h
  cases h

def compares (T : Ty) (op : BinOp) (x c : ℤ) : Bool :=
  let t := T.join (constType c 0 false)
  cmpVal op (wrap x t.w t.s) (wrap c t.w t.s)

def litWidth (c : ℤ) : ℕ := if -2^31 ≤ c ∧ c < 2^32 then 32 else 64

theorem constType_lit (c : ℤ) : constType c 0 false = ⟨litWidth c,decide (c < 2^31)⟩ := by
  unfold constType litWidth
  rw [if_neg (by decide)]
  by_cases h₁ : -2^31 ≤ c ∧ c < 2^31
  · rw [if_pos h₁,if_pos ⟨h₁.1,by omega⟩,decide_eq_true h₁.2]
  · rw [if_neg h₁]
    by_cases h₃ : 0 ≤ c ∧ c < 2^32
    · rw [if_pos ⟨rfl,h₃⟩,if_pos ⟨by omega,h₃.2⟩,decide_eq_false (by omega)]
    · rw [if_neg fun h => h₃ h.2,if_neg (by omega),Bool.or_false]
      congr 2
      exact propext ⟨fun h => by omega,fun h => by omega⟩

theorem lit_inTy {c : ℤ} (h : -2^63 ≤ c) (h' : c < 2^63) :
    InTy c (litWidth c) (decide (c < 2^31)) := by
  unfold InTy litWidth
  by_cases hs : c < 2^31
  · simp only [hs,decide_true,if_true]
    split_ifs <;> constructor <;> omega
  · simp only [hs,decide_false,Bool.false_eq_true,if_false]
    split_ifs <;> constructor <;> omega

theorem constValue_lit {c : ℤ} (h : -2^63 ≤ c) (h' : c < 2^63) :
    constValue c (constType c 0 false) = c := by
  rw [constType_lit,constValue]
  split_ifs with hs
  · exact wrap_of_inTy (lit_inTy h h')
  · have h₀ : ¬c < 2^31 := by simpa using hs
    rw [Int.emod_eq_of_lt (by omega) (by omega)]
    exact wrap_of_inTy (lit_inTy h h')

theorem cmpVal_flip (op : BinOp) (hop : op.isCmp = true) (a b : ℤ) :
    cmpVal op a b = cmpVal (flipOp op) b a := by
  cases op <;> simp [BinOp.isCmp] at hop <;> simp [flipOp,cmpVal,eq_comm]

section
variable {Γ : ℕ → Ty} {ρ : Env} {op : BinOp} {v : ℕ} {c : ℤ}

def varValue (Γ : ℕ → Ty) (ρ : Env) (v : ℕ) : ℤ := wrap (ρ.value v) (Γ v).fix.w (Γ v).fix.s

theorem truth_cmp (hop : op.isCmp = true) (l r : Expr) : truth Γ ρ (.binary op l r) =
    let t := (ty Γ l).join (ty Γ r)
    cmpVal op (eval Γ ρ l t.w t.s) (eval Γ ρ r t.w t.s) := by
  rw [truth,eval_cmp hop]
  simp only [ofBool_ne_zero,Bool.decide_eq_true]

theorem truth_varConst (hop : op.isCmp = true) (h : -2^63 ≤ c) (h' : c < 2^63) :
    truth Γ ρ (.binary op (.var v) (.const c 0 false)) = compares (Γ v).fix op (varValue Γ ρ v) c := by
  rw [truth_cmp hop]
  simp only [eval,ty,constValue_lit h h']
  rfl

theorem truth_constVar (hop : op.isCmp = true) (h : -2^63 ≤ c) (h' : c < 2^63) :
    truth Γ ρ (.binary op (.const c 0 false) (.var v)) =
      compares (Γ v).fix (flipOp op) (varValue Γ ρ v) c := by
  have hjoin : ∀ a b : Ty, a.join b = b.join a := fun a b => by
    rw [Ty.join,Ty.join,max_comm,Bool.and_comm]
  rw [truth_cmp hop,hjoin]
  simp only [eval,ty,constValue_lit h h']
  rw [cmpVal_flip op hop]
  rfl

end

section
variable {T : Ty} {op : BinOp} {x c : ℤ}

theorem compares_signed (hT : T.s = true) (hc : c < 2^31) (hc' : -2^63 ≤ c)
    (hx : InTy x T.w true) : compares T op x c = cmpVal op x c := by
  have hlit : InTy c (litWidth c) true := by
    have := lit_inTy hc' (by omega)
    rwa [decide_eq_true hc] at this
  rw [compares,constType_lit]
  simp only [Ty.join,hT,hc,decide_true,Bool.and_self]
  rw [wrap_wider hx (le_max_left _ _),wrap_wider hlit (le_max_right _ _)]

theorem compares_unsigned (h : ¬(T.s = true ∧ c < 2^31)) : compares T op x c =
    cmpVal op (x % 2^(max T.w (litWidth c))) (c % 2^(max T.w (litWidth c))) := by
  have hs : (T.s && decide (c < 2^31)) = false := by
    by_contra hn
    simp only [Bool.not_eq_false,Bool.and_eq_true,decide_eq_true_eq] at hn
    exact h hn
  rw [compares,constType_lit]
  simp only [Ty.join,hs]
  simp [wrap]

theorem litWidth_le_max (w : ℕ) (c : ℤ) :
    (4294967296 : ℤ) ≤ 2^(max w (litWidth c)) ∧
      (¬(-2^31 ≤ c ∧ c < 2^32) → (18446744073709551616 : ℤ) ≤ 2^(max w (litWidth c))) := by
  have hle : ∀ n, n ≤ max w (litWidth c) → (2^n : ℤ) ≤ 2^(max w (litWidth c)) := fun n h =>
    pow_le_pow_right₀ (by norm_num) h
  refine ⟨hle 32 (le_max_of_le_right ?_),fun h => hle 64 (le_max_of_le_right ?_)⟩
  · unfold litWidth
    split_ifs <;> decide
  · rw [litWidth,if_neg h]

theorem InTy.le_pow {w : ℕ} {s : Bool} (hx : InTy x w s) (hw : w ≤ W) :
    -2^W ≤ 2 * x ∧ x < 2^W ∧ (s = false → 0 ≤ x) := by
  have hp : (2^w : ℤ) ≤ 2^W := pow_le_pow_right₀ (by norm_num) hw
  unfold InTy at hx
  cases s <;> simp at hx ⊢ <;> omega

theorem compares_nonneg (hx : InTy x T.w T.s) (hx₀ : 0 ≤ x) (hc₀ : 0 ≤ c) (hc : c < 2^63) :
    compares T op x c = cmpVal op x c := by
  by_cases h : T.s = true ∧ c < 2^31
  · exact compares_signed h.1 h.2 (by omega) (h.1 ▸ hx)
  · obtain ⟨h₁,h₂⟩ := litWidth_le_max T.w c
    have hx' := (InTy.le_pow hx (le_max_left T.w (litWidth c))).2.1
    have hc' : c < 2^(max T.w (litWidth c)) := by
      by_cases hl : -2^31 ≤ c ∧ c < 2^32
      · omega
      · have := h₂ hl
        omega
    rw [compares_unsigned h,Int.emod_eq_of_lt hx₀ hx',Int.emod_eq_of_lt hc₀ hc']

theorem emod_neg (h : x < 0) (h' : -2^W ≤ x) : x % 2^W = x + 2^W := by
  rw [← Int.add_emod_right,Int.emod_eq_of_lt (by omega) (by omega)]

theorem compares_above (op : BinOp) (hx : InTy x T.w T.s) (hx₀ : x < 0) (hc₀ : 2^31 ≤ c)
    (hc : c < 2^63) (hw : 32 < T.w ∨ 2^32 ≤ c) :
    ∃ y, c < y ∧ compares T op x c = cmpVal op y c := by
  obtain ⟨h₁,h₂⟩ := litWidth_le_max T.w c
  have hx' := (InTy.le_pow hx (le_max_left T.w (litWidth c))).1
  have hbig : 2 * c < 2^(max T.w (litWidth c)) := by
    by_cases hl : c < 2^32
    · have h33 : (2^33 : ℤ) ≤ 2^(max T.w (litWidth c)) :=
        pow_le_pow_right₀ (by norm_num) (le_max_of_le_left (hw.resolve_right (by omega)))
      omega
    · have := h₂ (by omega)
      omega
  refine ⟨x + 2^(max T.w (litWidth c)),by omega,?_⟩
  rw [compares_unsigned (by omega),emod_neg hx₀ (by omega),Int.emod_eq_of_lt (by omega) (by omega)]

theorem compares_wrapped (hT : T.s = false) (hx : InTy x T.w T.s) (hw : 64 ≤ T.w) (hc₀ : c < 0)
    (hc : -2^63 ≤ c) : compares T op x c = cmpVal op x (c + 2^T.w) := by
  have hmax : max T.w (litWidth c) = T.w := max_eq_left (le_trans (by
    unfold litWidth
    split_ifs <;> decide) hw)
  have hp : (2^64 : ℤ) ≤ 2^T.w := pow_le_pow_right₀ (by norm_num) hw
  obtain ⟨-,h₁,h₂⟩ := InTy.le_pow hx le_rfl
  rw [compares_unsigned (by simp [hT]),hmax,emod_neg hc₀ (by omega),Int.emod_eq_of_lt (h₂ hT) h₁]

theorem compares_far (op : BinOp) (hT : T.s = false) (hx : InTy x T.w T.s) (hc₀ : c < 0) (hc : -2^63 ≤ c) :
    ∃ y : ℤ, 2^31 ≤ y ∧ (64 ≤ T.w → 2^64 - 2^63 ≤ y ∧ 2^64 + c ≤ y) ∧
      compares T op x c = cmpVal op x y := by
  obtain ⟨h₁,h₂⟩ := litWidth_le_max T.w c
  obtain ⟨-,h₃,h₄⟩ := InTy.le_pow hx (le_max_left T.w (litWidth c))
  have hp : 64 ≤ T.w → (2^64 : ℤ) ≤ 2^(max T.w (litWidth c)) := fun h =>
    pow_le_pow_right₀ (by norm_num) (le_max_of_le_left h)
  refine ⟨c + 2^(max T.w (litWidth c)),?_,fun h => ?_,?_⟩
  · by_cases hl : -2^31 ≤ c
    · omega
    · have := h₂ (by omega)
      omega
  · have := hp h
    omega
  · rw [compares_unsigned (by simp [hT]),emod_neg hc₀ (by omega),Int.emod_eq_of_lt (h₄ hT) h₃]

theorem cmpVal_increase {op : BinOp} (hop : op = .lte ∨ op = .lt) {x c : ℤ} (hc : c ≤ c')
    (h : cmpVal op x c = true) : cmpVal op x c' = true := by
  rcases hop with rfl | rfl <;> simp only [cmpVal,decide_eq_true_eq] at h ⊢ <;> omega

theorem cmpVal_increase_le {op : BinOp} (hop : op = .lte ∨ op = .lt) {x c : ℤ} :
    (cmpVal op x c = true → x ≤ c) ∧ (cmpVal op x c = false → c ≤ x) := by
  rcases hop with rfl | rfl <;> simp only [cmpVal,decide_eq_true_eq,decide_eq_false_iff_not] <;>
    constructor <;> intro h <;> omega

theorem cmpVal_decrease {op : BinOp} (hop : op = .gte ∨ op = .gt) {x c : ℤ} (hc : c' ≤ c)
    (h : cmpVal op x c = true) : cmpVal op x c' = true := by
  rcases hop with rfl | rfl <;> simp only [cmpVal,decide_eq_true_eq] at h ⊢ <;> omega

theorem cmpVal_decrease_le {op : BinOp} (hop : op = .gte ∨ op = .gt) {x c : ℤ} :
    (cmpVal op x c = true → c ≤ x) ∧ (cmpVal op x c = false → x ≤ c) := by
  rcases hop with rfl | rfl <;> simp only [cmpVal,decide_eq_true_eq,decide_eq_false_iff_not] <;>
    constructor <;> intro h <;> omega

/-- The end of the probe range: within 10000 of the original constant or moved towards zero, and
in the range of a variable narrower than 64 bits. -/
structure ProbeEnd (T : Ty) (c₀ fv : ℤ) : Prop where
  near : min (c₀ - 10000) 0 ≤ fv ∧ fv ≤ max (c₀ + 10000) 0
  inTy : T.w < 64 → InTy fv T.w T.s
  bounds : -2^63 ≤ fv ∧ fv < 2^63

/-- Raising the constant towards the end of the range loses no value that the original one
excludes, provided the end admits one of these. -/
theorem compares_increase {op : BinOp} (hop : op = .lte ∨ op = .lt) {fv c x : ℤ}
    (hend : ProbeEnd T c₀ fv) (h₀ : -2^63 ≤ c₀) (hc : c₀ < c) (hcc : c ≤ c') (hfv : c' ≤ fv)
    (hx : InTy x T.w T.s) (hx₀ : compares T op x c₀ = false) (hx₁ : InTy x₁ T.w T.s)
    (hx₁₀ : compares T op x₁ c₀ = false) (hx₁e : compares T op x₁ fv = true)
    (h : compares T op x c = true) : compares T op x c' = true := by
  obtain ⟨⟨-,hnear⟩,hin,-,hlt⟩ := hend
  -- once the value and both constants are not negative the types do not matter
  have hnonneg : 0 ≤ x → 0 ≤ c → compares T op x c' = true := fun hx' hc' => by
    rw [compares_nonneg hx hx' hc' (by omega)] at h
    rw [compares_nonneg hx hx' (by omega) (by omega)]
    exact cmpVal_increase hop hcc h
  cases hT : T.s with
  | true =>
    rw [hT] at hx
    by_cases hc₀ : c₀ < 2^31
    · rw [compares_signed hT hc₀ h₀ hx] at hx₀
      have hle := (cmpVal_increase_le hop).2 hx₀
      by_cases hc' : c' < 2^31
      · rw [compares_signed hT (by omega) (by omega) hx] at h
        rw [compares_signed hT hc' (by omega) hx]
        exact cmpVal_increase hop hcc h
      · exact hnonneg (by omega) (by omega)
    · rcases lt_or_ge x 0 with hneg | hx'
      · have hw : 32 < T.w := by
          by_contra hle
          have hp : (2^T.w : ℤ) ≤ 2^32 := pow_le_pow_right₀ (by norm_num) (not_lt.mp hle)
          have hfv' := hin (by omega)
          rw [hT] at hfv'
          simp only [InTy,if_true] at hfv'
          omega
        obtain ⟨y,hy,heq⟩ := compares_above op (hT.symm ▸ hx) hneg (by omega : 2^31 ≤ c)
          (by omega) (Or.inl hw)
        have := (cmpVal_increase_le hop).1 (heq ▸ h)
        omega
      · exact hnonneg hx' (by omega)
  | false =>
    have hx' := (InTy.le_pow hx le_rfl).2.2 hT
    rcases lt_or_ge c₀ 0 with hneg | hc₀
    · rcases lt_or_ge fv 0 with hfv₀ | hfv₀
      · have hw : 64 ≤ T.w := by
          by_contra hle
          have := hin (not_le.mp hle)
          rw [hT] at this
          simp only [InTy,Bool.false_eq_true,if_false] at this
          omega
        rw [compares_wrapped hT hx hw (by omega) (by omega)] at h ⊢
        exact cmpVal_increase hop (by omega) h
      · have hx₁' := (InTy.le_pow hx₁ le_rfl).2.2 hT
        rw [compares_nonneg hx₁ hx₁' hfv₀ hlt] at hx₁e
        obtain ⟨y,hy,-,heq⟩ := compares_far op hT hx₁ hneg h₀
        have h₁ := (cmpVal_increase_le hop).1 hx₁e
        have h₂ := (cmpVal_increase_le hop).2 (heq ▸ hx₁₀)
        omega
    · exact hnonneg hx' (by omega)

/-- The same downwards, except where a signed variable of at most 32 bits meets a literal that is
unsigned in 32 bits. -/
theorem compares_decrease {op : BinOp} (hop : op = .gte ∨ op = .gt) {fv c x : ℤ}
    (hend : ProbeEnd T c₀ fv) (h₀ : c₀ < 2^63)
    (hcross : ¬(T.s = true ∧ T.w ≤ 32 ∧ 2^31 < c₀ ∧ c₀ < 2^32)) (hc : c < c₀) (hcc : c' ≤ c)
    (hfv : fv ≤ c') (hx : InTy x T.w T.s) (hx₀ : compares T op x c₀ = false)
    (hx₁ : InTy x₁ T.w T.s) (hx₁₀ : compares T op x₁ c₀ = false)
    (hx₁e : compares T op x₁ fv = true) (h : compares T op x c = true) :
    compares T op x c' = true := by
  obtain ⟨⟨hnear,-⟩,hin,hlt,-⟩ := hend
  have hnonneg : 0 ≤ x → 0 ≤ c' → compares T op x c' = true := fun hx' hc' => by
    rw [compares_nonneg hx hx' (by omega) (by omega)] at h
    rw [compares_nonneg hx hx' hc' (by omega)]
    exact cmpVal_decrease hop hcc h
  cases hT : T.s with
  | true =>
    rw [hT] at hx
    by_cases hc₀ : c₀ ≤ 2^31
    · rw [compares_signed hT (by omega) (by omega) hx] at h ⊢
      exact cmpVal_decrease hop hcc h
    · rcases lt_or_ge x 0 with hneg | hx'
      · have hw : 32 < T.w ∨ 2^32 ≤ c₀ := by
          by_contra hn
          exact hcross ⟨hT,by omega,by omega,by omega⟩
        obtain ⟨y,hy,heq⟩ := compares_above op (hT.symm ▸ hx) hneg (by omega) h₀ hw
        have := (cmpVal_decrease_le hop).2 (heq ▸ hx₀)
        omega
      · exact hnonneg hx' (by omega)
  | false =>
    have hx' := (InTy.le_pow hx le_rfl).2.2 hT
    rcases lt_or_ge c' 0 with hneg | hc'
    · have hw : 64 ≤ T.w := by
        by_contra hle
        have := hin (not_le.mp hle)
        rw [hT] at this
        simp only [InTy,Bool.false_eq_true,if_false] at this
        omega
      rcases lt_or_ge c₀ 0 with hneg₀ | hc₀
      · rw [compares_wrapped hT hx hw (by omega) (by omega)] at h ⊢
        exact cmpVal_decrease hop (by omega) h
      · have hx₁' := (InTy.le_pow hx₁ le_rfl).2.2 hT
        rw [compares_nonneg hx₁ hx₁' hc₀ h₀] at hx₁₀
        obtain ⟨y,-,hy,heq⟩ := compares_far op hT hx₁ (by omega : fv < 0) hlt
        have h₁ := (cmpVal_decrease_le hop).1 (heq ▸ hx₁e)
        have h₂ := (cmpVal_decrease_le hop).2 hx₁₀
        omega
    · exact hnonneg hx' hc'

end

variable {vars : List VarSpec}

theorem clampToVar_spec {vs : VarSpec}
    (hvs : vars.find? (·.varId = id) = some vs) (v : ℤ) :
    min v 0 ≤ clampToVar vars id v ∧ clampToVar vars id v ≤ max v 0 ∧
      (vs.width < 64 → InTy (clampToVar vars id v) vs.width vs.isSigned) ∧
      (v < 0 → clampToVar vars id v = 0 → vs.isSigned = false ∧ vs.width < 64) := by
  have hp : (1 : ℤ) ≤ 2^(vs.width - 1) := one_le_pow₀ (by norm_num)
  have hp' : (2^vs.width : ℤ) = 2 * 2^(vs.width - 1) := by
    rw [← pow_succ',Nat.sub_add_cancel vs.width_pos]
  simp only [clampToVar,hvs]
  by_cases hw : vs.width < 64
  · cases hs : vs.isSigned with
    | true =>
      simp only [hw,if_true,InTy]
      refine ⟨?_,?_,fun _ => ?_,fun hv h => ?_⟩ <;> split_ifs at * <;> omega
    | false =>
      simp only [hw,if_true,Bool.false_eq_true,if_false,InTy]
      refine ⟨?_,?_,fun _ => ?_,fun _ _ => ⟨trivial,trivial⟩⟩ <;> split_ifs <;> omega
  · simp only [hw,if_false,false_imp_iff,true_and]
    exact ⟨min_le_left _ _,le_max_left _ _,fun hv h => by omega⟩

theorem probeEnd_spec {cls : ClassifyResult} {vs : VarSpec}
    (hvs : vars.find? (·.varId = cls.varId) = some vs)
    (hfits : -2^63 ≤ widened cls ∧ widened cls < 2^63) (h : -2^63 ≤ cls.originalConst)
    (h' : cls.originalConst < 2^63) :
    ∃ fv, probeEnd vars cls = some fv ∧ ProbeEnd ⟨vs.width,vs.isSigned⟩ cls.originalConst fv ∧
      (|fv - cls.originalConst| < 2^63 ∨ cls.relaxDirection ≠ .decrease ∧
        cls.originalConst = -2^63 ∧ fv = 0 ∧ vs.isSigned = false ∧ vs.width < 64) := by
  obtain ⟨hmin,hmax,hin,hz⟩ := clampToVar_spec hvs (widened cls)
  have hnear : cls.originalConst - 10000 ≤ widened cls ∧ widened cls ≤ cls.originalConst + 10000 := by
    unfold widened
    cases cls.relaxDirection <;> dsimp only <;> omega
  refine ⟨clampToVar vars cls.varId (widened cls),by rw [probeEnd,i64,if_pos hfits]; rfl,
    ⟨by omega,hin,by omega⟩,?_⟩
  by_cases hc : |clampToVar vars cls.varId (widened cls) - cls.originalConst| < 2^63
  · exact Or.inl hc
  · have hz₀ : cls.originalConst = -2^63 ∧ clampToVar vars cls.varId (widened cls) = 0 ∧
        widened cls < 0 := by
      rw [abs_lt] at hc
      omega
    refine Or.inr ⟨fun hd => ?_,hz₀.1,hz₀.2.1,hz hz₀.2.2 hz₀.2.1⟩
    have hw : widened cls = cls.originalConst - 10000 := by rw [widened,hd]
    omega

def VarSpec.Admits (v : VarSpec) (x : ℤ) : Prop :=
  InTy x v.width v.isSigned ∧ wrap v.lo v.width v.isSigned ≤ x ∧ x ≤ wrap v.hi v.width v.isSigned

def Frame.types (f : Frame) (id : ℕ) : Ty :=
  match f.vars.find? (·.varId = id) with
  | some v => ⟨v.width,v.isSigned⟩
  | none => boolTy

@[simp] theorem Frame.types_vars (f : Frame) (a : List (List ℕ)) :
    (⟨f.vars,a⟩ : Frame).types = f.types := rfl

def Frame.Holds (f : Frame) (ρ : Env) : Prop :=
  (∀ v ∈ f.vars, v.Admits (ρ.value v.varId)) ∧ ∀ ids ∈ f.allDiff, (ids.map ρ.value).Nodup

/-- The domains, the all-differents and the constraints have a common solution. -/
def Problem.Sat (q : Problem Frame Expr) : Prop :=
  ∃ ρ, q.frame.Holds ρ ∧ ∀ cs ∈ q.constraints, truth q.frame.types ρ cs.root = true

structure Solver.ExactHard (S : Solver Frame Expr) : Prop where
  conflict : ∀ q : Problem Frame Expr, q.softs = [] → q.refused S = true → ¬q.Sat
  solve : ∀ q, q.softs = [] → (S.solve q [] = true ↔ q.Sat)

variable {q : Problem Frame Expr} {S : Solver Frame Expr}

theorem feasible_iff (hS : S.ExactHard)
    (hq : q.softs = []) : feasible S q = true ↔ q.Sat := by
  rw [feasible,Bool.and_eq_true,hS.solve q hq,Bool.not_eq_true',← Bool.not_eq_true]
  exact ⟨fun h => h.2,fun h => ⟨fun hc => hS.conflict q hq hc h,h⟩⟩

def subsetOf (p : Problem Frame Expr) (mus : List ℕ) : Problem Frame Expr :=
  { p with constraints := p.constraints.filter (·.constraintId ∈ mus), softs := [] }

def relaxed (p : Problem Frame Expr) (mus : List ℕ) (target : ℕ) (c : ℤ) : Problem Frame Expr :=
  { subsetOf p mus with
    constraints := (subsetOf p mus).constraints.map fun cs =>
      if cs.constraintId = target then { cs with root := replaceConst cs.root c } else cs }

def withoutAllDiff (q : Problem Frame Expr) : Problem Frame Expr :=
  { q with frame := { q.frame with allDiff := [] } }

theorem withoutAllDiff_sat (h : q.Sat) : (withoutAllDiff q).Sat := by
  obtain ⟨ρ,⟨hv,_⟩,hc⟩ := h
  exact ⟨ρ,⟨hv,by simp [withoutAllDiff]⟩,hc⟩

theorem buildRelaxedSubproblem_sat (p : Problem Frame Expr) (mus : List ℕ) (target : ℕ) (c : ℤ) :
    (buildRelaxedSubproblem p mus target c).softs = [] ∧ ((buildRelaxedSubproblem p mus target c).Sat ↔
        (withoutAllDiff (relaxed p mus target c)).Sat) := by
  have hfold : ∀ (l : List (ConstraintSpec Expr)) (sp : Problem Frame Expr),
      let sp' := l.foldl (fun sp cs => if cs.constraintId ∈ mus then problemAddConstraint sp
        (if cs.constraintId = target then replaceConst cs.root c else cs.root) else sp) sp
      sp'.frame = sp.frame ∧ sp'.softs = sp.softs ∧ ∀ P : Expr → Prop,
        (∀ cs ∈ sp'.constraints, P cs.root) ↔ (∀ cs ∈ sp.constraints, P cs.root) ∧
          ∀ cs ∈ l, cs.constraintId ∈ mus →
            P (if cs.constraintId = target then replaceConst cs.root c else cs.root) := by
    intro l
    induction l with
    | nil => simp
    | cons cs l ih =>
      intro sp
      obtain ⟨hf,hs,hP⟩ := ih (if cs.constraintId ∈ mus then problemAddConstraint sp
        (if cs.constraintId = target then replaceConst cs.root c else cs.root) else sp)
      simp only [List.foldl_cons]
      refine ⟨hf.trans (by split_ifs <;> rfl),hs.trans (by split_ifs <;> rfl),fun P => ?_⟩
      rw [hP P]
      by_cases hm : cs.constraintId ∈ mus
      · simp only [hm,if_true,problemAddConstraint,List.forall_mem_cons,forall_const,and_assoc]
        tauto
      · simp only [hm,if_false,List.forall_mem_cons,false_imp_iff,true_and]
  obtain ⟨hf,hs,hP⟩ := hfold p.constraints ⟨{ p.frame with allDiff := [] },[],[],0⟩
  refine ⟨hs,exists_congr fun ρ => ?_⟩
  rw [show (buildRelaxedSubproblem p mus target c).frame = { p.frame with allDiff := [] } from hf,
    show (withoutAllDiff (relaxed p mus target c)).frame = { p.frame with allDiff := [] } from rfl]
  refine and_congr_right fun _ => (hP (fun r => truth _ ρ r = true)).trans ?_
  simp only [List.not_mem_nil,false_imp_iff,implies_true,true_and,withoutAllDiff,relaxed,subsetOf,
    List.forall_mem_map,List.mem_filter,decide_eq_true_eq,and_imp]
  refine forall₃_congr fun cs _ _ => ?_
  split_ifs <;> rfl

theorem classifyOp_some {op : BinOp} {v : ℕ} {c : ℤ} {cls : ClassifyResult}
    (h : classifyOp op v c = some cls) : cls.varId = v ∧ cls.originalConst = c ∧ cls.op = op ∧
      op.isCmp = true ∧ (cls.relaxDirection = .increase → op = .lte ∨ op = .lt) ∧
      (cls.relaxDirection = .decrease → op = .gte ∨ op = .gt) := by
  cases op <;> simp [classifyOp] at h <;> subst h <;> simp [BinOp.isCmp]

inductive VarConst : Expr → Prop
  | varConst (op : BinOp) (v : ℕ) (c : ℤ) (w : ℕ) (s : Bool) :
    VarConst (.binary op (.var v) (.const c w s))
  | constVar (op : BinOp) (v : ℕ) (c : ℤ) (w : ℕ) (s : Bool) :
    VarConst (.binary op (.const c w s) (.var v))

variable {root : Expr}

theorem classified_varConst {cls : ClassifyResult}
    (h : classifyConstraint root = some cls) : VarConst root := by
  unfold classifyConstraint at h
  split at h
  · exact .varConst ..
  · exact .constVar ..
  · cases h

theorem isCmp_flipOp (op : BinOp) : (flipOp op).isCmp = op.isCmp := by cases op <;> rfl

theorem truth_replaceConst {cls : ClassifyResult}
    (hc : classifyConstraint root = some cls) (Γ : ℕ → Ty) (ρ : Env) {c : ℤ} (h : -2^63 ≤ c)
    (h' : c < 2^63) : truth Γ ρ (replaceConst root c) =
      compares (Γ cls.varId).fix cls.op (varValue Γ ρ cls.varId) c := by
  cases classified_varConst hc with
  | varConst op v k w s =>
    obtain ⟨rfl,-,rfl,hop,-,-⟩ := classifyOp_some hc
    exact truth_varConst hop h h'
  | constVar op v k w s =>
    obtain ⟨rfl,-,he,hop,-,-⟩ := classifyOp_some hc
    rw [he]
    exact truth_constVar ((isCmp_flipOp op).symm.trans hop) h h'

theorem classified_op {cls : ClassifyResult}
    (hc : classifyConstraint root = some cls) :
    (cls.relaxDirection = .increase → cls.op = .lte ∨ cls.op = .lt) ∧
      (cls.relaxDirection = .decrease → cls.op = .gte ∨ cls.op = .gt) := by
  cases classified_varConst hc with
  | varConst op v k w s =>
    obtain ⟨-,-,rfl,-,hi,hd⟩ := classifyOp_some hc
    exact ⟨hi,hd⟩
  | constVar op v k w s =>
    obtain ⟨-,-,he,-,hi,hd⟩ := classifyOp_some hc
    rw [he]
    exact ⟨hi,hd⟩

structure Target (p : Problem Frame Expr) (mus : List ℕ) (cs : ConstraintSpec Expr)
    (cls : ClassifyResult) (vs : VarSpec) : Prop where
  ids : (p.constraints.map (·.constraintId)).Nodup
  mem : cs ∈ p.constraints
  inMus : cs.constraintId ∈ mus
  classified : classifyConstraint cs.root = some cls
  declared : p.frame.vars.find? (·.varId = cls.varId) = some vs
  int64 : -2^63 ≤ cls.originalConst ∧ cls.originalConst < 2^63

def VarSpec.ty (v : VarSpec) : Ty := ⟨v.width,v.isSigned⟩

/-- Satisfiable as the search asks, without the all-differents. -/
def Probed (p : Problem Frame Expr) (mus : List ℕ) (target : ℕ) (c : ℤ) : Prop :=
  (withoutAllDiff (relaxed p mus target c)).Sat

/-- The domains, and the constraints of the subset that stay as they are. -/
def Rest (p : Problem Frame Expr) (mus : List ℕ) (target : ℕ) (ρ : Env) : Prop :=
  (∀ v ∈ p.frame.vars, v.Admits (ρ.value v.varId)) ∧
    ∀ cs ∈ p.constraints, cs.constraintId ∈ mus → cs.constraintId ≠ target →
      truth p.frame.types ρ cs.root = true

section
variable {p : Problem Frame Expr} {mus : List ℕ} {cs : ConstraintSpec Expr}
  {cls : ClassifyResult} {vs : VarSpec}

theorem Target.types (h : Target p mus cs cls vs) : (p.frame.types cls.varId).fix = vs.ty := by
  have hpos : vs.width ≠ 0 := vs.width_pos.ne'
  simp [Frame.types,h.declared,Ty.fix,VarSpec.ty,hpos]

theorem Target.sat_iff (h : Target p mus cs cls vs) (c : ℤ) : Probed p mus cs.constraintId c ↔
      ∃ ρ, Rest p mus cs.constraintId ρ ∧ truth p.frame.types ρ (replaceConst cs.root c) = true := by
  refine exists_congr fun ρ => ?_
  simp only [withoutAllDiff,relaxed,subsetOf,Frame.Holds,Frame.types_vars,Rest,List.not_mem_nil,
    false_imp_iff,implies_true,and_true,List.forall_mem_map,List.mem_filter,decide_eq_true_eq,
    and_imp,and_assoc]
  refine and_congr_right fun _ => ⟨fun hall => ⟨fun d hd hm hne => ?_,?_⟩,fun hall d hd hm => ?_⟩
  · simpa [hne] using hall d hd hm
  · simpa using hall cs h.mem h.inMus
  · by_cases he : d.constraintId = cs.constraintId
    · obtain rfl := List.inj_on_of_nodup_map h.ids hd h.mem he
      simpa using hall.2
    · simpa [he] using hall.1 d hd hm he

theorem Target.probed_iff (h : Target p mus cs cls vs) {c : ℤ} (hc : -2^63 ≤ c)
    (hc' : c < 2^63) : Probed p mus cs.constraintId c ↔
      ∃ x, (∃ ρ, Rest p mus cs.constraintId ρ ∧ varValue p.frame.types ρ cls.varId = x) ∧
        InTy x vs.width vs.isSigned ∧ compares vs.ty cls.op x c = true := by
  rw [h.sat_iff]
  constructor
  · rintro ⟨ρ,hr,ht⟩
    rw [truth_replaceConst h.classified _ _ hc hc',h.types] at ht
    refine ⟨_,⟨ρ,hr,rfl⟩,?_,ht⟩
    rw [varValue,h.types]
    exact wrap_inTy _ _ _
  · rintro ⟨x,⟨ρ,hr,rfl⟩,-,ht⟩
    refine ⟨ρ,hr,?_⟩
    rwa [truth_replaceConst h.classified _ _ hc hc',h.types]

theorem Edge.least_above {fv q : ℤ} (h : Edge N c₀ fv r q) (hup : c₀ < fv)
    (hmono : ∀ c c', Onward c₀ fv c c' → N c → N c') (c : ℤ) (hc : c₀ < c) (hcr : c < r) :
    ¬N c := by
  intro hf
  obtain ⟨-,hq,hrq,hpos,-⟩ := h
  rcases hq with rfl | hq
  · omega
  · exact hq (hmono c q (Or.inl (by omega)) hf)

theorem Edge.least_below {fv q : ℤ} (h : Edge N c₀ fv r q) (hdown : fv < c₀)
    (hmono : ∀ c c', Onward c₀ fv c c' → N c → N c') (c : ℤ) (hc : c < c₀) (hcr : r < c) :
    ¬N c := by
  intro hf
  obtain ⟨-,hq,hrq,hpos,-⟩ := h
  rcases hq with rfl | hq
  · omega
  · exact hq (hmono c q (Or.inr (by omega)) hf)

def restValues (p : Problem Frame Expr) (mus : List ℕ) (target : ℕ) (cls : ClassifyResult) : Set ℤ :=
  {x | ∃ ρ, Rest p mus target ρ ∧ varValue p.frame.types ρ cls.varId = x}

/-- What a search is about: the target, and the end of the probe range, where the subset is
feasible and at the original constant is not. -/
structure Search (p : Problem Frame Expr) (mus : List ℕ) (cs : ConstraintSpec Expr)
    (cls : ClassifyResult) (vs : VarSpec) (fv : ℤ) : Prop where
  target : Target p mus cs cls vs
  probe : ProbeEnd vs.ty cls.originalConst fv
  start : ¬Probed p mus cs.constraintId cls.originalConst
  finish : Probed p mus cs.constraintId fv

variable {fv : ℤ}

theorem Search.exact (h : Search p mus cs cls vs fv) {c : ℤ} (hc : -2^63 ≤ c) (hc' : c < 2^63) :
    Probed p mus cs.constraintId c ↔ ∃ x ∈ restValues p mus cs.constraintId cls,
      InTy x vs.width vs.isSigned ∧ compares vs.ty cls.op x c = true :=
  h.target.probed_iff hc hc'

theorem Search.excluded (h : Search p mus cs cls vs fv) {x : ℤ}
    (hx : x ∈ restValues p mus cs.constraintId cls) (hin : InTy x vs.width vs.isSigned) :
    compares vs.ty cls.op x cls.originalConst = false := by
  by_contra hn
  exact h.start ((h.exact h.target.int64.1 h.target.int64.2).mpr ⟨x,hx,hin,by simpa using hn⟩)

theorem Search.admitted (h : Search p mus cs cls vs fv) : ∃ x, InTy x vs.width vs.isSigned ∧
    compares vs.ty cls.op x cls.originalConst = false ∧ compares vs.ty cls.op x fv = true := by
  obtain ⟨x,hx,hin,hc⟩ := (h.exact h.probe.bounds.1 h.probe.bounds.2).mp h.finish
  exact ⟨x,hin,h.excluded hx hin,hc⟩

theorem Search.increase (h : Search p mus cs cls vs fv)
    (hd : cls.relaxDirection = .increase) (c c' : ℤ) (hc : cls.originalConst < c) (hcc : c ≤ c')
    (hfv : c' ≤ fv) (hf : Probed p mus cs.constraintId c) : Probed p mus cs.constraintId c' := by
  have hb := h.probe.bounds
  have h64 := h.target.int64
  obtain ⟨x₁,hin₁,hx₁,hx₁'⟩ := h.admitted
  obtain ⟨x,hx,hin,ht⟩ := (h.exact (by omega) (by omega)).mp hf
  refine (h.exact (by omega) (by omega)).mpr ⟨x,hx,hin,?_⟩
  exact compares_increase ((classified_op h.target.classified).1 hd) h.probe h64.1 hc hcc hfv hin (h.excluded hx hin) hin₁ hx₁
    hx₁' ht

theorem Search.decrease (h : Search p mus cs cls vs fv)
    (hd : cls.relaxDirection = .decrease)
    (hcross : ¬(vs.isSigned = true ∧ vs.width ≤ 32 ∧ 2^31 < cls.originalConst ∧
      cls.originalConst < 2^32)) (c c' : ℤ) (hc : c < cls.originalConst) (hcc : c' ≤ c)
    (hfv : fv ≤ c') (hf : Probed p mus cs.constraintId c) : Probed p mus cs.constraintId c' := by
  have hb := h.probe.bounds
  have h64 := h.target.int64
  obtain ⟨x₁,hin₁,hx₁,hx₁'⟩ := h.admitted
  obtain ⟨x,hx,hin,ht⟩ := (h.exact (by omega) (by omega)).mp hf
  refine (h.exact (by omega) (by omega)).mpr ⟨x,hx,hin,?_⟩
  exact compares_decrease ((classified_op h.target.classified).2 hd) h.probe h64.2 hcross hc hcc hfv hin (h.excluded hx hin) hin₁
    hx₁ hx₁' ht

/-- An unsigned variable narrower than 64 bits has nothing between a constant that spells a
pattern far above it and zero. -/
theorem Search.not_zero (h : Search p mus cs cls vs fv)
    (hd : cls.relaxDirection = .increase) (hneg : cls.originalConst < 0) (hfv : fv = 0)
    (hs : vs.isSigned = false) : False := by
  obtain ⟨x,hin,hx₀,hx⟩ := h.admitted
  have hx' := (InTy.le_pow hin le_rfl).2.2 hs
  subst hfv
  rw [compares_nonneg hin hx' le_rfl (by norm_num)] at hx
  obtain ⟨y,hy,-,heq⟩ := compares_far (T := vs.ty) cls.op hs hin hneg h.target.int64.1
  have h₁ := (cmpVal_increase_le ((classified_op h.target.classified).1 hd)).1 hx
  have h₂ := (cmpVal_increase_le ((classified_op h.target.classified).1 hd)).2 (heq ▸ hx₀)
  omega

theorem compares_cross {T : Ty} {op : BinOp} {x c : ℤ} (hx : InTy x T.w T.s) (hw : T.w ≤ 32)
    (hx₀ : x < 0) (hc : 2^31 ≤ c) (hc' : c < 2^32) :
    compares T op x c = cmpVal op (x + 2^32) c := by
  have hlit : litWidth c = 32 := if_pos ⟨by omega,hc'⟩
  have hle := (InTy.le_pow hx hw).1
  rw [compares_unsigned (by omega),hlit,max_eq_right hw,emod_neg hx₀ (by omega),
    Int.emod_eq_of_lt (by omega) hc']

theorem bisect_step {fv : ℤ} (hgap : 1 < |fv - c₀|)
    (hlt : |fv - c₀| < 2^63) (hm : mid = c₀ + (fv - c₀).tdiv 2) (hf : feas mid = true) :
    bisect feas (n + 1) c₀ fv = bisect feas n c₀ mid := by
  rw [bisect_succ feas n hlt,if_neg (not_le.mpr hgap),← hm,if_pos hf]

/-- Where the type of the literal changes inside the range, a variable narrower than 32 bits is
safe: if it has a negative value left, the first middle is feasible and above the change. -/
theorem Search.decrease_cross (h : Search p mus cs cls vs fv)
    (hd : cls.relaxDirection = .decrease) (hs : vs.isSigned = true) (hw : vs.width < 32)
    (hc₀ : 2^31 < cls.originalConst) (hc₀' : cls.originalConst < 2^32)
    (hfv : fv = 2^(vs.width - 1) - 1)
    (hfeas : ∀ c, feas c = true ↔ Probed p mus cs.constraintId c)
    (hr : bisect feas 64 cls.originalConst fv = some r) (c : ℤ) (hcr : r < c)
    (hc : c < cls.originalConst) : ¬feas c = true := by
  have hpow : (2^vs.width : ℤ) = 2 * 2^(vs.width - 1) := by
    rw [← pow_succ',Nat.sub_add_cancel vs.width_pos]
  have hp₁ : (1 : ℤ) ≤ 2^(vs.width - 1) := one_le_pow₀ (by norm_num)
  have hp₂ : (2^(vs.width - 1) : ℤ) ≤ 2^30 := pow_le_pow_right₀ (by norm_num) (by omega)
  have hin : ∀ x, InTy x vs.width vs.isSigned → -2^vs.width ≤ 2 * x ∧ 2 * x < 2^vs.width := by
    intro x hx
    simpa [InTy,hs] using hx
  by_cases hneg : ∃ x ∈ restValues p mus cs.constraintId cls, InTy x vs.width vs.isSigned ∧ x < 0
  · obtain ⟨x,hx,hxin,hx₀⟩ := hneg
    have hxb := hin x hxin
    have hop : cls.op = .gte := by
      rcases (classified_op h.target.classified).2 hd with hop | hop
      · exact hop
      · obtain ⟨x₁,hx₁,-,ht⟩ := h.admitted
        have hlt : fv < 2^31 := by omega
        rw [compares_signed (T := vs.ty) hs hlt (by omega) (by rw [hs] at hx₁; exact hx₁),hop] at ht
        have hx₁b := hin x₁ hx₁
        simp only [cmpVal,decide_eq_true_eq] at ht
        omega
    have hex := h.excluded hx hxin
    rw [compares_cross (T := vs.ty) hxin hw.le hx₀ hc₀.le hc₀',hop] at hex
    simp only [cmpVal,decide_eq_false_iff_not] at hex
    obtain ⟨mid,hm⟩ : ∃ mid, mid = cls.originalConst + (fv - cls.originalConst).tdiv 2 := ⟨_,rfl⟩
    have hm' : mid = cls.originalConst - (cls.originalConst - fv) / 2 := by
      rw [hm,show fv - cls.originalConst = -(cls.originalConst - fv) by ring,Int.neg_tdiv,
        Int.tdiv_eq_ediv_of_nonneg (by omega)]
      ring
    have habs : |fv - cls.originalConst| = cls.originalConst - fv := by
      rw [abs_of_nonpos (by omega)]
      ring
    have hmid : feas mid = true := by
      refine (hfeas mid).mpr ((h.exact (by omega) (by omega)).mpr ⟨x,hx,hxin,?_⟩)
      rw [compares_cross (T := vs.ty) hxin hw.le hx₀ (by omega) (by omega),hop]
      simp only [cmpVal,decide_eq_true_eq]
      omega
    rw [bisect_step (by omega) (by omega) hm hmid] at hr
    have habs' : |mid - cls.originalConst| = cls.originalConst - mid := by
      rw [abs_of_nonpos (by omega)]
      ring
    obtain ⟨r',q,hr',he⟩ := bisect_spec 63 cls.originalConst mid hmid (by omega) (by omega)
    obtain rfl : r' = r := Option.some.inj (hr'.symm.trans hr)
    refine he.least_below (by omega) (fun c c' hon hf => ?_) c hc hcr
    unfold Onward at hon
    obtain ⟨y,hy,hyin,ht⟩ := (h.exact (by omega) (by omega)).mp ((hfeas c).mp hf)
    refine (hfeas c').mpr ((h.exact (by omega) (by omega)).mpr ⟨y,hy,hyin,?_⟩)
    have hcc : c' ≤ c := by omega
    rcases lt_or_ge y 0 with hy₀ | hy₀
    · rw [compares_cross (T := vs.ty) hyin hw.le hy₀ (by omega) (by omega)] at ht ⊢
      exact cmpVal_decrease ((classified_op h.target.classified).2 hd) hcc ht
    · rw [compares_nonneg (T := vs.ty) hyin hy₀ (by omega) (by omega)] at ht ⊢
      exact cmpVal_decrease ((classified_op h.target.classified).2 hd) hcc ht
  · simp only [not_exists,not_and,not_lt] at hneg
    have habs : |fv - cls.originalConst| = cls.originalConst - fv := by
      rw [abs_of_nonpos (by omega)]
      ring
    obtain ⟨r',q,hr',he⟩ := bisect_spec 64 cls.originalConst fv ((hfeas fv).mpr h.finish)
      (by omega) (by omega)
    obtain rfl : r' = r := Option.some.inj (hr'.symm.trans hr)
    refine he.least_below (by omega) (fun c c' hon hf => ?_) c hc hcr
    unfold Onward at hon
    have hcc : c' ≤ c := by omega
    obtain ⟨y,hy,hyin,ht⟩ := (h.exact (by omega) (by omega)).mp ((hfeas c).mp hf)
    refine (hfeas c').mpr ((h.exact (by omega) (by omega)).mpr ⟨y,hy,hyin,?_⟩)
    have hy₀ := hneg y hy hyin
    rw [compares_nonneg (T := vs.ty) hyin hy₀ (by omega) (by omega)] at ht ⊢
    exact cmpVal_decrease ((classified_op h.target.classified).2 hd) hcc ht

/-- What is satisfiable without the all-differents stays so up to the end of the range. -/
def Steady (p : Problem Frame Expr) (mus : List ℕ) (target : ℕ) (c₀ fv : ℤ) : Prop :=
  ∀ c c', Onward c₀ fv c c' → Probed p mus target c → Probed p mus target c'

def Ends (p : Problem Frame Expr) (mus : List ℕ) (target : ℕ) (cls : ClassifyResult) (fv : ℤ) :
    Prop := probeEnd p.frame.vars cls = some fv ∧ Probed p mus target fv

/-- A signed variable of fewer than 32 bits from below, with a literal that is unsigned in 32. -/
structure Crosses (p : Problem Frame Expr) (mus : List ℕ) (cs : ConstraintSpec Expr)
    (cls : ClassifyResult) (vs : VarSpec) : Prop where
  decrease : cls.relaxDirection = .decrease
  signed : vs.isSigned = true
  narrow : vs.width < 32
  literal : 2^31 < cls.originalConst ∧ cls.originalConst < 2^32
  start : ¬Probed p mus cs.constraintId cls.originalConst

/-- Where the search does what it is for: its sums fit; and where it finds the end of the range
satisfiable, the distance fits, an inequality stays satisfiable from the first constant on, and
with the all-differents the subset is satisfiable at each edge. -/
structure Sound (p : Problem Frame Expr) (mus : List ℕ) (cs : ConstraintSpec Expr)
    (cls : ClassifyResult) (vs : VarSpec) : Prop where
  fits : -2^63 ≤ widened cls ∧ widened cls < 2^63
  gap : ∀ fv, Ends p mus cs.constraintId cls fv → |fv - cls.originalConst| < 2^63
  steady : ∀ fv, Ends p mus cs.constraintId cls fv →
    cls.relaxDirection = .increase ∧ cls.originalConst < fv ∨
      cls.relaxDirection = .decrease ∧ fv < cls.originalConst →
    Steady p mus cs.constraintId cls.originalConst fv ∨ Crosses p mus cs cls vs
  edges : ∀ fv, Ends p mus cs.constraintId cls fv → ∀ c q,
    Edge (Probed p mus cs.constraintId) cls.originalConst fv c q → (relaxed p mus cs.constraintId c).Sat

theorem clampToVar_above
    (hvs : vars.find? (·.varId = id) = some vs) (hs : vs.isSigned = true) (hw : vs.width < 64)
    {v : ℤ} (hv : 2^(vs.width - 1) - 1 < v) :
    clampToVar vars id v = 2^(vs.width - 1) - 1 := by
  have hp : (1 : ℤ) ≤ 2^(vs.width - 1) := one_le_pow₀ (by norm_num)
  have h₁ : ¬v < -2^(vs.width - 1) := by omega
  simp only [clampToVar,hvs,hw,hs,h₁,hv,if_true,if_false]

theorem Crosses.probeEnd (h : Crosses p mus cs cls vs) (ht : Target p mus cs cls vs) :
    probeEnd p.frame.vars cls = some (2^(vs.width - 1) - 1) := by
  have hp : (2^(vs.width - 1) : ℤ) ≤ 2^30 := pow_le_pow_right₀ (by norm_num)
    (by have := h.narrow; omega)
  have hc := h.literal
  have hw : widened cls = cls.originalConst - 10000 := by rw [widened,h.decrease]
  rw [Contra.probeEnd,hw,i64,if_pos (by omega),Option.map_some,
    clampToVar_above ht.declared h.signed (by have := h.narrow; omega) (by omega)]

/-- An unsized literal is relaxed steadily, whatever the type of the original one, where the
subset is unsatisfiable with it: a signed 32-bit variable from below is the exception. -/
theorem Sound.of_literal (ht : Target p mus cs cls vs)
    (hfits : -2^63 ≤ widened cls ∧ widened cls < 2^63)
    (hboth : cls.relaxDirection = .both →
      ¬(cls.originalConst = -2^63 ∧ vs.isSigned = false ∧ vs.width < 64))
    (hstart : ¬Probed p mus cs.constraintId cls.originalConst)
    (htypes : cls.relaxDirection = .decrease → ¬(vs.isSigned = true ∧ vs.width = 32 ∧
      2^31 < cls.originalConst ∧ cls.originalConst < 2^32))
    (hdiff : ∀ c, Probed p mus cs.constraintId c → (relaxed p mus cs.constraintId c).Sat) :
    Sound p mus cs cls vs := by
  obtain ⟨e,he,hprobe,hgap⟩ := probeEnd_spec ht.declared hfits ht.int64.1 ht.int64.2
  have hsearch : ∀ fv, Ends p mus cs.constraintId cls fv → fv = e ∧ Search p mus cs cls vs fv := by
    rintro fv ⟨hfv,hsat⟩
    obtain rfl : e = fv := Option.some.inj (he.symm.trans hfv)
    exact ⟨rfl,ht,hprobe,hstart,hsat⟩
  refine ⟨hfits,fun fv h => ?_,fun fv h hdir => ?_,fun fv _ c q hedge => hdiff c hedge.sat⟩
  · obtain ⟨rfl,h⟩ := hsearch fv h
    rcases hgap with hgap | ⟨hd,hc,hz,hs,hw⟩
    · exact hgap
    · cases hdir : cls.relaxDirection with
      | increase => exact (h.not_zero hdir (by omega) hz hs).elim
      | decrease => exact absurd hdir hd
      | both => exact absurd ⟨hc,hs,hw⟩ (hboth hdir)
  · obtain ⟨rfl,h⟩ := hsearch fv h
    rcases hdir with ⟨hd,hlt⟩ | ⟨hd,hlt⟩
    · refine Or.inl fun c c' hon => h.increase hd c c' ?_ ?_ ?_ <;> unfold Onward at hon <;> omega
    · by_cases hcross : vs.isSigned = true ∧ vs.width ≤ 32 ∧ 2^31 < cls.originalConst ∧
          cls.originalConst < 2^32
      · obtain ⟨hs,hw,hc₀⟩ := hcross
        have hw' : vs.width < 32 := lt_of_le_of_ne hw fun he => htypes hd ⟨hs,he,hc₀⟩
        exact Or.inr ⟨hd,hs,hw',hc₀,hstart⟩
      · refine Or.inl fun c c' hon => h.decrease hd hcross c c' ?_ ?_ ?_ <;>
          unfold Onward at hon <;> omega

/-- A constraint reported relaxable is satisfiable with the constant found, and an inequality
with none before it. -/
def Relaxes (p : Problem Frame Expr) (mus : List ℕ) (target : ℕ) (cls : ClassifyResult)
    (out : RelaxSuggestion) : Prop :=
  out.isRelaxable = true → (relaxed p mus target out.relaxedConstant).Sat ∧
    (cls.relaxDirection = .increase → ∀ c, cls.originalConst < c → c < out.relaxedConstant →
      ¬(relaxed p mus target c).Sat) ∧
    (cls.relaxDirection = .decrease → ∀ c, out.relaxedConstant < c → c < cls.originalConst →
      ¬(relaxed p mus target c).Sat)

theorem relaxSearch_eq (p : Problem Frame Expr) (mus : List ℕ) (cs : ConstraintSpec Expr)
    (cls : ClassifyResult) (hS : S.ExactHard) :
    ∃ feas : ℤ → Bool, (∀ c, feas c = true ↔ Probed p mus cs.constraintId c) ∧
      relaxSearch S p mus cs.constraintId cls = (probeEnd p.frame.vars cls).bind fun fv =>
        if feas fv then
          (bisect feas 64 cls.originalConst fv).map fun v => ⟨true,v,v - cls.originalConst⟩
        else some ⟨false,cls.originalConst,0⟩ := by
  refine ⟨fun c => feasible S (buildRelaxedSubproblem p mus cs.constraintId c),fun c => ?_,rfl⟩
  obtain ⟨hsoft,hiff⟩ := buildRelaxedSubproblem_sat p mus cs.constraintId c
  exact (feasible_iff hS hsoft).trans hiff

theorem Sound.relaxes (hS : S.ExactHard) (ht : Target p mus cs cls vs)
    (h : Sound p mus cs cls vs) : ∃ out, relaxSearch S p mus cs.constraintId cls = some out ∧
      Relaxes p mus cs.constraintId cls out := by
  obtain ⟨feas,hfeas,hrun⟩ := relaxSearch_eq p mus cs cls hS
  obtain ⟨fv,hfv,hprobe,-⟩ := probeEnd_spec ht.declared h.fits ht.int64.1 ht.int64.2
  rw [hrun,hfv,Option.bind_some]
  by_cases hend : feas fv = true
  · have he : Ends p mus cs.constraintId cls fv := ⟨hfv,(hfeas fv).mp hend⟩
    have hlt := h.gap fv he
    obtain ⟨r,q,hr,hedge⟩ := bisect_spec 64 cls.originalConst fv hend (by omega) hlt
    have hN : (fun c => feas c = true) = Probed p mus cs.constraintId :=
      funext fun c => propext (hfeas c)
    rw [hN] at hedge
    have hloose : ∀ c, (relaxed p mus cs.constraintId c).Sat → Probed p mus cs.constraintId c :=
      fun c => withoutAllDiff_sat
    have hpos := hedge.order
    refine ⟨_,by rw [if_pos hend,hr,Option.map_some],fun _ => ⟨h.edges fv he r q hedge,?_,?_⟩⟩
    · intro hd c hc hcr hs
      have hup : cls.originalConst < fv := by dsimp only at hcr; omega
      rcases h.steady fv he (Or.inl ⟨hd,hup⟩) with hst | hcross
      · exact hedge.least_above hup hst c hc hcr (hloose c hs)
      · rw [hcross.decrease] at hd
        cases hd
    · intro hd c hcr hc hs
      have hdown : fv < cls.originalConst := by dsimp only at hcr; omega
      rcases h.steady fv he (Or.inr ⟨hd,hdown⟩) with hst | hcross
      · exact hedge.least_below hdown hst c hc hcr (hloose c hs)
      · have hfv' : fv = 2^(vs.width - 1) - 1 :=
          Option.some.inj (hfv.symm.trans (hcross.probeEnd ht))
        have hsearch : Search p mus cs cls vs fv := ⟨ht,hprobe,hcross.start,he.2⟩
        exact hsearch.decrease_cross hd hcross.signed hcross.narrow hcross.literal.1
          hcross.literal.2 hfv' hfeas hr c hcr hc ((hfeas c).mpr (hloose c hs))
  · exact ⟨_,by rw [if_neg hend],fun h => absurd h (by simp)⟩

theorem Sound.of_relaxes (hS : S.ExactHard)
    (hsteady : ∀ fv, Ends p mus cs.constraintId cls fv →
      Steady p mus cs.constraintId cls.originalConst fv)
    (h : ∃ out, relaxSearch S p mus cs.constraintId cls = some out ∧
      Relaxes p mus cs.constraintId cls out) : Sound p mus cs cls vs := by
  obtain ⟨feas,hfeas,hrun⟩ := relaxSearch_eq p mus cs cls hS
  obtain ⟨out,hout,hrel⟩ := h
  rw [hrun] at hout
  have hfits : -2^63 ≤ widened cls ∧ widened cls < 2^63 := by
    by_contra hn
    rw [probeEnd,i64,if_neg hn] at hout
    cases hout
  have hbis : ∀ fv, Ends p mus cs.constraintId cls fv → ∃ r,
      bisect feas 64 cls.originalConst fv = some r ∧ out = ⟨true,r,r - cls.originalConst⟩ := by
    rintro fv ⟨hfv,hsat⟩
    rw [hfv,Option.bind_some,if_pos ((hfeas fv).mpr hsat)] at hout
    obtain ⟨r,hr,rfl⟩ := Option.map_eq_some_iff.mp hout
    exact ⟨r,hr,rfl⟩
  refine ⟨hfits,fun fv he => ?_,fun fv he _ => Or.inl (hsteady fv he),fun fv he c q hedge => ?_⟩
  · obtain ⟨r,hr,-⟩ := hbis fv he
    exact bisect_gap hr
  · obtain ⟨r,hr,rfl⟩ := hbis fv he
    have hlt := bisect_gap hr
    obtain ⟨r',q',hr',hedge'⟩ := bisect_spec 64 cls.originalConst fv ((hfeas fv).mpr he.2)
      (by omega) hlt
    obtain rfl : r' = r := Option.some.inj (hr'.symm.trans hr)
    have hN : (fun c => feas c = true) = Probed p mus cs.constraintId :=
      funext fun c => propext (hfeas c)
    rw [hN] at hedge'
    rw [hedge.eq hedge' (hsteady fv he)]
    exact (hrel rfl).1

/-- For exact answers the search gives what it is for where it is sound, and, where the subset
stays satisfiable from the first constant on, nowhere else. -/
theorem relaxSearch_relaxes (S : Solver Frame Expr) (p : Problem Frame Expr) (mus : List ℕ)
    (cs : ConstraintSpec Expr) (cls : ClassifyResult) (vs : VarSpec) (hS : S.ExactHard)
    (ht : Target p mus cs cls vs) :
    (Sound p mus cs cls vs → ∃ out, relaxSearch S p mus cs.constraintId cls = some out ∧
      Relaxes p mus cs.constraintId cls out) ∧
    ((∀ fv, Ends p mus cs.constraintId cls fv → Steady p mus cs.constraintId cls.originalConst fv) →
      (∃ out, relaxSearch S p mus cs.constraintId cls = some out ∧
        Relaxes p mus cs.constraintId cls out) → Sound p mus cs cls vs) :=
  ⟨fun h => h.relaxes hS ht,Sound.of_relaxes hS⟩

end

open Classical in
/-- Compiling refuses nothing and a solve is a decision of satisfiability. -/
noncomputable def exactSolver : Solver Frame Expr := ⟨fun _ _ => false,fun q _ => decide q.Sat⟩

theorem exactSolver_exact : exactSolver.ExactHard :=
  ⟨fun _ _ h => absurd h (by simp [exactSolver,Problem.refused]),fun q _ => by simp [exactSolver]⟩

def byteVar (i : ℕ) : VarSpec := ⟨i,8,false,0,255,by decide⟩

def threeBytes (allDiff : List (List ℕ)) : Frame := ⟨[byteVar 2,byteVar 1,byteVar 0],allDiff⟩

def bound (op : BinOp) (i : ℕ) (c : ℤ) : Expr := .binary op (.var i) (.const c 0 false)

theorem threeBytes_vars {ρ : Env} : (∀ v ∈ (threeBytes []).vars, v.Admits (ρ.value v.varId)) ↔
    ∀ i < 3, 0 ≤ ρ.value i ∧ ρ.value i ≤ 255 := by
  have hadm : ∀ i x, (byteVar i).Admits x ↔ 0 ≤ x ∧ x ≤ 255 := fun i x => by
    simp only [VarSpec.Admits,byteVar,InTy,wrap]
    norm_num
    omega
  have hid : ∀ i, (byteVar i).varId = i := fun _ => rfl
  simp only [threeBytes,List.forall_mem_cons,hadm,hid,List.not_mem_nil,false_imp_iff,implies_true,
    and_true]
  refine ⟨fun h i hi => ?_,fun h => ⟨h 2 (by decide),h 1 (by decide),h 0 (by decide)⟩⟩
  match i with
  | 0 => exact h.2.2
  | 1 => exact h.2.1
  | 2 => exact h.1

theorem bound_truth {op : BinOp} (hop : op.isCmp = true) (allDiff : List (List ℕ)) {ρ : Env}
    {i : ℕ} (hi : i < 3) (hx : 0 ≤ ρ.value i ∧ ρ.value i ≤ 255) {c : ℤ} (hc : 0 ≤ c)
    (hc' : c < 2^63) : truth (threeBytes allDiff).types ρ (bound op i c) = true ↔
      cmpVal op (ρ.value i) c = true := by
  have hty : ((threeBytes allDiff).types i).fix = ⟨8,false⟩ := by
    interval_cases i <;> rfl
  have hin : InTy (ρ.value i) 8 false := by
    simp only [InTy,Bool.false_eq_true,if_false]
    omega
  have hval : varValue (threeBytes allDiff).types ρ i = ρ.value i := by
    rw [varValue,hty]
    exact wrap_of_inTy hin
  rw [bound,truth_varConst hop (by omega) hc',hty,hval,compares_nonneg hin hx.1 hc hc']

theorem threeBytes_sat (allDiff : List (List ℕ)) (l : List (ℕ × BinOp × ℤ)) (n : ℕ)
    (hl : ∀ e ∈ l, e.1 < 3 ∧ e.2.1.isCmp = true ∧ 0 ≤ e.2.2 ∧ e.2.2 < 2^63)
    (cs : List (ConstraintSpec Expr))
    (hcs : cs.map (·.root) = l.map fun e => bound e.2.1 e.1 e.2.2) :
    (⟨threeBytes allDiff,cs,[],n⟩ : Problem Frame Expr).Sat ↔
      ∃ x : ℕ → ℤ, (∀ i < 3, 0 ≤ x i ∧ x i ≤ 255) ∧ (∀ ids ∈ allDiff, (ids.map x).Nodup) ∧
        ∀ e ∈ l, cmpVal e.2.1 (x e.1) e.2.2 = true := by
  have hroots : ∀ P : Expr → Prop, (∀ d ∈ cs, P d.root) ↔
      ∀ e ∈ l, P (bound e.2.1 e.1 e.2.2) := fun P => by
    rw [← List.forall_mem_map (f := fun d : ConstraintSpec Expr => d.root),hcs,List.forall_mem_map]
  constructor
  · rintro ⟨ρ,⟨hv,hd⟩,hc⟩
    have hx := threeBytes_vars.mp hv
    refine ⟨ρ.value,hx,hd,fun e he => ?_⟩
    obtain ⟨hi,hop,h₀,h₁⟩ := hl e he
    exact (bound_truth hop allDiff hi (hx _ hi) h₀ h₁).mp
      ((hroots fun r => truth _ ρ r = true).mp hc e he)
  · rintro ⟨x,hx,hd,hc⟩
    refine ⟨⟨x,fun _ _ => 0,fun _ _ => 0,fun _ => false⟩,⟨threeBytes_vars.mpr hx,hd⟩,?_⟩
    refine (hroots fun r => truth _ _ r = true).mpr fun e he => ?_
    obtain ⟨hi,hop,h₀,h₁⟩ := hl e he
    exact (bound_truth hop allDiff hi (hx _ hi) h₀ h₁).mpr (hc e he)

def capped : Problem Frame Expr :=
  ⟨threeBytes [[0,1,2]],[⟨bound .lte 2 1,3⟩,⟨bound .lte 1 1,2⟩,⟨bound .lte 0 0,1⟩],[],3⟩

theorem capped_sat (l : List (ℕ × ℤ × ℕ)) (hl : ∀ e ∈ l, e.1 < 3 ∧ 0 ≤ e.2.1 ∧ e.2.1 < 2^63)
    (allDiff : List (List ℕ)) : (⟨threeBytes allDiff,l.map fun e => ⟨bound .lte e.1 e.2.1,e.2.2⟩,
      [],3⟩ : Problem Frame Expr).Sat ↔ ∃ x : ℕ → ℤ, (∀ i < 3, 0 ≤ x i ∧ x i ≤ 255) ∧
        (∀ ids ∈ allDiff, (ids.map x).Nodup) ∧ ∀ e ∈ l, x e.1 ≤ e.2.1 := by
  rw [threeBytes_sat allDiff (l.map fun e => (e.1,.lte,e.2.1)) 3 (fun e he => by
    obtain ⟨e',he',rfl⟩ := List.mem_map.mp he
    obtain ⟨h₁,h₂,h₃⟩ := hl e' he'
    exact ⟨h₁,rfl,h₂,h₃⟩) _ (by simp)]
  simp only [List.forall_mem_map,cmpVal,decide_eq_true_eq]

theorem relaxSearch_capped : relaxSearch exactSolver capped [1,2,3] 1 ⟨.increase,0,0,.lte⟩ =
    some ⟨true,1,1⟩ := by
  have hfeas : ∀ c : ℤ, 0 ≤ c → c < 2^63 →
      feasible exactSolver (buildRelaxedSubproblem capped [1,2,3] 1 c) = true := by
    intro c hc hc'
    obtain ⟨hsoft,hiff⟩ := buildRelaxedSubproblem_sat capped [1,2,3] 1 c
    rw [feasible_iff exactSolver_exact hsoft,hiff]
    refine (capped_sat [(2,1,3),(1,1,2),(0,c,1)] ?_ []).mpr ⟨fun _ => 0,by simp,by simp,?_⟩
    · simp [hc]
      omega
    · simp [hc]
  obtain ⟨feas,heq⟩ : ∃ feas : ℤ → Bool, feas = fun c =>
    feasible exactSolver (buildRelaxedSubproblem capped [1,2,3] 1 c) := ⟨_,rfl⟩
  have hrun : relaxSearch exactSolver capped [1,2,3] 1 ⟨.increase,0,0,.lte⟩ =
      if feas 255 then (bisect feas 64 0 255).map fun v => ⟨true,v,v - 0⟩ else some ⟨false,0,0⟩ := by
    rw [heq]
    rfl
  have hstep : ∀ (n : ℕ) (fv mid : ℤ), 1 < fv → fv < 256 → mid = 0 + (fv - 0).tdiv 2 → 0 ≤ mid →
      mid < 256 → bisect feas (n + 1) 0 fv = bisect feas n 0 mid := fun n fv mid h h' hm h₀ h₁ =>
    bisect_step (by rw [abs_of_pos] <;> omega) (by rw [abs_of_pos] <;> omega) hm
      (heq ▸ hfeas mid h₀ (by omega))
  have hbis : bisect feas 64 0 255 = some 1 := by
    rw [hstep 63 255 127,hstep 62 127 63,hstep 61 63 31,hstep 60 31 15,hstep 59 15 7,
      hstep 58 7 3,hstep 57 3 1]
    · rw [bisect_succ _ _ (by decide),if_pos (by decide)]
    all_goals decide
  have h255 : feas 255 = true := by
    rw [heq]
    exact hfeas 255 (by norm_num) (by norm_num)
  rw [hrun,if_pos h255,hbis]
  rfl

/-- The sub-problem leaves the all-different out: it is satisfiable with `x ≤ 1`, which is
reported, and the subset needs `x ≤ 2`. -/
theorem relaxSearch_drops_allDiff : exactSolver.ExactHard ∧
    (¬(subsetOf capped [1,2,3]).Sat ∧ (subsetOf capped [2,3]).Sat ∧ (subsetOf capped [1,3]).Sat ∧
      (subsetOf capped [1,2]).Sat) ∧
    relaxSearch exactSolver capped [1,2,3] 1 ⟨.increase,0,0,.lte⟩ = some ⟨true,1,1⟩ ∧
    ¬(relaxed capped [1,2,3] 1 1).Sat := by
  refine ⟨exactSolver_exact,⟨?_,?_,?_,?_⟩,relaxSearch_capped,?_⟩
  · refine fun h => ?_
    obtain ⟨x,hx,hd,hl⟩ := (capped_sat [(2,1,3),(1,1,2),(0,0,1)] (by simp) [[0,1,2]]).mp h
    have := hx 0; have := hx 1; have := hx 2
    simp at hd hl
    omega
  · exact (capped_sat [(2,1,3),(1,1,2)] (by simp) [[0,1,2]]).mpr
      ⟨fun i => if i = 0 then 2 else if i = 1 then 0 else 1,by decide,by simp,by simp⟩
  · exact (capped_sat [(2,1,3),(0,0,1)] (by simp) [[0,1,2]]).mpr
      ⟨fun i => if i = 0 then 0 else if i = 1 then 2 else 1,by decide,by simp,by simp⟩
  · exact (capped_sat [(1,1,2),(0,0,1)] (by simp) [[0,1,2]]).mpr
      ⟨fun i => if i = 0 then 0 else if i = 1 then 1 else 2,by decide,by simp,by simp⟩
  · refine fun h => ?_
    obtain ⟨x,hx,hd,hl⟩ := (capped_sat [(2,1,3),(1,1,2),(0,1,1)] (by simp) [[0,1,2]]).mp h
    have := hx 0; have := hx 1; have := hx 2
    simp at hd hl
    omega

def crossed : Problem Frame Expr :=
  ⟨threeBytes [],[⟨bound .gte 0 5,2⟩,⟨.binary .lte (.var 0) (.const 2 8 false),1⟩],[],2⟩

theorem relaxSearch_relaxes_crossed :
    ∃ out, relaxSearch exactSolver crossed [1,2] 1 ⟨.increase,0,2,.lte⟩ = some out ∧
      (out.isRelaxable = true → (relaxed crossed [1,2] 1 out.relaxedConstant).Sat ∧
        ∀ c, 2 < c → c < out.relaxedConstant → ¬(relaxed crossed [1,2] 1 c).Sat) := by
  have ht : Target crossed [1,2] ⟨.binary .lte (.var 0) (.const 2 8 false),1⟩
      ⟨.increase,0,2,.lte⟩ (byteVar 0) :=
    ⟨by decide,by simp [crossed],by simp,rfl,rfl,by decide⟩
  have hstart : ¬Probed crossed [1,2] 1 2 := fun h => by
    obtain ⟨x,-,-,hl⟩ := (threeBytes_sat [] [(0,.gte,5),(0,.lte,2)] 2 (by simp [BinOp.isCmp])
      (relaxed crossed [1,2] 1 2).constraints rfl).mp h
    simp [cmpVal] at hl
    omega
  have hsound := Sound.of_literal ht (by decide) (fun h => by cases h) hstart
    (fun h => by cases h) fun c h => h
  obtain ⟨out,hout,h⟩ := (relaxSearch_relaxes exactSolver crossed [1,2] _ _ _ exactSolver_exact
    ht).1 hsound
  exact ⟨out,hout,fun hr => ⟨(h hr).1,(h hr).2.1 rfl⟩⟩

end Contra
end DvSolve
