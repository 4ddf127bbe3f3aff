import DvSolve.SvExpr

/-! Values stay within the type of their context, and a node that does not take its context
on keeps its value in any wider context of its signedness. -/
namespace DvSolve
namespace Sv

open TwosComp

variable {Γ : ℕ → Ty} {ρ : Env}
variable {op : BinOp}

@[simp] theorem Ty.fix_w_pos (t : Ty) : 0 < t.fix.w := by
  unfold Ty.fix
  split_ifs with h
  · exact Nat.one_pos
  · omega

@[simp] theorem Ty.fix_s (t : Ty) : t.fix.s = t.s := by
  unfold Ty.fix
  split_ifs <;> rfl

theorem Ty.fix_w {t : Ty} (h : 0 < t.w) : t.fix.w = t.w := by
  rw [Ty.fix,if_neg (by omega)]

@[simp] theorem Ty.join_w (a b : Ty) : (a.join b).w = max a.w b.w := rfl

@[simp] theorem Ty.join_s (a b : Ty) : (a.join b).s = (a.s && b.s) := rfl

theorem constType_w_pos (value : ℤ) (width : ℕ) (isSigned : Bool) :
    0 < (constType value width isSigned).w := by
  unfold constType
  split_ifs with h
  · exact Nat.pos_of_ne_zero h
  all_goals simp

theorem ty_w_pos (Γ : ℕ → Ty) (e : Expr) : 0 < (ty Γ e).w := by
  induction e with
  | const value width isSigned => exact constType_w_pos value width isSigned
  | binary op l r ihl ihr =>
    rw [ty]
    split_ifs
    · exact lt_max_of_lt_left ihl
    · exact ihl
    · exact Nat.one_pos
  | unary op x ih =>
    rw [ty]
    split_ifs
    · exact Nat.one_pos
    · exact ih
  | ite c t e _ iht _ => exact lt_max_of_lt_left iht
  | constWide | var | extend | svCast | cast | extract | concat => exact Ty.fix_w_pos _
  | inRange | inSet | inRanges | other => exact Nat.one_pos

theorem ty_arith (h : op.isArith = true) (l r : Expr) :
    ty Γ (.binary op l r) = (ty Γ l).join (ty Γ r) := by rw [ty,if_pos h]

theorem ty_shift (h : op.isShift = true) (l r : Expr) :
    ty Γ (.binary op l r) = ty Γ l := by
  rw [ty,if_neg,if_pos h]
  cases op <;> simp_all [BinOp.isArith,BinOp.isShift]

theorem ty_bool (ha : op.isArith = false) (hs : op.isShift = false) (l r : Expr) :
    ty Γ (.binary op l r) = boolTy := by simp [ty,ha,hs]

theorem eval_arith (h : op.isArith = true) (l r : Expr) (W : ℕ) (S : Bool) :
    eval Γ ρ (.binary op l r) W S = arith ρ op ⟨W,S⟩ (eval Γ ρ l W S) (eval Γ ρ r W S) := by
  rw [eval,if_pos h]

theorem eval_shift (h : op.isShift = true) (l r : Expr) (W : ℕ) (S : Bool) :
    eval Γ ρ (.binary op l r) W S = shift op ⟨W,S⟩ (eval Γ ρ l W S)
      (pat (eval Γ ρ r (ty Γ r).w (ty Γ r).s) (ty Γ r).w) := by
  rw [eval,if_neg,if_pos h]
  cases op <;> simp_all [BinOp.isArith,BinOp.isShift]

theorem eval_cmp (h : op.isCmp = true) (l r : Expr) (W : ℕ) (S : Bool) :
    eval Γ ρ (.binary op l r) W S = let t := (ty Γ l).join (ty Γ r)
      ofBool (cmpVal op (eval Γ ρ l t.w t.s) (eval Γ ρ r t.w t.s)) := by
  rw [eval,if_neg,if_neg,if_pos h]
  · cases op <;> simp_all [BinOp.isShift,BinOp.isCmp]
  · cases op <;> simp_all [BinOp.isArith,BinOp.isCmp]

theorem eval_and (l r : Expr) (W : ℕ) (S : Bool) :
    eval Γ ρ (.binary .and l r) W S = ofBool (truth Γ ρ l && truth Γ ρ r) := by
  rw [eval,if_neg (by decide),if_neg (by decide),if_neg (by decide)]
  simp [truth]

theorem eval_or (l r : Expr) (W : ℕ) (S : Bool) :
    eval Γ ρ (.binary .or l r) W S = ofBool (truth Γ ρ l || truth Γ ρ r) := by
  rw [eval,if_neg (by decide),if_neg (by decide),if_neg (by decide)]
  simp [truth]

theorem eval_not (x : Expr) (W : ℕ) (S : Bool) :
    eval Γ ρ (.unary .not x) W S = ofBool (!truth Γ ρ x) := by
  rw [eval]
  simp [truth]

theorem eval_ite (c t e : Expr) (W : ℕ) (S : Bool) :
    eval Γ ρ (.ite c t e) W S = if truth Γ ρ c then eval Γ ρ t W S else eval Γ ρ e W S := by
  rw [eval]
  simp [truth]

@[simp] theorem ofBool_ne_zero (b : Bool) : ofBool b ≠ 0 ↔ b = true := by cases b <;> simp [ofBool]

theorem arith_inTy (h : op.isArith = true) (t : Ty) (a b : ℤ) :
    InTy (arith ρ op t a b) t.w t.s := by
  cases op <;> first | exact wrap_inTy _ _ _ | simp [BinOp.isArith] at h

theorem InTy_shiftRight {v : ℤ} {w : ℕ} {s : Bool} (h : InTy v w s) (n : ℕ) : InTy (v >>> n) w s := by
  have hn := two_pow_pos n
  rw [Int.shiftRight_eq_div_pow]
  push_cast
  unfold InTy at h ⊢
  cases s with
  | false =>
    exact ⟨Int.ediv_nonneg h.1 hn.le,lt_of_le_of_lt (Int.ediv_le_self _ h.1) h.2⟩
  | true =>
    simp only [if_true] at h ⊢
    rcases lt_or_ge v 0 with hv | hv
    · have hlow : v ≤ v/2^n := by
        apply Int.le_ediv_of_mul_le hn
        nlinarith [one_le_pow₀ (one_le_two (α := ℤ)) (n := n)]
      have hhigh : v/2^n < 0 := Int.ediv_neg_of_neg_of_pos hv hn
      constructor <;> omega
    · have hlow : 0 ≤ v/2^n := Int.ediv_nonneg hv hn.le
      have hhigh : v/2^n ≤ v := Int.ediv_le_self _ hv
      constructor <;> omega

/-- A number shifted right fits where it did. -/
theorem shiftRight_range {x : ℤ} {W : ℕ} {S : Bool} (hx : InTy x W S ∨ x = 1) (n : ℕ) : InTy (x >>> n) W S ∨ x >>> n = 1 := by
  rcases hx with h | rfl
  · exact Or.inl (InTy_shiftRight h n)
  · rw [Int.shiftRight_eq_div_pow]
    rcases Nat.eq_zero_or_pos n with rfl | hn
    · exact Or.inr (by norm_num)
    · left
      have h0 : (1 : ℤ)/((2^n : ℕ) : ℤ) = 0 := by
        apply Int.ediv_eq_zero_of_lt (by decide)
        push_cast
        exact one_lt_pow₀ (by norm_num) hn.ne'
      rw [h0]
      exact inTy_zero W S

/-- A value fits its context, unless it is the truth of an unsigned node read as signed. -/
theorem eval_range (e : Expr) (W : ℕ) (S : Bool) :
    InTy (eval Γ ρ e W S) W S ∨ eval Γ ρ e W S = 1 ∧ (ty Γ e).s = false := by
  have hbool : ∀ b : Bool, ∀ t : Ty, t.s = false → InTy (ofBool b) W S ∨ ofBool b = 1 ∧ t.s = false := by
    intro b t ht
    cases b with
    | false => exact Or.inl (inTy_zero W S)
    | true => exact Or.inr ⟨rfl,ht⟩
  induction e with
  | const | constWide | var | extend | svCast | cast | extract | concat =>
    exact Or.inl (wrap_inTy _ _ _)
  | inRange | inSet | inRanges | other => exact hbool _ boolTy rfl
  | binary op l r ihl _ =>
    by_cases ha : op.isArith = true
    · rw [eval_arith ha]
      exact Or.inl (arith_inTy ha ⟨W,S⟩ _ _)
    · by_cases hs : op.isShift = true
      · rw [eval_shift hs,ty_shift hs]
        unfold shift
        split
        · exact Or.inl (wrap_inTy _ _ _)
        · split_ifs with hS
          · rcases ihl with ihl | ⟨ihl,hty⟩
            · exact Or.inl (InTy_shiftRight ihl _)
            · rcases shiftRight_range (W := W) (S := S) (Or.inr ihl)
                (pat (eval Γ ρ r (ty Γ r).w (ty Γ r).s) (ty Γ r).w) with h | h
              · exact Or.inl h
              · exact Or.inr ⟨h,hty⟩
          · exact Or.inl (wrap_inTy _ _ _)
        · exact Or.inl (wrap_inTy _ _ _)
      · simp only [Bool.not_eq_true] at ha hs
        rw [ty_bool ha hs,eval,if_neg (by simp [ha]),if_neg (by simp [hs])]
        split_ifs <;> exact hbool _ boolTy rfl
  | unary op x ih =>
    cases op with
    | not =>
      rw [eval_not]
      exact hbool _ boolTy rfl
    | neg => exact Or.inl (wrap_inTy _ _ _)
    | invert => exact Or.inl (wrap_inTy _ _ _)
  | ite c t e _ iht ihe =>
    rw [eval_ite]
    split_ifs
    · rcases iht with h | ⟨h,ht⟩
      · exact Or.inl h
      · exact Or.inr ⟨h,by simp [ty,ht]⟩
    · rcases ihe with h | ⟨h,he⟩
      · exact Or.inl h
      · exact Or.inr ⟨h,by simp [ty,he]⟩

theorem eval_inTy {e : Expr} {W : ℕ} (hW : 0 < W) {S : Bool} (hS : S = true → (ty Γ e).s = true) :
    InTy (eval Γ ρ e W S) W S := by
  rcases eval_range (Γ := Γ) (ρ := ρ) e W S with h | ⟨h,hs⟩
  · exact h
  · cases S with
    | false =>
      rw [h]
      exact inTy_bit hW (b := true)
    | true => rw [hS rfl] at hs; exact absurd hs (by decide)

theorem eval_inTy_own (e : Expr) : InTy (eval Γ ρ e (ty Γ e).w (ty Γ e).s) (ty Γ e).w (ty Γ e).s :=
  eval_inTy (ty_w_pos Γ e) id

/-- The node does not take on its context: its value is that of its own type, extended. -/
def selfDetermined : Expr → Bool
  | .binary op _ _ => !op.isArith && !op.isShift
  | .unary op _ => op = .not
  | .ite _ _ _ => false
  | _ => true

theorem eval_selfDetermined {e : Expr} (h : selfDetermined e = true) {W : ℕ} {S : Bool}
    (hw : (ty Γ e).w ≤ W) (hS : S = (ty Γ e).s) :
    eval Γ ρ e W S = eval Γ ρ e (ty Γ e).w (ty Γ e).s := by
  subst hS
  cases e with
  | const value width isSigned =>
    simp only [eval,ty,constValue] at hw ⊢
    rw [wrap_wider (wrap_inTy _ _ _) hw,wrap_wider (wrap_inTy _ _ _) (le_refl _)]
  | constWide bits width isSigned =>
    simp only [eval,ty,Ty.fix_s] at hw ⊢
    rw [wrap_wider (wrap_inTy _ _ _) hw,wrap_wider (wrap_inTy _ _ _) (le_refl _)]
  | var varId =>
    simp only [eval,ty] at hw ⊢
    rw [wrap_wider (wrap_inTy _ _ _) hw,wrap_wider (wrap_inTy _ _ _) (le_refl _)]
  | binary op l r =>
    simp only [selfDetermined,Bool.and_eq_true,Bool.not_eq_true'] at h
    simp [eval,h.1,h.2]
  | unary op x =>
    obtain rfl : op = .not := by simpa [selfDetermined] using h
    rw [eval_not,eval_not]
  | ite => simp [selfDetermined] at h
  | inRange | inSet | inRanges | other => simp only [eval]
  | extend | svCast | cast | extract | concat =>
    simp only [eval,ty,Ty.fix_s] at hw ⊢
    rw [wrap_wider (wrap_inTy _ _ _) hw,wrap_wider (wrap_inTy _ _ _) (le_refl _)]

/-- In a context of either signedness such a node holds when it is nonzero. -/
theorem eval_ne_zero_iff {e : Expr} (h : selfDetermined e = true) {W : ℕ} (S : Bool)
    (hw : (ty Γ e).w ≤ W) : eval Γ ρ e W S ≠ 0 ↔ truth Γ ρ e = true := by
  have hwrap : ∀ {v : ℤ} {w : ℕ} {s : Bool}, InTy v w s → w ≤ W → (wrap v W S ≠ 0 ↔ wrap v w s ≠ 0) := by
    intro v w s hv hle
    rw [ne_eq,ne_eq,wrap_eq_zero hv hle S,wrap_eq_zero hv (le_refl w) s]
  rw [truth,decide_eq_true_eq]
  cases e with
  | const value width isSigned => exact hwrap (wrap_inTy _ _ _) hw
  | constWide | var | extend | svCast | cast | extract | concat =>
    simp only [eval,ty,Ty.fix_s] at hw ⊢
    exact hwrap (wrap_inTy _ _ _) hw
  | binary op l r =>
    simp only [selfDetermined,Bool.and_eq_true,Bool.not_eq_true'] at h
    simp [eval,h.1,h.2]
  | unary op x =>
    obtain rfl : op = .not := by simpa [selfDetermined] using h
    rw [eval_not,eval_not]
  | ite => simp [selfDetermined] at h
  | inRange | inSet | inRanges | other => simp only [eval]

end Sv
end DvSolve
