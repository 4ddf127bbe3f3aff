import DvSolve.PropIte

/-! The least and the greatest of several variables: `_fire_min_of_n_32` and
`_fire_max_of_n_32`. -/
namespace DvSolve
namespace Solver

open BitVec (sle_iff_toInt_le)
open Bool (false_eq_true)
open List (forall_mem_cons mem_cons mem_cons_of_mem mem_cons_self)

variable {v : Variable} {vars vars' vars₀ : ℕ → Variable} {s : Engine} {W : List ℕ} {σ : ℕ → ℤ}

/-- Whether `a` takes the place of `b` in the fold: with `ub` for a maximum, else for a minimum. -/
def takesOver (ub : Bool) (a b : BitVec 64) : Bool := if ub then b.slt a else a.slt b

def foldStep (ub : Bool) (a e : BitVec 64) : BitVec 64 := if takesOver ub e a then e else a

def foldEnds (ub : Bool) :
    List ℕ → BitVec 64 → BitVec 64 → (BitVec 64 → BitVec 64 → Fire) → Fire
  | [], lo, hi, next => next lo hi
  | y :: ys, lo, hi, next => .read y fun v =>
    foldEnds ub ys (foldStep ub lo (varLo64 v)) (foldStep ub hi (varHi64 v)) next

def tightenEach (ub : Bool) (b : BitVec 64) : List ℕ → Fire → Fire
  | [], next => next
  | y :: ys, next => .need (if ub then .ub64 else .lb64) y b (tightenEach ub b ys next)

def canAchieve (v : Variable) (rval : BitVec 64) : Bool :=
  (varLo64 v).sle rval && rval.sle (varHi64 v)

def achievers (rval : BitVec 64) : List ℕ → ℕ → ℕ → (ℕ → ℕ → Fire) → Fire
  | [], n, last, next => next n last
  | y :: ys, n, last, next => .read y fun v =>
    if canAchieve v rval then achievers rval ys (n+1) y next else achievers rval ys n last next

def allSingle : List ℕ → Fire
  | [] => .done .entailed
  | y :: ys => .read y fun v => if varLo64 v ≠ varHi64 v then .done .ok else allSingle ys

/-- The body of both fires, for the result `r` and the operands `x :: xs`. -/
def fireOfN (ub : Bool) (r x : ℕ) (xs : List ℕ) : Fire :=
  .read x fun vx =>
  foldEnds ub xs (varLo64 vx) (varHi64 vx) fun lo hi =>
  .need .lb64 r lo <| .need .ub64 r hi <| .read r fun vr =>
  tightenEach ub (if ub then varHi64 vr else varLo64 vr) (x :: xs) <| .read r fun vr =>
  if varLo64 vr = varHi64 vr then
    achievers (varLo64 vr) (x :: xs) 0 r fun n last =>
      if n = 0 then .done .conflict
      else if n = 1 then .between last (varLo64 vr) (varLo64 vr) <| allSingle (r :: x :: xs)
      else allSingle (r :: x :: xs)
  else allSingle (r :: x :: xs)

def fireMinOfN32 (r x : ℕ) (xs : List ℕ) : Fire := fireOfN false r x xs

def fireMaxOfN32 (r x : ℕ) (xs : List ℕ) : Fire := fireOfN true r x xs

def foldOf (ub : Bool) (f : Variable → BitVec 64) (vars : ℕ → Variable) (x : ℕ) (xs : List ℕ) :
    BitVec 64 :=
  (xs.map fun y => f (vars y)).foldl (foldStep ub) (f (vars x))

theorem foldStep_toInt (ub : Bool) (a e : BitVec 64) : (foldStep ub a e).toInt =
    if ub then max a.toInt e.toInt else min a.toInt e.toInt := by
  unfold foldStep takesOver
  cases ub <;> simp only [false_eq_true,if_false,if_true,BitVec.slt_iff_toInt_lt] <;>
    split_ifs <;> omega

theorem foldl_foldStep_mem (ub : Bool) (a : BitVec 64) (l : List (BitVec 64)) :
    l.foldl (foldStep ub) a ∈ a :: l := by
  induction l generalizing a with
  | nil => simp
  | cons e l ih =>
    have hstep : foldStep ub a e = a ∨ foldStep ub a e = e := by
      unfold foldStep
      split_ifs
      · exact .inr rfl
      · exact .inl rfl
    rw [List.foldl_cons]
    have := ih (foldStep ub a e)
    rcases hstep with h | h <;> rw [h] at this ⊢ <;> simp only [mem_cons] at this ⊢ <;> tauto

theorem foldl_foldStep_bound (ub : Bool) (a : BitVec 64) (l : List (BitVec 64)) :
    ∀ e ∈ a :: l, if ub then e.toInt ≤ (l.foldl (foldStep ub) a).toInt
      else (l.foldl (foldStep ub) a).toInt ≤ e.toInt := by
  induction l generalizing a with
  | nil =>
    intro e he
    obtain rfl := List.mem_singleton.mp he
    split_ifs <;> exact le_rfl
  | cons e l ih =>
    have hacc := ih (foldStep ub a e) _ mem_cons_self
    have hs := foldStep_toInt ub a e
    intro y hy
    rw [List.foldl_cons]
    simp only [mem_cons] at hy
    rcases hy with rfl | rfl | hy
    · cases ub <;> simp only [false_eq_true,if_false,if_true] at hacc hs ⊢ <;> omega
    · cases ub <;> simp only [false_eq_true,if_false,if_true] at hacc hs ⊢ <;> omega
    · exact ih _ y (mem_cons_of_mem _ hy)

section Folded

variable {ub : Bool} {f : Variable → BitVec 64} {x : ℕ} {xs : List ℕ}

theorem foldOf_mem (ub : Bool) (f : Variable → BitVec 64) (vars : ℕ → Variable) (x : ℕ)
    (xs : List ℕ) : ∃ y ∈ x :: xs, foldOf ub f vars x xs = f (vars y) := by
  have h := foldl_foldStep_mem ub (f (vars x)) (xs.map fun y => f (vars y))
  rw [mem_cons,List.mem_map] at h
  rcases h with h | ⟨y,hy,h⟩
  · exact ⟨x,mem_cons_self,h⟩
  · exact ⟨y,mem_cons_of_mem _ hy,h.symm⟩

theorem foldOf_bound (ub : Bool) (f : Variable → BitVec 64) (vars : ℕ → Variable) {y : ℕ}
    (hy : y ∈ x :: xs) :
    if ub then (f (vars y)).toInt ≤ (foldOf ub f vars x xs).toInt
      else (foldOf ub f vars x xs).toInt ≤ (f (vars y)).toInt := by
  refine foldl_foldStep_bound ub _ _ _ ?_
  rw [mem_cons] at hy ⊢
  rcases hy with rfl | hy
  · exact .inl rfl
  · exact .inr (List.mem_map_of_mem (f:=fun y => f (vars y)) hy)

end Folded

section Loops

variable {ub : Bool} {b p lo hi : BitVec 64} {ys : List ℕ} {r x : ℕ} {xs : List ℕ} {next : Fire}
  {Q : PropResult → (ℕ → Variable) → Prop}

theorem wp_foldFrom {next : BitVec 64 → BitVec 64 → Fire} :
    (foldEnds ub ys lo hi next).wp Q vars ↔
      (next ((ys.map fun y => varLo64 (vars y)).foldl (foldStep ub) lo)
        ((ys.map fun y => varHi64 (vars y)).foldl (foldStep ub) hi)).wp Q vars := by
  induction ys generalizing lo hi with
  | nil => rfl
  | cons y ys ih => exact ih

theorem wp_foldEnds {next : BitVec 64 → BitVec 64 → Fire} :
    (foldEnds ub xs (varLo64 (vars x)) (varHi64 (vars x)) next).wp Q vars ↔
      (next (foldOf ub varLo64 vars x xs) (foldOf ub varHi64 vars x xs)).wp Q vars := wp_foldFrom

theorem wp_allSingle : (allSingle ys).wp Q vars ↔
    if ∀ y ∈ ys, varLo64 (vars y) = varHi64 (vars y) then Q .entailed vars else Q .ok vars := by
  induction ys with
  | nil => simp [allSingle,Fire.wp]
  | cons y ys ih =>
    simp only [allSingle,Fire.wp,forall_mem_cons]
    by_cases h : varLo64 (vars y) = varHi64 (vars y)
    · rw [if_neg (not_not.mpr h),ih]
      simp only [h,true_and]
    · rw [if_pos h,if_neg (fun hc => h hc.1)]
      rfl

theorem wp_achievers {n last : ℕ} {next : ℕ → ℕ → Fire} : (achievers p ys n last next).wp Q vars ↔
    (next (n+(ys.filter fun y => canAchieve (vars y) p).length)
      ((ys.filter fun y => canAchieve (vars y) p).getLastD last)).wp Q vars := by
  induction ys generalizing n last with
  | nil => rfl
  | cons y ys ih =>
    simp only [achievers,Fire.wp,List.filter_cons]
    split_ifs
    · rw [ih,List.length_cons,List.getLastD_cons,show n+1+(ys.filter fun y =>
        canAchieve (vars y) p).length = n+((ys.filter fun y => canAchieve (vars y) p).length+1) by
          omega]
    · exact ih

theorem wp_forced {last : ℕ} (h : match ys.filter (fun y => canAchieve (vars y) p) with
      | [] => Q .conflict vars
      | [y] => (Fire.between y p p next).wp Q vars
      | _ :: _ :: _ => next.wp Q vars) :
    (achievers p ys 0 last fun n last => if n = 0 then .done .conflict
      else if n = 1 then .between last p p next else next).wp Q vars := by
  rw [wp_achievers]
  generalize ys.filter (fun y => canAchieve (vars y) p) = l at h ⊢
  rcases l with _ | ⟨y,_ | ⟨z,l⟩⟩
  · rw [List.length_nil,if_pos (Nat.zero_add 0)]
    exact h
  · rw [List.length_singleton,if_neg (by simp),if_pos (Nat.zero_add 1)]
    exact h
  · rw [List.length_cons,List.length_cons,if_neg (by omega),if_neg (by omega)]
    exact h

def KeepsTo (ub : Bool) (b : BitVec 64) (v : Variable) : Prop :=
  if ub then v.most ≤ varOrd v b else varOrd v b ≤ v.least

theorem KeepsTo.mono {y : ℕ} (h : KeepsTo ub b (vars y)) (ht : Typed W vars vars') :
    KeepsTo ub b (vars' y) := by
  unfold KeepsTo at h ⊢
  rw [(ht.same y).varOrd]
  split_ifs at h ⊢
  · exact (ht.most y).trans h
  · exact h.trans (ht.least y)

abbrev endOf (ub : Bool) : Tighten := if ub then .ub64 else .lb64

theorem fits_end (ub : Bool) (v : Variable) : (endOf ub).Fits v := by cases ub <;> trivial

theorem least_end (ub : Bool) (v : Variable) (b : BitVec 64) :
    (endOf ub).least v ((endOf ub).num v b) = if ub then v.least else max v.least (varOrd v b) := by
  cases ub <;> rfl

theorem most_end (ub : Bool) (v : Variable) (b : BitVec 64) :
    (endOf ub).most v ((endOf ub).num v b) = if ub then min v.most (varOrd v b) else v.most := by
  cases ub <;> rfl

theorem wp_tightenEach_keeps (hys : ∀ y ∈ ys, y ∈ W) (ht : Typed W vars₀ vars)
    (hσ : Inside W vars σ)
    (hb : ∀ y ∈ ys, if ub then σ y ≤ varOrd (vars₀ y) b else varOrd (vars₀ y) b ≤ σ y)
    (hk : ∀ vars', Typed W vars vars' → Inside W vars' σ → (∀ y ∈ ys, KeepsTo ub b (vars' y)) →
      next.wp Q vars') : (tightenEach ub b ys next).wp Q vars := by
  induction ys generalizing vars with
  | nil => exact hk vars (.refl ht.ok) hσ (by simp)
  | cons y ys ih =>
    rw [forall_mem_cons] at hys hb
    refine Fire.wp_tighten_moved ht hσ hys.1 (fits_end ub _) ?_ fun vars₁ ht₁ hσ₁ hm => ?_
    · cases ub <;> exact hb.1
    · rw [if_pos rfl]
      refine ih hys.2 (ht.trans ht₁) hσ₁ hb.2 fun vars₂ ht₂ hσ₂ hm₂ => ?_
      have hy : KeepsTo ub b (vars₁ y) := by
        unfold KeepsTo
        rw [((ht.trans ht₁).same y).varOrd]
        cases ub <;> exact hm
      exact hk vars₂ (ht₁.trans ht₂) hσ₂ (forall_mem_cons.mpr ⟨hy.mono ht₂,hm₂⟩)

/-- The bound is set, and a variable that met it before has the ends it had. -/
theorem wp_tightenEach (hys : ∀ y ∈ ys, y ∈ W) (ht : Typed W vars₀ vars)
    (hQ : ∀ vars', Q .conflict vars')
    (hk : ∀ vars', Typed W vars vars' → (∀ y ∈ ys, KeepsTo ub b (vars' y)) →
      (∀ y, KeepsTo ub b (vars y) → (vars' y).least = (vars y).least ∧
        (vars' y).most = (vars y).most) → (∀ y ∉ ys, vars' y = vars y) → next.wp Q vars') :
    (tightenEach ub b ys next).wp Q vars := by
  induction ys generalizing vars with
  | nil => exact hk vars (.refl ht.ok) (by simp) (fun _ _ => ⟨rfl,rfl⟩) fun _ _ => rfl
  | cons y ys ih =>
    rw [forall_mem_cons] at hys
    refine Fire.wp_need_step hys.1 ht (fits_end ub _) hQ fun vars₁ ht₁ hl hm hf => ?_
    rw [← ht.num,least_end] at hl
    rw [← ht.num,most_end] at hm
    have hsame : ∀ z, KeepsTo ub b (vars z) → (vars₁ z).least = (vars z).least ∧
        (vars₁ z).most = (vars z).most := fun z hz => by
      by_cases hzy : z = y
      · subst hzy
        rw [hl,hm]
        unfold KeepsTo at hz
        split_ifs at hz ⊢
        · exact ⟨rfl,min_eq_left hz⟩
        · exact ⟨max_eq_left hz,rfl⟩
      · rw [hf z hzy]
        exact ⟨rfl,rfl⟩
    have hy : KeepsTo ub b (vars₁ y) := by
      unfold KeepsTo
      rw [(ht₁.same y).varOrd,hl,hm]
      split_ifs
      · exact min_le_right _ _
      · exact le_max_right _ _
    refine ih hys.2 (ht.trans ht₁) fun vars₂ ht₂ hm₂ hs₂ hf₂ => hk vars₂ (ht₁.trans ht₂)
      (forall_mem_cons.mpr ⟨hy.mono ht₂,hm₂⟩) (fun z hz => ?_) fun z hz => ?_
    · have h1 := hsame z hz
      have h2 := hs₂ z (hz.mono ht₁)
      exact ⟨h2.1.trans h1.1,h2.2.trans h1.2⟩
    · rw [mem_cons,not_or] at hz
      exact (hf₂ z hz.2).trans (hf z hz.1)

theorem wp_tightenEach_pinned (hys : ∀ y ∈ ys, y ∈ W) (ht : Typed W vars₀ vars)
    (hp : Pinned W vars σ) (hQ : ∀ vars', Q .conflict vars')
    (hk : ∀ vars', Typed W vars₀ vars' → Pinned W vars' σ → next.wp Q vars') :
    (tightenEach ub b ys next).wp Q vars := by
  induction ys generalizing vars with
  | nil => exact hk vars ht hp
  | cons y ys ih =>
    rw [forall_mem_cons] at hys
    exact Fire.wp_need_pinned ht hp hys.1 (fits_end ub _) hQ fun _ vars₁ ht₁ hp₁ =>
      ih hys.2 ht₁ hp₁

end Loops

/-- `σ r` is one of the operands' numbers, and none is beyond it. -/
def PickRel (ub : Bool) (r : ℕ) (ops : List ℕ) (σ : ℕ → ℤ) : Prop :=
  (∃ y ∈ ops, σ y = σ r) ∧ ∀ y ∈ ops, if ub then σ y ≤ σ r else σ r ≤ σ y

def MinRel (r : ℕ) (ops : List ℕ) (σ : ℕ → ℤ) : Prop := IsLeast (σ '' {y | y ∈ ops}) (σ r)

def MaxRel (r : ℕ) (ops : List ℕ) (σ : ℕ → ℤ) : Prop := IsGreatest (σ '' {y | y ∈ ops}) (σ r)

theorem minRel_eq (r : ℕ) (ops : List ℕ) : MinRel r ops = PickRel false r ops := by
  funext σ
  exact propext (and_congr Iff.rfl (by simp [lowerBounds]))

theorem maxRel_eq (r : ℕ) (ops : List ℕ) : MaxRel r ops = PickRel true r ops := by
  funext σ
  exact propext (and_congr Iff.rfl (by simp [upperBounds]))

theorem varOrd_same {v w : Variable} {b : BitVec 64}
    (h : w.beyond = v.beyond ∨ 0 ≤ varOrd v b ∧ varOrd v b < 2^63) : varOrd w b = varOrd v b := by
  have hb := word_cases b
  cases hv : v.beyond <;> cases hw : w.beyond <;>
    simp only [varOrd_plain,varOrd_beyond,hv,hw,false_eq_true,Bool.true_eq_false,
      false_or] at h ⊢ <;> omega

section Fires

variable {ub : Bool} {b : BitVec 64} {r x : ℕ} {xs : List ℕ}
  {Q : PropResult → (ℕ → Variable) → Prop}

/-- The bound of the result that the operands keep to. -/
def outer (ub : Bool) (v : Variable) : BitVec 64 := if ub then varHi64 v else varLo64 v

/-- What the variables hold when the operands are tightened. -/
structure Fronted (ub : Bool) (r x : ℕ) (xs : List ℕ) (vars vars₁ : ℕ → Variable) : Prop where
  typed : Typed (r :: x :: xs) vars vars₁
  least : varOrd (vars r) (foldOf ub varLo64 vars x xs) ≤ (vars₁ r).least
  most : (vars₁ r).most ≤ varOrd (vars r) (foldOf ub varHi64 vars x xs)

theorem fireOfN_keeps (hok : ∀ v ∈ r :: x :: xs, (vars v).Ok) (hσ : Inside (r :: x :: xs) vars σ)
    (hlo : varOrd (vars r) (foldOf ub varLo64 vars x xs) ≤ σ r)
    (hhi : σ r ≤ varOrd (vars r) (foldOf ub varHi64 vars x xs))
    (hk : ∀ vars₁, Fronted ub r x xs vars vars₁ → Inside (r :: x :: xs) vars₁ σ →
      (∀ y ∈ x :: xs, if ub then σ y ≤ varOrd (vars y) (outer ub (vars₁ r))
        else varOrd (vars y) (outer ub (vars₁ r)) ≤ σ y) ∧
      ∀ vars₂, Typed (r :: x :: xs) vars₁ vars₂ → Inside (r :: x :: xs) vars₂ σ →
        (∀ y ∈ x :: xs, KeepsTo ub (outer ub (vars₁ r)) (vars₂ y)) →
        varLo64 (vars₂ r) = varHi64 (vars₂ r) → ∃ y ∈ x :: xs,
          canAchieve (vars₂ y) (varLo64 (vars₂ r)) ∧ σ y = varOrd (vars y) (varLo64 (vars₂ r))) :
    (fireOfN ub r x xs).wp (fun res vars' => res ≠ .conflict ∧ Inside (r :: x :: xs) vars' σ)
      vars := by
  have hr : r ∈ r :: x :: xs := mem_cons_self
  have hops : ∀ y ∈ x :: xs, y ∈ r :: x :: xs := fun y hy => mem_cons_of_mem _ hy
  unfold fireOfN
  simp only [Fire.wp]
  rw [wp_foldEnds]
  refine Fire.wp_tighten_moved (.refl hok) hσ hr trivial hlo fun va hta hσa hla => ?_
  rw [if_pos rfl]
  refine Fire.wp_tighten_moved hta hσa hr trivial hhi fun vars₁ ht₁ hσ₁ hm₁ => ?_
  have hfront : Fronted ub r x xs vars vars₁ := ⟨hta.trans ht₁,hla.trans (ht₁.least r),hm₁⟩
  obtain ⟨hback,hach⟩ := hk vars₁ hfront hσ₁
  rw [if_pos rfl]
  refine wp_tightenEach_keeps hops hfront.typed hσ₁ hback fun vars₂ ht₂ hσ₂ hmeets => ?_
  have ht := hfront.typed.trans ht₂
  have hsingle : ∀ vars', Inside (r :: x :: xs) vars' σ → (allSingle (r :: x :: xs)).wp
      (fun res vars' => res ≠ .conflict ∧ Inside (r :: x :: xs) vars' σ) vars' := fun vars' h => by
    rw [wp_allSingle]
    split_ifs <;> exact ⟨by simp,h⟩
  simp only [Fire.wp]
  split_ifs with hone
  · obtain ⟨y,hy,hcan,hval⟩ := hach vars₂ ht₂ hσ₂ hmeets hone
    refine wp_forced ?_
    have hmem : y ∈ (x :: xs).filter (fun y => canAchieve (vars₂ y) (varLo64 (vars₂ r))) :=
      List.mem_filter.mpr ⟨hy,hcan⟩
    generalize (x :: xs).filter (fun y => canAchieve (vars₂ y) (varLo64 (vars₂ r))) = l at hmem ⊢
    rcases l with _ | ⟨z,_ | ⟨z',l⟩⟩
    · exact absurd hmem List.not_mem_nil
    · obtain rfl := List.mem_singleton.mp hmem
      exact Fire.wp_between ht hσ₂ (hops y hy) hval.ge hval.le fun vars₃ _ hσ₃ => hsingle vars₃ hσ₃
    · exact hsingle vars₂ hσ₂
  · exact hsingle vars₂ hσ₂

theorem fireOfN_pinned (hok : ∀ v ∈ r :: x :: xs, (vars v).Ok) (hp : Pinned (r :: x :: xs) vars σ) :
    (fireOfN ub r x xs).wp (fun res vars' => res = .conflict ∨
      res = .entailed ∧ Inside (r :: x :: xs) vars' σ) vars := by
  have hr : r ∈ r :: x :: xs := mem_cons_self
  have hops : ∀ y ∈ x :: xs, y ∈ r :: x :: xs := fun y hy => mem_cons_of_mem _ hy
  have hsingle : ∀ vars', Pinned (r :: x :: xs) vars' σ → (allSingle (r :: x :: xs)).wp
      (fun res vars' => res = .conflict ∨ res = .entailed ∧ Inside (r :: x :: xs) vars' σ)
        vars' := fun vars' h => by
    rw [wp_allSingle,if_pos fun y hy => (single_iff _).mpr ((h.least y hy).trans (h.most y hy).symm)]
    exact .inr ⟨rfl,h.inside⟩
  unfold fireOfN
  simp only [Fire.wp]
  rw [wp_foldEnds]
  refine Fire.wp_need_pinned (.refl hok) hp hr trivial (fun _ => .inl rfl) fun _ va hta hpa => ?_
  refine Fire.wp_need_pinned hta hpa hr trivial (fun _ => .inl rfl) fun _ vars₁ ht₁ hp₁ => ?_
  refine wp_tightenEach_pinned hops ht₁ hp₁ (fun _ => .inl rfl) fun vars₂ ht₂ hp₂ => ?_
  simp only [Fire.wp]
  split_ifs
  · refine wp_forced ?_
    have hsub : ∀ z ∈ (x :: xs).filter (fun y => canAchieve (vars₂ y) (varLo64 (vars₂ r))),
        z ∈ x :: xs := fun z hz => (List.mem_filter.mp hz).1
    generalize (x :: xs).filter (fun y => canAchieve (vars₂ y) (varLo64 (vars₂ r))) = l at hsub ⊢
    rcases l with _ | ⟨z,_ | ⟨z',l⟩⟩
    · exact .inl rfl
    · exact Fire.wp_between_pinned ht₂ hp₂ (hops z (hsub z (List.mem_singleton_self z)))
        (fun _ => .inl rfl) fun _ _ vars₃ _ hp₃ => hsingle vars₃ hp₃
    · exact hsingle vars₂ hp₂
  · exact hsingle vars₂ hp₂

/-- Patterns of the result read the same by the operands, once its ends are known. -/
def Agree (ub : Bool) (r x : ℕ) (xs : List ℕ) (vars : ℕ → Variable) : Prop :=
  (∀ y ∈ x :: xs, (vars y).beyond = (vars r).beyond) ∨ 0 ≤ varOrd (vars r) (foldOf ub varLo64 vars x xs) ∧
      varOrd (vars r) (foldOf ub varHi64 vars x xs) < 2^63

theorem Agree.varOrd {vars₁ : ℕ → Variable} (h : Agree ub r x xs vars)
    (hf : Fronted ub r x xs vars vars₁) {y : ℕ} (hy : y ∈ x :: xs)
    (h1 : (vars₁ r).least ≤ varOrd (vars r) b) (h2 : varOrd (vars r) b ≤ (vars₁ r).most) :
    varOrd (vars y) b = varOrd (vars r) b := by
  refine varOrd_same (h.imp (fun h => h y hy) fun h => ?_)
  exact ⟨h.1.trans (hf.least.trans h1),(h2.trans hf.most).trans_lt h.2⟩

theorem fireOfN_entails (hok : ∀ v ∈ r :: x :: xs, (vars v).Ok)
    (hag : (∃ σ, Inside (r :: x :: xs) vars σ) → Agree ub r x xs vars) :
    (fireOfN ub r x xs).wp (fun res vars' => res = .entailed →
      ∀ σ, Inside (r :: x :: xs) vars' σ → PickRel ub r (x :: xs) σ) vars := by
  have hr : r ∈ r :: x :: xs := mem_cons_self
  have hops : ∀ y ∈ x :: xs, y ∈ r :: x :: xs := fun y hy => mem_cons_of_mem _ hy
  unfold fireOfN
  simp only [Fire.wp]
  rw [wp_foldEnds]
  refine Fire.wp_need_step hr (.refl hok) trivial (by simp) fun va hta hla _ _ => ?_
  refine Fire.wp_need_step hr hta trivial (by simp) fun vars₁ ht₁ _ hm₁ _ => ?_
  simp only [Tighten.least,Tighten.most,Tighten.isUb,Tighten.num,if_true,false_eq_true,
    if_false] at hla hm₁
  have hfront : Fronted ub r x xs vars vars₁ := by
    refine ⟨hta.trans ht₁,?_,?_⟩
    · exact (hla.ge.trans' (le_max_right _ _)).trans (ht₁.least r)
    · exact hm₁.le.trans (min_le_right _ _)
  refine wp_tightenEach hops hfront.typed (by simp) fun vars₂ ht₂ hmeets hsame _ => ?_
  have ht := hfront.typed.trans ht₂
  -- the result keeps its own bound, so its value is the bound the operands were given
  have hends : (vars₂ r).least = (vars₁ r).least ∧ (vars₂ r).most = (vars₁ r).most := by
    refine hsame r ?_
    unfold KeepsTo
    split_ifs <;> exact le_rfl
  have hdone : ∀ vars₃, Typed (r :: x :: xs) vars₂ vars₃ → varLo64 (vars₂ r) = varHi64 (vars₂ r) →
      (∃ y ∈ x :: xs, (∀ z ∈ r :: x :: xs, varLo64 (vars₃ z) = varHi64 (vars₃ z)) →
        varLo64 (vars₃ y) = varLo64 (vars₂ r)) →
      (allSingle (r :: x :: xs)).wp (fun res vars' => res = .entailed →
        ∀ σ, Inside (r :: x :: xs) vars' σ → PickRel ub r (x :: xs) σ) vars₃ :=
    fun vars₃ ht₃ hone hach => by
    rw [wp_allSingle]
    split_ifs with hall
    · intro _ σ hσ
      obtain ⟨y,hy,hval⟩ := hach
      have hin : Inside (r :: x :: xs) vars₂ σ := ht₃.inside hσ
      have hA := hag ⟨σ,ht.inside hin⟩
      have hr1 := hin.least r hr
      have hr2 := hin.most r hr
      have hone' := (single_iff _).mp hone
      have hval_r : varOrd (vars r) (varLo64 (vars₂ r)) = σ r := by
        rw [← (ht.same r).varOrd]
        exact le_antisymm hr1 (hr2.trans hone'.ge)
      have hord : ∀ z ∈ x :: xs, varOrd (vars z) (varLo64 (vars₂ r)) = σ r := fun z hz => by
        rw [← hval_r]
        refine hA.varOrd hfront hz ?_ ?_ <;> rw [hval_r]
        · exact hends.1 ▸ hr1
        · exact hends.2 ▸ hr2
      refine ⟨⟨y,hy,?_⟩,fun z hz => ?_⟩
      · have h1 := hσ.least y (hops y hy)
        have h2 := hσ.most y (hops y hy)
        have h3 := (single_iff _).mp (hall y (hops y hy))
        have h4 : (vars₃ y).least = σ r := by
          rw [Variable.least,hval hall,((ht.trans ht₃).same y).varOrd,hord y hy]
        omega
      · have hb : outer ub (vars₁ r) = varLo64 (vars₂ r) := by
          refine varOrd_inj (v:=vars r) ?_
          rw [hval_r]
          have h1 : (vars₂ r).least = σ r := le_antisymm hr1 (hr2.trans hone'.ge)
          rw [outer,← (hfront.typed.same r).varOrd]
          split_ifs
          · exact hends.2.symm.trans (hone'.symm.trans h1)
          · exact hends.1.symm.trans h1
        have hz' := (hmeets z hz).mono ht₃
        unfold KeepsTo at hz'
        rw [((ht.trans ht₃).same z).varOrd] at hz'
        have h5 := hord z hz
        rw [← hb,outer] at h5
        split_ifs at hz' h5 ⊢
        · exact (hσ.most z (hops z hz)).trans (hz'.trans h5.le)
        · exact (h5.ge.trans hz').trans (hσ.least z (hops z hz))
    · simp
  simp only [Fire.wp]
  split_ifs with hone
  · refine wp_forced ?_
    have hsub : ∀ z ∈ (x :: xs).filter (fun y => canAchieve (vars₂ y) (varLo64 (vars₂ r))),
        z ∈ x :: xs ∧ canAchieve (vars₂ z) (varLo64 (vars₂ r)) = true :=
      fun z hz => List.mem_filter.mp hz
    generalize (x :: xs).filter (fun y => canAchieve (vars₂ y) (varLo64 (vars₂ r))) = l at hsub ⊢
    rcases l with _ | ⟨z,_ | ⟨z',l⟩⟩
    · simp
    · have hz := (hsub z (List.mem_singleton_self z)).1
      refine Fire.wp_need_step (hops z hz) ht trivial (by simp) fun v₃ ht₃ hl₃ _ _ => ?_
      refine Fire.wp_need_step (hops z hz) (ht.trans ht₃) trivial (by simp)
        fun v₄ ht₄ _ hm₄ _ => ?_
      refine hdone v₄ (ht₃.trans ht₄) hone ⟨z,hz,fun hall => ?_⟩
      simp only [Tighten.least,Tighten.most,Tighten.isUb,Tighten.num,if_true,false_eq_true,
        if_false] at hl₃ hm₄
      have h3 := (single_iff _).mp (hall z (hops z hz))
      have h4 := ht₄.least z
      refine varOrd_inj (v:=v₄ z) ?_
      rw [(((ht.trans ht₃).trans ht₄).same z).varOrd (varLo64 (vars₂ r))]
      change (v₄ z).least = _
      omega
    · have hz := hsub z mem_cons_self
      refine hdone vars₂ (.refl ht₂.ok) hone ⟨z,hz.1,fun hall => ?_⟩
      have hcan := hz.2
      unfold canAchieve at hcan
      rw [← hall z (hops z hz.1),Bool.and_eq_true,sle_iff_toInt_le,sle_iff_toInt_le] at hcan
      exact BitVec.eq_of_toInt_eq (le_antisymm hcan.1 hcan.2)
  · rw [wp_allSingle,if_neg fun hall => hone (hall r hr)]
    simp

theorem canAchieve_of {p : BitVec 64} (h1 : v.least ≤ varOrd v p) (h2 : varOrd v p ≤ v.most)
    (h : v.beyond = false ∨ v.most < 2^63) : canAchieve v p = true := by
  unfold canAchieve
  rw [Bool.and_eq_true,sle_iff_toInt_le,sle_iff_toInt_le]
  have w1 := word_cases (varLo64 v)
  have w2 := word_cases (varHi64 v)
  have w3 := word_cases p
  cases hv : v.beyond
  · simp only [Variable.least,Variable.most,varOrd_plain hv] at h1 h2
    exact ⟨h1,h2⟩
  · simp only [Variable.least,Variable.most,varOrd_beyond hv] at h1 h2 h
    rw [hv] at h
    simp only [Bool.true_eq_false,false_or] at h
    omega

/-- A fire propagates its relation where the folded bounds admit the solutions, the patterns of
the result are read the same by the operands, and the test of an achiever is honest. -/
theorem fireOfN_complies (hok : ∀ v ∈ r :: x :: xs, (s.ctx.vars v).Ok)
    (hfront : ∀ σ, Inside (r :: x :: xs) s.ctx.vars σ → PickRel ub r (x :: xs) σ →
      varOrd (s.ctx.vars r) (foldOf ub varLo64 s.ctx.vars x xs) ≤ σ r ∧
        σ r ≤ varOrd (s.ctx.vars r) (foldOf ub varHi64 s.ctx.vars x xs))
    (hag : (∃ σ, Inside (r :: x :: xs) s.ctx.vars σ) → Agree ub r x xs s.ctx.vars)
    (htest : ∀ y ∈ x :: xs, y = r ∨ (s.ctx.vars y).beyond = false ∨ (s.ctx.vars y).most < 2^63 ∨
      ub = true ∧ varOrd (s.ctx.vars r) (foldOf ub varHi64 s.ctx.vars x xs) < 2^63) :
    Complies (r :: x :: xs) (PickRel ub r (x :: xs)) (fireOfN ub r x xs) s := by
  have hr : r ∈ r :: x :: xs := mem_cons_self
  have hops : ∀ y ∈ x :: xs, y ∈ r :: x :: xs := fun y hy => mem_cons_of_mem _ hy
  have hkeep : ∀ σ, Inside (r :: x :: xs) s.ctx.vars σ → PickRel ub r (x :: xs) σ →
      (fireOfN ub r x xs).wp (fun res vars' => res ≠ .conflict ∧ Inside (r :: x :: xs) vars' σ)
        s.ctx.vars := fun σ hσ hR => by
    obtain ⟨hlo,hhi⟩ := hfront σ hσ hR
    refine fireOfN_keeps hok hσ hlo hhi fun vars₁ hf hσ₁ => ?_
    have hA := hag ⟨σ,hσ⟩
    have hr1 := hσ₁.least r hr
    have hr2 := hσ₁.most r hr
    have hback : ∀ y ∈ x :: xs, varOrd (s.ctx.vars y) (outer ub (vars₁ r)) =
        if ub then (vars₁ r).most else (vars₁ r).least := fun y hy => by
      have hnum : varOrd (s.ctx.vars r) (outer ub (vars₁ r)) =
          if ub then (vars₁ r).most else (vars₁ r).least := by
        rw [outer,← (hf.typed.same r).varOrd]
        split_ifs <;> rfl
      rw [hA.varOrd hf hy,hnum] <;> rw [hnum] <;> split_ifs <;> omega
    refine ⟨fun y hy => ?_,fun vars₂ ht₂ hσ₂ hmeets hone => ?_⟩
    · have h1 := hback y hy
      have h2 := hR.2 y hy
      split_ifs at h1 h2 ⊢ <;> omega
    · obtain ⟨y,hy,hval⟩ := hR.1
      have ht := hf.typed.trans ht₂
      have hone' := (single_iff _).mp hone
      have hp : varOrd (s.ctx.vars r) (varLo64 (vars₂ r)) = σ r := by
        rw [← (ht.same r).varOrd]
        exact le_antisymm (hσ₂.least r hr) ((hσ₂.most r hr).trans hone'.ge)
      have hpy : varOrd (s.ctx.vars y) (varLo64 (vars₂ r)) = σ y := by
        rw [hval,← hp]
        refine hA.varOrd hf hy ?_ ?_ <;> rw [hp] <;> assumption
      refine ⟨y,hy,?_,hpy.symm⟩
      rcases eq_or_ne y r with rfl | hne
      · unfold canAchieve
        rw [← hone]
        simp [sle_iff_toInt_le]
      have hpy₂ : varOrd (vars₂ y) (varLo64 (vars₂ r)) = σ y := by rw [(ht.same y).varOrd,hpy]
      refine canAchieve_of (hpy₂ ▸ hσ₂.least y (hops y hy)) (hpy₂ ▸ hσ₂.most y (hops y hy)) ?_
      rw [(ht.same y).beyond]
      have hmost := ht.most y
      rcases (htest y hy).resolve_left hne with h | h | ⟨rfl,h⟩
      · exact .inl h
      · exact .inr (hmost.trans_lt h)
      · have h1 := hmeets y hy
        have h2 := hback y hy
        have h3 := hf.most
        unfold KeepsTo at h1
        rw [(ht.same y).varOrd] at h1
        rw [if_pos rfl] at h1 h2
        exact .inr (by omega)
  refine ⟨⟨fun σ hσ hR => ?_,fun hc σ hσ hR => ?_,fun σ hp hR => ?_⟩,fun he σ hσ => ?_⟩
  · exact (Fire.run_of_wp (hkeep σ hσ hR)).2
  · exact (Fire.run_of_wp (hkeep σ hσ hR)).1 hc
  · refine (Fire.run_of_wp (f:=fireOfN ub r x xs) (fireOfN_pinned hok hp)).resolve_right fun hc => hR ?_
    exact Fire.run_of_wp (fireOfN_entails hok hag) hc.1 σ hc.2
  · exact Fire.run_of_wp (fireOfN_entails hok hag) he σ hσ

end Fires

end Solver
end DvSolve
