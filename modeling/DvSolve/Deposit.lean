import Mathlib.Tactic

/-! Deposits: the subsets of the bits of a number, in order.
The bits of a rank are placed, lowest first, on the set bits of a mask; every subset of
the mask has exactly one rank, and ranks order the subsets. -/
namespace DvSolve
namespace Deposit

/-- The number of set bits among the lowest `n`. -/
def count (n F : ℕ) : ℕ := (List.range n).countP fun i => F.testBit i

/-- The lowest bits of `k` on the set bits of `F` below `n`. -/
def place : ℕ → ℕ → ℕ → ℕ
  | 0, _, _ => 0
  | n+1, k, F => if F.testBit 0 then k%2 + 2*place n (k/2) (F/2) else 2*place n k (F/2)

variable {n k k' F f : ℕ}

theorem count_succ (n F : ℕ) : count (n+1) F = (F.testBit 0).toNat + count n (F/2) := by
  unfold count
  rw [List.range_succ_eq_map,List.countP_cons,List.countP_map]
  have h : (fun i => F.testBit i) ∘ Nat.succ = fun i => (F/2).testBit i := by
    funext i
    simp [Nat.testBit_succ]
  rw [h]
  cases F.testBit 0 <;> simp [Nat.add_comm]

theorem place_testBit_le (h : (place n k F).testBit f = true) : F.testBit f = true := by
  induction n generalizing k F f with
  | zero => simp [place] at h
  | succ n ih =>
    rw [place] at h
    cases f with
    | zero =>
      split_ifs at h with h0
      · exact h0
      · rw [Nat.testBit_zero] at h
        simp at h
    | succ f =>
      rw [Nat.testBit_succ] at h ⊢
      split_ifs at h with h0
      · rw [show (k%2+2*place n (k/2) (F/2))/2 = place n (k/2) (F/2) by omega] at h
        exact ih h
      · rw [show 2*place n k (F/2)/2 = place n k (F/2) by omega] at h
        exact ih h

theorem place_lt (hk : k < k') (hk' : k' < 2^count n F) : place n k F < place n k' F := by
  induction n generalizing k k' F with
  | zero =>
    simp [count] at hk'
    omega
  | succ n ih =>
    rw [count_succ] at hk'
    rw [place,place]
    split_ifs with h0
    · rw [h0,Bool.toNat_true,Nat.add_comm,pow_succ] at hk'
      rcases Nat.lt_or_ge (k/2) (k'/2) with h | h
      · have := ih (F:=F/2) h (by omega)
        omega
      · rw [show k/2 = k'/2 by omega]
        omega
    · rw [show F.testBit 0 = false by simpa using h0,Bool.toNat_false,Nat.zero_add] at hk'
      have := ih hk hk'
      omega

theorem place_le (hk : k ≤ k') (hk' : k' < 2^count n F) : place n k F ≤ place n k' F := by
  rcases Nat.eq_or_lt_of_le hk with rfl | hk
  · exact le_refl _
  · exact (place_lt hk hk').le

theorem exists_rank (hF : F < 2^n) (hf : ∀ i, f.testBit i = true → F.testBit i = true) :
    ∃ k < 2^count n F, place n k F = f := by
  induction n generalizing F f with
  | zero =>
    refine ⟨0,by simp [count],Nat.eq_of_testBit_eq fun i => ?_⟩
    have hF : F = 0 := by omega
    subst hF
    rw [place,Nat.zero_testBit,eq_comm,← Bool.not_eq_true]
    exact fun h => by simpa using hf i h
  | succ n ih =>
    obtain ⟨k,hk,hp⟩ := ih (F:=F/2) (f:=f/2) (by omega) fun i hi => by
      rw [← Nat.testBit_succ] at hi ⊢
      exact hf _ hi
    rw [count_succ]
    cases h0 : F.testBit 0
    · have hf0 : f%2 = 0 := by
        by_contra h
        have := hf 0 (by simp [Nat.testBit_zero]; omega)
        simp [h0] at this
      refine ⟨k,by simpa using hk,?_⟩
      rw [place,if_neg (by simp [h0]),hp]
      omega
    · refine ⟨f%2+2*k,?_,?_⟩
      · rw [Bool.toNat_true,Nat.add_comm 1,pow_succ]
        omega
      · rw [place,if_pos h0,show (f%2+2*k)/2 = k by omega,hp]
        omega

theorem place_top (hF : F < 2^n) : place n (2^count n F-1) F = F := by
  obtain ⟨k,hk,hp⟩ := exists_rank hF (f:=F) fun _ h => h
  have hle : place n k F ≤ place n (2^count n F-1) F := place_le (by omega) (by omega)
  rw [hp] at hle
  exact le_antisymm (Nat.le_of_testBit fun i hi => place_testBit_le hi) hle

theorem place_zero (n F : ℕ) : place n 0 F = 0 := by
  induction n generalizing F with
  | zero => rfl
  | succ n ih => rw [place]; simp [ih]

theorem place_shift (t n k F : ℕ) : place (t+n) k (2^t*F) = 2^t*place n k F := by
  induction t generalizing k with
  | zero => simp
  | succ t ih =>
    have h1 : 2^(t+1)*F = 2*(2^t*F) := by rw [pow_succ]; ring
    rw [show t+1+n = (t+n)+1 by omega,place,h1,if_neg (by simp),Nat.mul_div_cancel_left _ (by decide),
      ih,pow_succ]
    ring

theorem count_shift (t n F : ℕ) : count (t+n) (2^t*F) = count n F := by
  induction t with
  | zero => simp
  | succ t ih =>
    have h1 : 2^(t+1)*F = 2*(2^t*F) := by rw [pow_succ]; ring
    rw [show t+1+n = (t+n)+1 by omega,count_succ,h1,Nat.mul_div_cancel_left _ (by decide),ih]
    simp

theorem count_lowest {t q n : ℕ} (h : t < n) :
    count n (2^t*(2*q+1)) = count n (2^t*(2*q))+1 := by
  obtain ⟨d,rfl⟩ : ∃ d, n = t+(d+1) := ⟨n-t-1,by omega⟩
  rw [count_shift,count_shift,count_succ,count_succ,show (2*q+1)/2 = q by omega,
    Nat.mul_div_cancel_left _ (by decide)]
  simp [Nat.add_comm]

theorem place_empty (n k : ℕ) : place n k 0 = 0 :=
  Nat.eq_of_testBit_eq fun i => by
    rw [Nat.zero_testBit,← Bool.not_eq_true]
    exact fun h => by simpa using place_testBit_le h

theorem clear_lowest (t q : ℕ) : (2^t*(2*q+1)) &&& (2^t*(2*q+1)-1) = 2^t*(2*q) := by
  have hpos := Nat.two_pow_pos t
  have hsub : 2^t*(2*q+1)-1 = 2^t*(2*q)+(2^t-1) := by
    rw [show 2^t*(2*q+1) = 2^t*(2*q)+2^t by ring]
    omega
  refine Nat.eq_of_testBit_eq fun j => ?_
  have h1 := Nat.testBit_two_pow_mul_add (2*q+1) hpos j
  have h2 := Nat.testBit_two_pow_mul_add (2*q) hpos j
  rw [Nat.add_zero] at h1 h2
  rw [hsub,Nat.testBit_and,h1,Nat.testBit_two_pow_mul_add _ (by omega),h2]
  split_ifs with hj
  · simp
  · cases hd : j-t with
    | zero => simp
    | succ d => simp [Nat.testBit_succ]; intro h; rw [← h]; congr 1; omega

theorem keep_lowest {t q w : ℕ} (h : 2^t*(2*q+1) < 2^w) :
    (2^t*(2*q+1)) &&& (2^w-2^t*(2*q+1)) = 2^t := by
  have htw : t < w := by
    by_contra hge
    have := Nat.pow_le_pow_right (show 0 < 2 by decide) (not_lt.mp hge)
    nlinarith [Nat.two_pow_pos t]
  obtain ⟨d,rfl⟩ : ∃ d, w = t+(d+1) := ⟨w-t-1,by omega⟩
  have hpos := Nat.two_pow_pos t
  have hq : 2*q+1 < 2^(d+1) := by
    rw [pow_add] at h
    exact Nat.lt_of_mul_lt_mul_left h
  have hsub : 2^(t+(d+1))-2^t*(2*q+1) = 2^t*(2*(2^d-1-q)+1) := by
    rw [pow_add,← Nat.mul_sub,pow_succ]
    congr 1
    rw [pow_succ] at hq
    omega
  refine Nat.eq_of_testBit_eq fun j => ?_
  have h1 := Nat.testBit_two_pow_mul_add (2*q+1) hpos j
  have h2 := Nat.testBit_two_pow_mul_add (2*(2^d-1-q)+1) hpos j
  rw [Nat.add_zero] at h1 h2
  rw [hsub,Nat.testBit_and,h1,h2,Nat.testBit_two_pow]
  split_ifs with hj
  · simp
    omega
  · cases hd : j-t with
    | zero => simp; omega
    | succ e =>
      have hne : t ≠ j := by omega
      have hbit : ∀ x, (2*x+1).testBit (e+1) = x.testBit e := fun x => by
        rw [Nat.testBit_succ]
        congr 1
        omega
      rw [hbit,hbit,decide_eq_false hne]
      have hcomp : (2^d-1-q).testBit e = (decide (e < d) && !q.testBit e) := by
        rw [show 2^d-1-q = 2^d-(q+1) by omega]
        exact Nat.testBit_two_pow_sub_succ (by rw [pow_succ] at hq; omega) e
      rw [hcomp]
      cases q.testBit e <;> simp

theorem place_lowest {t q n : ℕ} (h : t < n) (k : ℕ) :
    place n k (2^t*(2*q+1)) = (if k%2 = 1 then 2^t else 0) ||| place n (k/2) (2^t*(2*q)) := by
  obtain ⟨d,rfl⟩ : ∃ d, n = t+(d+1) := ⟨n-t-1,by omega⟩
  have h1 : place (d+1) k (2*q+1) = k%2+2*place d (k/2) q := by
    rw [place,if_pos (by simp),show (2*q+1)/2 = q by omega]
  have h2 : place (d+1) (k/2) (2*q) = 2*place d (k/2) q := by
    rw [place,if_neg (by simp),Nat.mul_div_cancel_left _ (by decide)]
  rw [place_shift,place_shift,h1,h2]
  generalize place d (k/2) q = x
  rcases Nat.mod_two_eq_zero_or_one k with h0 | h0
  · simp [h0]
  · rw [h0,if_pos rfl,show 2^t*(2*x) = 2^(t+1)*x by rw [pow_succ]; ring,Nat.or_comm,
      ← Nat.two_pow_add_eq_or_of_lt (Nat.pow_lt_pow_right (by decide) (Nat.lt_succ_self t)) x,pow_succ]
    ring

theorem or_eq_add {x y : ℕ} (h : x &&& y = 0) : x ||| y = x+y := by
  obtain ⟨w,hw⟩ : ∃ w, x+y < 2^w := ⟨x+y,Nat.lt_two_pow_self⟩
  have hx : (BitVec.ofNat w x).toNat = x := by
    rw [BitVec.toNat_ofNat]
    exact Nat.mod_eq_of_lt (by omega)
  have hy : (BitVec.ofNat w y).toNat = y := by
    rw [BitVec.toNat_ofNat]
    exact Nat.mod_eq_of_lt (by omega)
  have hxy : BitVec.ofNat w x &&& BitVec.ofNat w y = 0#w := by
    apply BitVec.eq_of_toNat_eq
    rw [BitVec.toNat_and,hx,hy,h]
    simp
  have hor := congrArg BitVec.toNat (BitVec.add_eq_or_of_and_eq_zero _ _ hxy)
  rw [BitVec.toNat_add,BitVec.toNat_or,hx,hy,Nat.mod_eq_of_lt hw] at hor
  exact hor.symm

theorem or_place_le {must : ℕ} (hd : must &&& F = 0) (hk : k ≤ k') (hk' : k' < 2^count n F) :
    (must ||| place n k F) ≤ (must ||| place n k' F) := by
  have hz : ∀ j, must &&& place n j F = 0 := fun j => by
    refine Nat.eq_of_testBit_eq fun i => ?_
    have h1 := congrArg (fun x => x.testBit i) hd
    simp only [Nat.testBit_and,Nat.zero_testBit] at h1 ⊢
    cases hp : (place n j F).testBit i
    · simp
    · rw [place_testBit_le hp] at h1
      simpa using h1
  rw [or_eq_add (hz k),or_eq_add (hz k')]
  exact Nat.add_le_add_left (place_le hk hk') must

/-- The first number from `a` on that passes, when `b` does, in at most `n` halvings. -/
def firstFrom (p : ℕ → Bool) : ℕ → ℕ → ℕ → ℕ
  | 0, a, _ => a
  | n+1, a, b =>
    if a < b then
      if p (a+(b-a)/2) then firstFrom p n a (a+(b-a)/2) else firstFrom p n (a+(b-a)/2+1) b
    else a

/-- The last number up to `b` that passes, when `a` does. -/
def lastTo (p : ℕ → Bool) : ℕ → ℕ → ℕ → ℕ
  | 0, a, _ => a
  | n+1, a, b =>
    if a < b then
      if p (b-(b-a)/2) then lastTo p n (b-(b-a)/2) b else lastTo p n a (b-(b-a)/2-1)
    else a

section Search

variable {p : ℕ → Bool} {a b u : ℕ}

theorem firstFrom_spec (hp : ∀ i j, i ≤ j → j ≤ u → p i = true → p j = true) (hab : a ≤ b)
    (hn : b-a < 2^n) (htop : b ≤ u) (hb : p b = true) (ha : ∀ i < a, p i = false) :
    firstFrom p n a b ≤ b ∧ p (firstFrom p n a b) = true ∧ ∀ i < firstFrom p n a b, p i = false := by
  induction n generalizing a b with
  | zero =>
    obtain rfl : a = b := by omega
    exact ⟨le_refl _,hb,ha⟩
  | succ n ih =>
    rw [pow_succ] at hn
    rw [firstFrom]
    split_ifs with hlt hm
    · obtain ⟨h1,h2,h3⟩ := ih (b:=a+(b-a)/2) (by omega) (by omega) (by omega) hm ha
      exact ⟨by omega,h2,h3⟩
    · refine ih (by omega) (by omega) htop hb fun i hi => ?_
      by_contra hc
      exact hm (hp i _ (by omega) (by omega) (by simpa using hc))
    · obtain rfl : a = b := by omega
      exact ⟨le_refl _,hb,ha⟩

theorem lastTo_spec (hp : ∀ i j, i ≤ j → j ≤ u → p j = true → p i = true) (hab : a ≤ b)
    (hn : b-a < 2^n) (htop : b ≤ u) (ha : p a = true) (hb : ∀ i, b < i → i ≤ u → p i = false) :
    lastTo p n a b ≤ b ∧ p (lastTo p n a b) = true ∧ ∀ i, lastTo p n a b < i → i ≤ u → p i = false := by
  induction n generalizing a b with
  | zero =>
    obtain rfl : a = b := by omega
    exact ⟨le_refl _,ha,hb⟩
  | succ n ih =>
    rw [pow_succ] at hn
    rw [lastTo]
    split_ifs with hlt hm
    · exact ih (by omega) (by omega) htop hm hb
    · obtain ⟨h1,h2,h3⟩ := ih (b:=b-(b-a)/2-1) (by omega) (by omega) (by omega) ha
        fun i hi hi' => by
          by_contra hc
          exact hm (hp _ i (by omega) hi' (by simpa using hc))
      exact ⟨by omega,h2,h3⟩
    · obtain rfl : a = b := by omega
      exact ⟨le_refl _,ha,hb⟩

end Search

end Deposit
end DvSolve
