import DvSolve.Numth
import Mathlib.NumberTheory.Multiplicity

/-! Square roots, and the squares modulo a power of two.
An odd number is a square modulo every `2^k` when it is 1 modulo 8: a root modulo `2^k`
becomes one modulo `2^(k+1)` by adding `2^(k-1)` or nothing. -/
namespace DvSolve
namespace Numth

/-- `n` is a square modulo `2^w`. -/
def IsSq (n w : ℕ) : Prop := ∃ x, x*x ≡ n [MOD 2^w]

theorem isSq_of_mod_eight {o : ℕ} (ho : o % 8 = 1) (k : ℕ) : IsSq o (k+3) := by
  induction k with
  | zero => exact ⟨1,ho.symm⟩
  | succ k ih =>
    obtain ⟨y,hy⟩ := ih
    obtain ⟨c,hc⟩ := (Nat.modEq_iff_dvd).mp hy
    push_cast at hc
    obtain ⟨e,rfl | rfl⟩ := Int.even_or_odd' c
    · exact ⟨y,(Nat.modEq_iff_dvd).mpr ⟨e,by push_cast; linear_combination hc⟩⟩
    · obtain ⟨f,rfl | rfl⟩ := Nat.even_or_odd' y
      · have hmod := hy.of_dvd (Nat.pow_dvd_pow 2 (Nat.le_add_left 1 _))
        rw [Nat.ModEq,mul_assoc] at hmod
        omega
      · refine ⟨2*f+1+2^(k+2),(Nat.modEq_iff_dvd).mpr ⟨e-f-2^k,?_⟩⟩
        push_cast at hc ⊢
        linear_combination hc

theorem isSq_odd {o : ℕ} (ho : o % 2 = 1) {k : ℕ} (hk : 0 < k) :
    IsSq o k ↔ if k ≥ 3 then o % 8 = 1 else if k = 2 then o % 4 = 1 else True := by
  have hroot : ∀ x, x*x ≡ o [MOD 2^k] → x*x % 8 = 1 := fun x hx => by
    obtain ⟨y,rfl | rfl⟩ := Nat.even_or_odd' x
    · have hmod := hx.of_dvd (dvd_pow_self 2 hk.ne')
      rw [Nat.ModEq,mul_assoc] at hmod
      omega
    · obtain ⟨c,hc⟩ := Nat.eight_dvd_sq_sub_one_of_odd ⟨y,rfl⟩
      have := Nat.one_le_pow 2 (2*y+1) (by omega)
      rw [← pow_two]
      omega
  split_ifs with h3 h2
  · refine ⟨fun ⟨x,hx⟩ => ?_,fun h => ?_⟩
    · have hmod := hx.of_dvd (Nat.pow_dvd_pow 2 h3)
      exact Eq.trans hmod.symm (hroot x hx)
    · obtain ⟨j,rfl⟩ := Nat.exists_eq_add_of_le' h3
      exact isSq_of_mod_eight h j
  · subst h2
    refine ⟨fun ⟨x,hx⟩ => ?_,fun h => ⟨1,h.symm⟩⟩
    have h8 := hroot x hx
    rw [Nat.ModEq] at hx
    omega
  · obtain rfl : k = 1 := by omega
    exact iff_true_intro ⟨1,ho.symm⟩

theorem isSq_four (m w : ℕ) : IsSq (4*m) (w+2) ↔ IsSq m w := by
  have hpow : 2^(w+2) = 4*2^w := by ring
  constructor
  · rintro ⟨x,hx⟩
    rw [hpow] at hx
    obtain ⟨y,rfl | rfl⟩ := Nat.even_or_odd' x
    · rw [show 2*y*(2*y) = 4*(y*y) by ring] at hx
      exact ⟨y,hx.mul_left_cancel' (by decide)⟩
    · have hmod := hx.of_dvd ⟨2^w,rfl⟩
      rw [Nat.ModEq,show (2*y+1)*(2*y+1) = 4*(y*y+y)+1 by ring] at hmod
      omega
  · rintro ⟨y,hy⟩
    refine ⟨2*y,?_⟩
    rw [hpow,show 2*y*(2*y) = 4*(y*y) by ring]
    exact hy.mul_left' 4

theorem isSq_four_pow (s m w : ℕ) : IsSq (2^(2*s)*m) (w+2*s) ↔ IsSq m w := by
  induction s with
  | zero => simp
  | succ s ih =>
    rw [← ih,← isSq_four (2^(2*s)*m)]
    ring_nf

theorem not_isSq_two {o : ℕ} (ho : o % 2 = 1) (w : ℕ) : ¬IsSq (2*o) (w+2) := by
  rintro ⟨x,hx⟩
  have hmod := hx.of_dvd (Nat.pow_dvd_pow 2 (Nat.le_add_left 2 w))
  rw [Nat.ModEq] at hmod
  obtain ⟨y,rfl | rfl⟩ := Nat.even_or_odd' x
  · rw [show 2*y*(2*y) = 4*(y*y) by ring] at hmod
    omega
  · rw [show (2*y+1)*(2*y+1) = 4*(y*y+y)+1 by ring] at hmod
    omega

def isSquareResidue (n : BitVec 64) (w : ℕ) : Bool :=
  let mask : BitVec 64 := if w ≥ 64 then ~~~0#64 else (1#64 <<< w) - 1#64
  let n := n &&& mask
  if n = 0#64 then true
  else
    let t := n.ctz.toNat
    if t &&& 1 ≠ 0 then false
    else
      let left := w-t
      let o := n >>> t
      if left ≥ 3 then o &&& 7#64 = 1#64
      else if left = 2 then o &&& 3#64 = 1#64
      else true

theorem toNat_mask (n : BitVec 64) {w : ℕ} (hw : w ≤ 64) :
    (n &&& if w ≥ 64 then ~~~0#64 else (1#64 <<< w) - 1#64).toNat = n.toNat % 2^w := by
  have hpos := Nat.two_pow_pos w
  split_ifs with h
  · obtain rfl : w = 64 := by omega
    rw [BitVec.not_zero,BitVec.and_allOnes,Nat.mod_eq_of_lt n.isLt]
  · have hlt : 2^w < 2^64 := Nat.pow_lt_pow_right (by decide) (by omega)
    have hshift : (1#64 <<< w).toNat = 2^w := by
      rw [BitVec.toNat_shiftLeft,Nat.shiftLeft_eq]
      simpa using Nat.mod_eq_of_lt hlt
    have hmask : (1#64 <<< w - 1#64).toNat = 2^w-1 := by
      rw [BitVec.toNat_sub_of_le (by rw [BitVec.le_def,hshift]; exact hpos),hshift]
      rfl
    rw [BitVec.toNat_and,hmask,Nat.and_two_pow_sub_one_eq_mod]

theorem ctz_odd {m : BitVec 64} (h : m ≠ 0#64) :
    m.toNat = 2^m.ctz.toNat * (m >>> m.ctz.toNat).toNat ∧ (m >>> m.ctz.toNat).toNat % 2 = 1 := by
  have hone := BitVec.getLsbD_true_ctz_of_ne_zero h
  have hdvd : 2^m.ctz.toNat ∣ m.toNat := (Nat.dvd_iff_mod_eq_zero).mpr <| by
    refine Nat.eq_of_testBit_eq fun i => ?_
    rw [Nat.testBit_mod_two_pow,Nat.zero_testBit]
    by_cases hi : i < m.ctz.toNat
    · have := BitVec.getLsbD_false_of_lt_ctz hi
      rw [BitVec.getLsbD] at this
      rw [this,Bool.and_false]
    · rw [decide_eq_false hi,Bool.false_and]
  rw [BitVec.toNat_ushiftRight,Nat.shiftRight_eq_div_pow,Nat.mul_div_cancel' hdvd]
  rw [BitVec.getLsbD,Nat.testBit_eq_decide_div_mod_eq,decide_eq_true_eq] at hone
  exact ⟨rfl,hone⟩

theorem isSquareResidue_iff (n : BitVec 64) {w : ℕ} (hw : w ≤ 64) :
    isSquareResidue n w = true ↔ IsSq n.toNat w := by
  have hn := toNat_mask n hw
  have hsq : IsSq n.toNat w ↔ IsSq (n.toNat % 2^w) w := exists_congr fun x =>
    ⟨fun h => h.trans (Nat.mod_modEq _ _).symm,fun h => h.trans (Nat.mod_modEq _ _)⟩
  have hlt : n.toNat % 2^w < 2^w := Nat.mod_lt _ (Nat.two_pow_pos w)
  unfold isSquareResidue
  rw [hsq]
  dsimp only
  generalize (n &&& if w ≥ 64 then ~~~0#64 else (1#64 <<< w) - 1#64) = m at hn
  rw [← hn] at hlt ⊢
  by_cases h0 : m = 0#64
  · rw [if_pos h0,h0]
    exact iff_of_true rfl ⟨0,rfl⟩
  rw [if_neg h0]
  obtain ⟨hm,ho⟩ := ctz_odd h0
  generalize m.ctz.toNat = t at hm ho
  generalize m >>> t = o at hm ho
  have htw : t < w := by
    refine (Nat.pow_lt_pow_iff_right (Nat.one_lt_two)).mp (hlt.trans_le' ?_)
    rw [hm]
    exact Nat.le_mul_of_pos_right _ (by omega)
  have h7 : ((o &&& 7#64) = 1#64) ↔ o.toNat % 8 = 1 := by
    rw [← BitVec.toNat_inj,BitVec.toNat_and]
    exact (Nat.and_two_pow_sub_one_eq_mod _ 3).congr_left
  have h3 : ((o &&& 3#64) = 1#64) ↔ o.toNat % 4 = 1 := by
    rw [← BitVec.toNat_inj,BitVec.toNat_and]
    exact (Nat.and_two_pow_sub_one_eq_mod _ 2).congr_left
  rw [hm,Nat.and_one_is_mod]
  obtain ⟨s,rfl | rfl⟩ := Nat.even_or_odd' t
  · rw [if_neg (by omega)]
    have hw' : w = w-2*s+2*s := by omega
    rw [hw',isSq_four_pow,isSq_odd ho (by omega),← hw']
    split_ifs <;> simp [h7,h3]
  · rw [if_pos (by omega)]
    obtain ⟨j,rfl⟩ := Nat.exists_eq_add_of_le (show 2*s+2 ≤ w by omega)
    refine iff_of_false (by decide) ?_
    rw [pow_succ,mul_assoc,show 2*s+2+j = j+2+2*s by ring,isSq_four_pow]
    exact not_isSq_two ho j

def isqrtFrom (n x : ℕ) : ℕ :=
  let y := (x + n/x) % 2^64 / 2
  if y ≥ x then x else isqrtFrom n y
termination_by x

def isqrt (n : ℕ) : ℕ :=
  if n < 2 then n
  else
    let bits := Nat.log2 n + 1
    isqrtFrom n (1 <<< ((bits+1)/2))

def isqrtCeil (n : ℕ) : ℕ :=
  let s := isqrt n
  if s*s % 2^64 = n then s else s+1

theorem isqrtFrom_eq {n x : ℕ} (hx : x ≤ 2^32) (hn : n < (x+1)*(x+1)) (h0 : 0 < n) :
    isqrtFrom n x = Nat.sqrt n := by
  induction x using Nat.strong_induction_on with
  | _ x ih =>
    have hxpos : 0 < x := by
      by_contra hx0
      obtain rfl : x = 0 := by omega
      omega
    have hdiv := Nat.div_mul_le_self n x
    have hdiv' := Nat.lt_div_mul_add (a:=n) hxpos
    have hq : n/x ≤ x+2 := by
      by_contra hgt
      nlinarith
    have hmod : (x+n/x) % 2^64 = x+n/x := Nat.mod_eq_of_lt (by omega)
    unfold isqrtFrom
    rw [hmod]
    dsimp only
    split_ifs with hy
    · refine Nat.eq_sqrt.mpr ⟨?_,hn⟩
      have hge : x ≤ n/x := by omega
      nlinarith
    · refine ih _ (by omega) (by omega) ?_
      generalize n/x = q at *
      have hs : x+q+1 ≤ 2*((x+q)/2+1) := by omega
      nlinarith [Nat.mul_self_le_mul_self hs]

theorem isqrt_eq (n : BitVec 64) : isqrt n.toNat = Nat.sqrt n.toNat := by
  have hn := n.isLt
  generalize n.toNat = n at hn
  unfold isqrt
  split_ifs with h
  · interval_cases n <;> rfl
  · have hbits : Nat.log2 n < 64 := (Nat.log2_lt (by omega)).mpr hn
    have hlog : n < 2^(Nat.log2 n+1) := Nat.lt_log2_self
    have hc : (Nat.log2 n+1+1)/2 ≤ 32 := by omega
    have hsq : 2^(Nat.log2 n+1) ≤ 2^((Nat.log2 n+1+1)/2+(Nat.log2 n+1+1)/2) :=
      Nat.pow_le_pow_right (by decide) (by omega)
    rw [pow_add 2 ((Nat.log2 n+1+1)/2)] at hsq
    dsimp only
    rw [Nat.one_shiftLeft]
    refine isqrtFrom_eq (Nat.pow_le_pow_right (by decide) hc) ?_ (by omega)
    exact hlog.trans_le (hsq.trans (Nat.mul_self_le_mul_self (Nat.le_succ _)))

theorem isqrtCeil_le (n : BitVec 64) (s : ℕ) : isqrtCeil n.toNat ≤ s ↔ n.toNat ≤ s*s := by
  have hn := n.isLt
  unfold isqrtCeil
  rw [isqrt_eq]
  generalize n.toNat = n at hn
  obtain ⟨hle,hlt⟩ := Nat.eq_sqrt.mp (rfl : Nat.sqrt n = Nat.sqrt n)
  generalize Nat.sqrt n = r at hle hlt
  dsimp only
  rw [Nat.mod_eq_of_lt (by omega)]
  split_ifs with h
  · rw [← h,Nat.mul_self_le_mul_self_iff]
  · refine ⟨fun hs => hlt.le.trans (Nat.mul_self_le_mul_self hs),fun hs => ?_⟩
    by_contra hgt
    have := Nat.mul_self_le_mul_self (show s ≤ r by omega)
    omega

/-- The caches a run of calls leaves; a new or freed cache is empty, and so is one after a call
that ran out of memory. -/
inductive Cached : Divisors → Prop
  | empty : Cached ⟨0,[]⟩
  | call {bound n max k : ℕ} {d d' : Divisors} (hd : Cached d) (ht : Tested n)
      (h : dvsDivisors bound d n max = some (d',k)) : Cached d'

theorem Cached.ok {d : Divisors} (h : Cached d) : d.Ok := by
  induction h with
  | empty => exact ⟨fun h => absurd rfl h,List.Pairwise.nil⟩
  | call _ ht h ih => exact (dvsDivisors_spec ih ht h).1

/-- A call that answers leaves exactly the divisors, ascending, and their number, and the
bisections bound those of a range; the residue test and the roots are exact on words. -/
theorem divisors_exact {bound n max k : ℕ} {d d' : Divisors} (hd : Cached d) (ht : Tested n)
    (h : dvsDivisors bound d n max = some (d',k)) (hk : k ≠ 0) :
    k = d'.divs.length ∧ d'.divs.Pairwise (· < ·) ∧ (∀ x, x ∈ d'.divs ↔ x ∣ n) ∧
    (∀ L U x, x ∈ (d'.divs.take (divisorsUpper d' U)).drop (divisorsLower d' L) ↔ x ∣ n ∧ L ≤ x ∧ x ≤ U) ∧
    (∀ m : BitVec 64, ∀ w, 0 < w → w ≤ 64 → (isSquareResidue m w = true ↔ IsSq m.toNat w)) ∧
    ∀ m : BitVec 64, isqrt m.toNat = Nat.sqrt m.toNat ∧ ∀ s, isqrtCeil m.toNat ≤ s ↔ m.toNat ≤ s*s := by
  obtain ⟨hok,hlists⟩ := dvsDivisors_spec hd.ok ht h
  obtain ⟨hl,hlen⟩ := hlists hk
  refine ⟨hlen,?_,hl.mem,fun L U x => ?_,fun m w _ hw => isSquareResidue_iff m hw,
    fun m => ⟨isqrt_eq m,isqrtCeil_le m⟩⟩
  · exact (hok.sorted.and hl.nodup).imp fun ⟨hle,hne⟩ => lt_of_le_of_ne hle hne
  · rw [mem_between hok.sorted,hl.mem]

theorem tested_3127 : Tested 3127 := by
  intro m hm hp
  have h53 : Nat.Prime 53 := by norm_num
  have h59 : Nat.Prime 59 := by norm_num
  obtain ⟨a,b,ha,hb,rfl⟩ := Nat.dvd_mul.mp (show m ∣ 53*59 from hm)
  rcases (Nat.dvd_prime h53).mp ha with rfl | rfl <;> rcases (Nat.dvd_prime h59).mp hb with rfl | rfl
  · exact absurd hp (by decide)
  · exact h59
  · exact h53
  · exact absurd hp (by decide +kernel)

/-- No small prime divides 53*59, so rho splits it; asked again, the list is still there. -/
theorem divisors_exact_3127 :
    ∃ d, Cached d ∧ dvsDivisors 64 ⟨0,[]⟩ 3127 100 = some (d,4) ∧
      dvsDivisors 64 d 3127 100 = some (d,4) ∧ 4 = d.divs.length ∧ ∀ x, x ∈ d.divs ↔ x ∣ 3127 := by
  have hfirst : dvsDivisors 64 ⟨0,[]⟩ 3127 100 = some (⟨3127,[1,53,59,3127]⟩,4) := rfl
  have hagain : dvsDivisors 64 ⟨3127,[1,53,59,3127]⟩ 3127 100 =
    some (⟨3127,[1,53,59,3127]⟩,4) := rfl
  have hd := Cached.empty.call tested_3127 hfirst
  have h := divisors_exact hd tested_3127 hagain (by decide)
  exact ⟨_,hd,hfirst,hagain,h.1,h.2.2.1⟩

end Numth
end DvSolve
