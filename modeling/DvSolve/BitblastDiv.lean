import DvSolve.BitblastSem

/-! The restoring divider.
Before bit `i` of the dividend is brought down the remainder is the one of its
upper `i` bits, so it is below `2^i` and the column the subtract chain leaves out
is empty. Division by zero needs no case of its own: there the chain always
carries, and the remainder of `x` by `0` is `x`. -/
namespace DvSolve
namespace Bitblast

open Aig

variable {w i : ℕ} {m : Aig} {d : List ℤ}

def upper (x w i : ℕ) : ℕ := x / 2^(w-i)

theorem upper_lt {x : ℕ} (hx : x < 2^w) (hi : i ≤ w) : upper x w i < 2^i := by
  refine Nat.div_lt_of_lt_mul ?_
  rwa [← pow_add,Nat.sub_add_cancel hi]

theorem upper_zero {x : ℕ} (hx : x < 2^w) : upper x w 0 = 0 := Nat.div_eq_of_lt hx

theorem upper_self (x w : ℕ) : upper x w w = x := by simp [upper]

theorem upper_succ (x : ℕ) (hi : i < w) :
    upper x w (i+1) = 2 * upper x w i + (x.testBit (w-1-i)).toNat := by
  have hdiv : x / 2^(w-i) = x / 2^(w-1-i) / 2 := by
    rw [Nat.div_div_eq_div_mul,← pow_succ]
    congr 2
    omega
  have hbit : (x.testBit (w-1-i)).toNat = x / 2^(w-1-i) % 2 := Nat.toNat_testBit x (w-1-i)
  have hsucc : w - (i+1) = w-1-i := by omega
  rw [upper,upper,hdiv,hbit,hsucc]
  omega

def shifted (x y w i : ℕ) : ℕ := 2 * (upper x w i % y) + (x.testBit (w-1-i)).toNat

theorem shifted_lt {x : ℕ} (y : ℕ) (hx : x < 2^w) (hi : i < w) : shifted x y w i < 2^w := by
  have hle := Nat.mod_le (upper x w i) y
  have hlt := upper_lt hx hi.le
  have hbit := Bool.toNat_le (x.testBit (w-1-i))
  have hpow : 2^(i+1) ≤ 2^w := Nat.pow_le_pow_right (by norm_num) hi
  rw [shifted]
  rw [pow_succ] at hpow
  omega

theorem shifted_mod (x y : ℕ) (hi : i < w) :
    shifted x y w i % y = upper x w (i+1) % y := by
  have hmod : shifted x y w i ≡ upper x w (i+1) [MOD y] := by
    rw [shifted,upper_succ x hi]
    exact ((Nat.mod_modEq (upper x w i) y).mul_left 2).add_right _
  exact hmod

theorem shifted_sub (x y : ℕ) (hi : i < w) :
    (if y ≤ shifted x y w i then shifted x y w i - y else shifted x y w i) = upper x w (i+1) % y := by
  rw [← shifted_mod x y hi]
  rcases Nat.eq_zero_or_pos y with rfl | hy
  · simp
  · have hlt := Nat.mod_lt (upper x w i) hy
    have hbit := Bool.toNat_le (x.testBit (w-1-i))
    have hub : shifted x y w i < y + y := by rw [shifted]; omega
    split_ifs with h
    · rw [Nat.mod_eq_sub_mod h,Nat.mod_eq_of_lt (by omega)]
    · rw [Nat.mod_eq_of_lt (by omega)]

def quotient (x y w : ℕ) : ℕ := if y = 0 then 2^w - 1 else x / y

theorem quotient_testBit {x y : ℕ} (hi : i < w) :
    (quotient x y w).testBit (w-1-i) = decide (y ≤ shifted x y w i) := by
  rw [quotient]
  split_ifs with hy
  · subst hy
    rw [Nat.testBit_two_pow_sub_one]
    simp
    omega
  · have hpos : 0 < y := Nat.pos_of_ne_zero hy
    have hlt := Nat.mod_lt (upper x w i) hpos
    have hbit := Bool.toNat_le (x.testBit (w-1-i))
    have hub : shifted x y w i < y + y := by rw [shifted]; omega
    -- the quotient of the upper `i+1` bits is twice that of the upper `i`, plus this bit
    have hquot : x / y / 2^(w-1-i) = shifted x y w i / y + 2 * (upper x w i / y) := by
      have hupper : x / 2^(w-1-i) = upper x w (i+1) := by
        rw [upper]
        congr 2
        omega
      have hsplit : upper x w (i+1) = shifted x y w i + 2 * (upper x w i / y) * y := by
        have hd := Nat.mod_add_div (upper x w i) y
        rw [upper_succ x hi,shifted]
        nlinarith
      rw [Nat.div_div_eq_div_mul,Nat.mul_comm,← Nat.div_div_eq_div_mul,hupper,hsplit,
        Nat.add_mul_div_right _ _ hpos]
    rw [Nat.testBit_eq_decide_div_mod_eq,hquot]
    by_cases h : y ≤ shifted x y w i
    · have h1 : shifted x y w i / y = 1 := by
        rw [Nat.div_eq_iff hpos]
        omega
      simp [h,h1]
    · have h0 : shifted x y w i / y = 0 := Nat.div_eq_of_lt (by omega)
      simp [h,h0]

theorem faDivCarry_spec (hm : m.Wf) {r d c : ℤ} {f g h : (ℕ → Bool) → Bool} (hr : m.Denotes r f)
    (hd : m.Denotes d g) (hc : m.Denotes c h) :
    Spec (faDivCarry r d c) m
      (fun x m' => m'.Denotes x (fun ρ => (f ρ && g ρ) || ((f ρ ^^ g ρ) && h ρ))) := by
  refine (mkOr_spec hm hd hc).bind fun x m₁ hm₁ he₁ hx => ?_
  refine (mkAnd_spec hm₁ hx (hr.extends he₁)).bind fun y m₂ hm₂ he₂ hy => ?_
  have he₁₂ := he₁.trans he₂
  refine (mkAnd_spec hm₂ (hd.extends he₁₂) (hc.extends he₁₂)).bind fun z m₃ hm₃ he₃ hz => ?_
  refine (mkOr_spec hm₃ (hy.extends he₃) hz).mono fun u m₄ _ _ hu => hu.congr fun ρ => ?_
  cases f ρ <;> cases g ρ <;> cases h ρ <;> rfl

theorem faDivSum_spec (hm : m.Wf) {r d c q : ℤ} {f g h e : (ℕ → Bool) → Bool} (hr : m.Denotes r f)
    (hd : m.Denotes d g) (hc : m.Denotes c h) (hq : m.Denotes q e) :
    Spec (faDivSum r d c q) m
      (fun x m' => m'.Denotes x (fun ρ => if e ρ then (f ρ ^^ g ρ) ^^ h ρ else f ρ)) := by
  refine (mkXor_spec hm hd hc).bind fun x m₁ hm₁ he₁ hx => ?_
  refine (mkAnd_spec hm₁ hx (hq.extends he₁)).bind fun y m₂ hm₂ he₂ hy => ?_
  refine (mkXor_spec hm₂ hy (hr.extends (he₁.trans he₂))).mono fun u m₃ _ _ hu =>
    hu.congr fun ρ => ?_
  cases f ρ <;> cases g ρ <;> cases h ρ <;> cases e ρ <;> rfl

def Lsb (m : Aig) (v : List ℤ) (n : ℕ) (F : (ℕ → Bool) → ℕ → Bool) : Prop :=
  ∀ k < n, m.Denotes (bits v k) (fun ρ => F ρ k)

theorem Lsb.extends {m' : Aig} {v : List ℤ} {n : ℕ} {F : (ℕ → Bool) → ℕ → Bool} (h : Lsb m v n F)
    (he : m.Extends m') : Lsb m' v n F := fun k hk => (h k hk).extends he

theorem divCarries_spec (hm : m.Wf) {rem : List ℤ} {R D : (ℕ → Bool) → ℕ → Bool}
    (hr : Lsb m rem w R) (hd : Lsb m d w D) :
    Spec (divCarries w rem d) m
      (fun c m' => Lsb m' c (w+1) (fun ρ => Bits.carry (R ρ) (D ρ) true)) := by
  refine (Spec.forRange hm (Nat.zero_le w) (fun j c m' => c.length = w+1 ∧
    Lsb m' c (j+1) (fun ρ => Bits.carry (R ρ) (D ρ) true)) ⟨by simp,?_⟩ ?_).mono
    fun c m' _ _ h => h.2
  · intro k hk
    obtain rfl : k = 0 := by omega
    rw [bits_set (by simp)]
    exact ⟨hm.valid_true,fun ρ => evalLit_true m ρ⟩
  · rintro j c m₁ - hj hm₁ he ⟨hlen,hc⟩
    refine (faDivCarry_spec hm₁ ((hr j hj).extends he) ((hd j hj).extends he)
      (hc j (by omega))).bind fun x m₂ hm₂ he₂ hx => ?_
    refine .pure hm₂ ⟨by rw [List.length_set,hlen],fun k hk => ?_⟩
    rw [bits_set (by omega)]
    by_cases hkj : j+1 = k
    · subst hkj
      rw [if_pos rfl]
      exact hx
    · rw [if_neg hkj]
      exact (hc k (by omega)).extends he₂

/-- The loop that stores the next remainder: entries up to `j` are written, the
others are still those of `rem`. -/
structure Restored (w j : ℕ) (rem : List ℤ) (S : (ℕ → Bool) → ℕ → Bool) (s : List ℤ × ℤ)
    (m : Aig) : Prop where
  length : s.1.length = w+1
  written : ∀ k < j, m.Denotes (bits s.1 (k+1)) (fun ρ => S ρ k)
  kept : ∀ k, j < k → bits s.1 k = bits rem k
  prev : s.2 = bits rem j

theorem divRemainder_spec (hm : m.Wf) {rem carry : List ℤ} {R D C : (ℕ → Bool) → ℕ → Bool}
    (hlen : rem.length = w+1) (hr : Lsb m rem w R) (hd : Lsb m d w D) (hc : Lsb m carry (w+1) C) :
    Spec (divRemainder w rem d carry) m (fun r m' => r.length = w+1 ∧ ∀ k < w, m'.Denotes (bits r (k+1))
        (fun ρ => if C ρ w then (R ρ k ^^ D ρ k) ^^ C ρ k else R ρ k)) := by
  let S : (ℕ → Bool) → ℕ → Bool := fun ρ k =>
    if C ρ w then (R ρ k ^^ D ρ k) ^^ C ρ k else R ρ k
  refine Spec.bind (Spec.forRange hm (Nat.zero_le w) (fun j s m' => Restored w j rem S s m')
    ⟨hlen,fun k hk => absurd hk (Nat.not_lt_zero k),fun _ _ => rfl,rfl⟩ ?_)
    fun s m₁ hm₁ _ hs => .pure hm₁ ⟨hs.length,hs.written⟩
  rintro j ⟨v,prevR⟩ m₁ - hj hm₁ he hs
  obtain rfl : prevR = bits rem j := hs.prev
  refine (faDivSum_spec hm₁ ((hr j hj).extends he) ((hd j hj).extends he)
    ((hc j (by omega)).extends he) ((hc w (by omega)).extends he)).bind
    fun x m₂ hm₂ he₂ hx => ?_
  have hlen' : v.length = w+1 := hs.length
  refine .pure hm₂ ⟨by rw [List.length_set,hlen'],fun k hk => ?_,fun k hk => ?_,hs.kept _ (by omega)⟩
  · rw [bits_set (by omega)]
    by_cases hkj : j = k
    · subst hkj
      rw [if_pos rfl]
      exact hx
    · rw [if_neg (by omega)]
      exact (hs.written k (by omega)).extends he₂
  · rw [bits_set (by omega),if_neg (by omega)]
    exact hs.kept k (by omega)

theorem chain_subtract {R y : ℕ} (hR : R < 2^w) (hy : y < 2^w) :
    Bits.carry R.testBit (fun k => !y.testBit k) true w = decide (y ≤ R) ∧
      (y ≤ R → ∀ k < w, Bits.sum R.testBit (fun k => !y.testBit k) true k = (R-y).testBit k) := by
  have hsum := Bits.low_sum R.testBit (fun k => !y.testBit k) true w
  have hnot := Bits.low_not y.testBit w
  have hlt := Bits.low_lt (Bits.sum R.testBit (fun k => !y.testBit k) true) w
  rw [Bits.low_testBit,Nat.mod_eq_of_lt hy] at hnot
  rw [Bits.low_testBit,Nat.mod_eq_of_lt hR,Bool.toNat_true] at hsum
  refine ⟨?_,fun hle k hk => ?_⟩
  · cases h : Bits.carry R.testBit (fun k => !y.testBit k) true w with
    | false =>
      rw [h,Bool.toNat_false] at hsum
      exact (decide_eq_false (by omega)).symm
    | true =>
      rw [h,Bool.toNat_true] at hsum
      exact (decide_eq_true (by omega)).symm
  · have hlow : Bits.low (Bits.sum R.testBit (fun k => !y.testBit k) true) w = R - y := by
      cases h : Bits.carry R.testBit (fun k => !y.testBit k) true w with
      | false =>
        rw [h,Bool.toNat_false] at hsum
        omega
      | true =>
        rw [h,Bool.toNat_true] at hsum
        omega
    have hbit := Bits.testBit_low (Bits.sum R.testBit (fun k => !y.testBit k) true) w k
    rw [hlow] at hbit
    simpa [hk] using hbit.symm

/-- After `i` rounds the remainder, one slot up, is that of the upper `i` bits of
the dividend, and `i` quotient bits are written. -/
structure Divided (w i : ℕ) (x y : (ℕ → Bool) → ℕ) (s : List ℤ × Bv) (m : Aig) : Prop where
  rem_length : s.1.length = w+1
  rem : ∀ k < w, m.Denotes (bits s.1 (k+1)) (fun ρ => (upper (x ρ) w i % y ρ).testBit k)
  q_length : s.2.length = w
  q : ∀ j < i, m.Denotes (bits s.2 j) (fun ρ => (quotient (x ρ) (y ρ) w).testBit (w-1-j))

theorem divRound_spec (hm : m.Wf) {a : Bv} (hi : i < w) {x y : (ℕ → Bool) → ℕ} (ha : Num m a w x)
    (hy : ∀ ρ, y ρ < 2^w) (hd : Lsb m d w (fun ρ k => !(y ρ).testBit k)) {s : List ℤ × Bv}
    (hs : Divided w i x y s m) :
    Spec (divRound a d i s) m (fun s' m' => Divided w (i+1) x y s' m') := by
  have hlen := hs.rem_length
  have hrem : Lsb m (s.1.set 0 (bits a i)) w (fun ρ => (shifted (x ρ) (y ρ) w i).testBit) := by
    intro k hk
    rw [bits_set (by omega)]
    cases k with
    | zero =>
      refine (ha.word.at hi).congr fun ρ => ?_
      show (x ρ).testBit (w-1-i) = (shifted (x ρ) (y ρ) w i).testBit 0
      rw [Nat.testBit_zero,shifted,Nat.mul_add_mod]
      cases (x ρ).testBit (w-1-i) <;> rfl
    | succ k =>
      refine (hs.rem k (by omega)).congr fun ρ => ?_
      have hhalf : shifted (x ρ) (y ρ) w i / 2 = upper (x ρ) w i % y ρ := by
        have hbit := Bool.toNat_le ((x ρ).testBit (w-1-i))
        rw [shifted]
        omega
      show _ = (shifted (x ρ) (y ρ) w i).testBit (k+1)
      rw [Nat.testBit_succ,hhalf]
  have hchain : ∀ ρ, _ := fun ρ => chain_subtract (shifted_lt (y ρ) (ha.lt ρ) hi) (hy ρ)
  simp only [divRound,ha.length]
  refine (divCarries_spec hm hrem hd).bind fun c m₁ hm₁ he₁ hc => ?_
  refine (divRemainder_spec hm₁ (by rw [List.length_set,hlen]) (hrem.extends he₁)
    (hd.extends he₁) hc).bind fun r m₂ hm₂ he₂ hr => ?_
  refine .pure hm₂ ⟨hr.1,fun k hk => (hr.2 k hk).congr fun ρ => ?_,
    by rw [List.length_set,hs.q_length],fun j hj => ?_⟩
  · rw [← shifted_sub (x ρ) (y ρ) hi,(hchain ρ).1]
    by_cases hle : y ρ ≤ shifted (x ρ) (y ρ) w i
    · rw [decide_eq_true hle,if_pos rfl,if_pos hle,← (hchain ρ).2 hle k hk]
      rfl
    · rw [decide_eq_false hle,if_neg hle]
      rfl
  · rw [bits_set (by rw [hs.q_length]; exact hi)]
    by_cases hji : i = j
    · subst hji
      rw [if_pos rfl]
      refine ((hc w (by omega)).extends he₂).congr fun ρ => ?_
      rw [quotient_testBit hi]
      exact (hchain ρ).1
    · rw [if_neg hji]
      exact (hs.q j (by omega)).extends (he₁.trans he₂)

theorem bits_map_range {f : ℕ → ℤ} {n : ℕ} (hi : i < n) :
    bits ((List.range n).map f) i = f i := by
  simp [bits,List.getD_eq_getElem?_getD,hi]

theorem udivUremHelper_num (hm : m.Wf) {a b : Bv} {x y : (ℕ → Bool) → ℕ} (ha : Num m a w x)
    (hb : Num m b w y) :
    Spec (udivUremHelper a b) m (fun r m' =>
      Num m' r.1 w (fun ρ => quotient (x ρ) (y ρ) w) ∧ Num m' r.2 w (fun ρ => x ρ % y ρ)) := by
  have hd : Lsb m ((List.range w).map fun i => -bits b (w-1-i)) w
      (fun ρ k => !(y ρ).testBit k) := by
    intro k hk
    rw [bits_map_range hk]
    exact (hb.word.column k hk).neg
  have hstart : Divided w 0 x y (List.replicate (w+1) aigFalse,bbAlloc w) m := by
    refine ⟨by simp,fun k hk => ?_,by simp [bbAlloc],fun j hj => absurd hj (Nat.not_lt_zero j)⟩
    have hbit : bits (List.replicate (w+1) aigFalse) (k+1) = aigFalse := by
      simp [bits,List.getD_eq_getElem?_getD,hk]
    rw [hbit]
    refine ⟨hm.valid_false,fun ρ => ?_⟩
    simp [upper_zero (ha.lt ρ)]
  simp only [udivUremHelper,ha.length]
  refine Spec.bind (Spec.forRange hm (Nat.zero_le w) (fun i s m' => Divided w i x y s m')
    hstart ?_) fun s m₁ hm₁ _ hs => .pure hm₁ ⟨?_,?_⟩
  · intro i s m₁ _ hi hm₁ he hs
    exact divRound_spec hm₁ hi (ha.extends he) hb.lt (hd.extends he) hs
  · have hq : Word m₁ s.2 w (fun ρ => (quotient (x ρ) (y ρ) w).testBit) := by
      refine ⟨hs.q_length,fun k hk => ?_⟩
      have h := hs.q (w-1-k) (by omega)
      rwa [show w-1-(w-1-k) = k by omega] at h
    refine hq.num_of fun ρ => ?_
    have hlt : quotient (x ρ) (y ρ) w < 2^w := by
      have hx := ha.lt ρ
      have hdiv := Nat.div_le_self (x ρ) (y ρ)
      rw [quotient]
      split_ifs
      · omega
      · omega
    rw [Bits.low_testBit,Nat.mod_eq_of_lt hlt]
  · have hr : Word m₁ ((List.range w).map fun i => bits s.1 (w-i)) w
        (fun ρ => (x ρ % y ρ).testBit) := by
      refine ⟨by simp,fun k hk => ?_⟩
      rw [bits_map_range (by omega),show w-(w-1-k) = k+1 by omega]
      refine (hs.rem k hk).congr fun ρ => ?_
      rw [upper_self]
    refine hr.num_of fun ρ => ?_
    have hlt : x ρ % y ρ < 2^w := (Nat.mod_le _ _).trans_lt (ha.lt ρ)
    rw [Bits.low_testBit,Nat.mod_eq_of_lt hlt]

/-- The divider's quotient and remainder: those of SMT-LIB. -/
theorem div_computes {m : Aig} (hm : m.Wf) {w : ℕ} {a b : Bv} (ha : Vec m w a)
    (hb : Vec m w b) :
    Spec (bbUdiv a b) m (fun q m' => Vec m' w q ∧ ∀ ρ, value m' ρ q =
      if value m ρ b = 0 then 2^w - 1 else value m ρ a / value m ρ b) ∧
    Spec (bbUrem a b) m (fun r m' => Vec m' w r ∧ ∀ ρ, value m' ρ r =
      if value m ρ b = 0 then value m ρ a else value m ρ a % value m ρ b) := by
  refine ⟨(udivUremHelper_num hm ha.num hb.num).bind fun r m' hm' _ hr => .pure hm' ?_,
    (udivUremHelper_num hm ha.num hb.num).bind fun r m' hm' _ hr => .pure hm' ?_⟩
  · exact ⟨⟨hr.1.length,hr.1.valid⟩,hr.1.value_eq⟩
  · refine ⟨⟨hr.2.length,hr.2.valid⟩,fun ρ => ?_⟩
    rw [hr.2.value_eq ρ]
    split_ifs with h
    · rw [h,Nat.mod_zero]
    · rfl

/-- `(x,y)` divided by `(false,x)` over two inputs `x` and `y`. -/
theorem div_computes_two :
    let m := (mkInput (mkInput new).2).2
    Spec (bbUdiv [2,3] [-1,2]) m (fun q m' => Vec m' 2 q ∧ ∀ ρ, value m' ρ q =
      if value m ρ [-1,2] = 0 then 2^2 - 1 else value m ρ [2,3] / value m ρ [-1,2]) :=
  (div_computes (mkInput_spec (mkInput_spec new_wf).1).1 (by decide) (by decide)).1

end Bitblast
end DvSolve
