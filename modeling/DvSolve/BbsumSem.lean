import Mathlib.Data.Nat.Size
import DvSolve.Bbsum

/-! Correctness of sum normalization.
The bound of a partial sum decides its width, so a partial sum narrower than the
addition has not wrapped; an entry may be spliced at another width because it is
either exact or used modulo a smaller power of two. -/
namespace DvSolve
namespace Bbsum

open Aig Bitblast BvKey

variable {b : Bound} {t : Bv} {w : ℕ} {m m' : Aig} {ts : List Bv} {S : (ℕ → Bool) → ℕ}
  {s : Option Bv × Bound × ℕ} {T : Bbsum}

def Bound.val (b : Bound) : ℕ := b.hi * 2^64 + b.lo

theorem isSat_sat : isSat sat = true := by decide

theorem bitlen_le (hb : b.lo < 2^64) (n : ℕ) : bitlen b ≤ n ↔ b.val < 2^n := by
  unfold bitlen Bound.val
  by_cases h0 : b.hi = 0
  · simp [h0,Nat.size_le]
  · rw [if_pos h0]
    by_cases hn : 64 ≤ n
    · have hsplit : 2^n = 2^(n-64) * 2^64 := by rw [← pow_add,Nat.sub_add_cancel hn]
      have hsize : 64 + b.hi.size ≤ n ↔ b.hi.size ≤ n-64 := by omega
      rw [hsize,Nat.size_le,hsplit]
      constructor
      · intro h
        nlinarith
      · intro h
        by_contra hge
        nlinarith
    · have hpow : 2^n ≤ 2^64 := Nat.pow_le_pow_right (by norm_num) (by omega)
      constructor
      · intro h
        omega
      · intro h
        omega

theorem satAdd_lo {a : Bound} : (satAdd a b).lo < 2^64 := by
  unfold satAdd
  split_ifs
  · decide
  · decide
  · exact Nat.mod_lt _ (by norm_num)

theorem halvesAdd_val {a : Bound} (ha : a.lo < 2^64) (hb : b.lo < 2^64) :
    (halvesAdd a b).val = a.val + b.val := by
  simp only [halvesAdd,Bound.val]
  split_ifs with hc
  · omega
  · omega

/-- A sum that is not saturated has unsaturated operands and is exact. -/
theorem satAdd_val {a : Bound} (ha : a.lo < 2^64) (hb : b.lo < 2^64)
    (h : isSat (satAdd a b) = false) :
    isSat a = false ∧ isSat b = false ∧ (satAdd a b).val = a.val + b.val := by
  unfold satAdd at h ⊢
  split_ifs at h ⊢ with h1 h2
  · rw [isSat_sat] at h
    cases h
  · rw [isSat_sat] at h
    cases h
  · rw [Bool.or_eq_true_iff,not_or] at h1
    exact ⟨by simpa using h1.1,by simpa using h1.2,halvesAdd_val ha hb⟩

theorem maxVal_lo (t : Bv) : (maxVal t).lo < 2^64 := by
  unfold maxVal fromU64
  split_ifs with h1 h2 h3 h4
  · have hlt := value_lt Aig.new (fun _ => false) t
    rw [value_const h1.2 h1.1] at hlt
    exact hlt.trans_le (Nat.pow_le_pow_right (by norm_num) h1.1)
  · decide
  · norm_num
  · have hlt : 2^t.length < 2^64 := Nat.pow_lt_pow_right (by norm_num) (by omega)
    exact (Nat.sub_le _ _).trans_lt hlt
  · norm_num

theorem maxVal_ge (h : isSat (maxVal t) = false) (m : Aig) (ρ : ℕ → Bool) :
    value m ρ t ≤ (maxVal t).val := by
  have hlt := value_lt m ρ t
  unfold maxVal fromU64 at h ⊢
  split_ifs at h ⊢ with h1 h2 h3 h4
  · simp [Bound.val,value_const h1.2 h1.1]
  · rw [isSat_sat] at h
    cases h
  · rw [h4] at hlt
    simp only [Bound.val]
    omega
  · simp only [Bound.val]
    omega
  · have hsplit : 2^t.length = 2^(t.length-64) * 2^64 := by
      rw [← pow_add,Nat.sub_add_cancel (by omega)]
    simp only [Bound.val]
    rw [Nat.sub_mul]
    omega

/-- A stripped term is no longer than the numbers up to its largest value. -/
theorem length_le_bitlen (ht : Stripped t) (h : isSat (maxVal t) = false) :
    t.length ≤ bitlen (maxVal t) := by
  by_contra hlt
  push Not at hlt
  have hpos : 0 < t.length := by omega
  have hval : (maxVal t).val < 2^(t.length-1) := (bitlen_le (maxVal_lo t) _).mp (by omega)
  have hpow : 2^t.length = 2 * 2^(t.length-1) := by
    rw [← pow_succ',Nat.sub_add_cancel hpos]
  unfold maxVal fromU64 at h hval
  split_ifs at h hval with h1 h2 h3 h4
  · -- a constant: its first bit is TRUE
    rw [← value_const h1.2 h1.1 Aig.new (fun _ => false)] at hval
    cases t with
    | nil => simp at hpos
    | cons l v =>
      have hl : l = aigTrue := by
        have hall := h1.2
        rw [isConst,List.all_cons,Bool.and_eq_true,Bool.or_eq_true_iff] at hall
        rcases hall.1 with h | h
        · exact of_decide_eq_true h
        · exact absurd (congrArg some (of_decide_eq_true h)) ht
      rw [value_cons,hl,evalLit_true] at hval
      simp [Bound.val] at hval
  · rw [isSat_sat] at h
    cases h
  · simp only [Bound.val] at hval
    rw [h4] at hval
    norm_num at hval
  · simp only [Bound.val] at hval
    omega
  · have hsplit : 2^t.length = 2^(t.length-64) * 2^64 := by
      rw [← pow_add,Nat.sub_add_cancel (by omega)]
    simp only [Bound.val] at hval
    rw [Nat.sub_mul] at hval
    omega

theorem bitsFor_le (b : Bound) (w : ℕ) : bitsFor b w ≤ w := by
  unfold bitsFor
  dsimp only
  split_ifs <;> omega

theorem bitsFor_pos (b : Bound) (hw : 0 < w) : 0 < bitsFor b w := by
  unfold bitsFor
  dsimp only
  split_ifs <;> omega

theorem bitsFor_lt (hb : b.lo < 2^64) (h : bitsFor b w < w) :
    isSat b = false ∧ b.val < 2^bitsFor b w := by
  have hle : isSat b = false ∧ bitlen b ≤ bitsFor b w := by
    unfold bitsFor at h ⊢
    dsimp only at h ⊢
    split_ifs at h ⊢ with h1 h2 h3
    all_goals first | omega | exact ⟨by simpa using h1,by omega⟩
  exact ⟨hle.1,(bitlen_le hb _).mp hle.2⟩

theorem le_bitsFor {n : ℕ} (hn : n ≤ w) (h : isSat b = false → n ≤ bitlen b) :
    n ≤ bitsFor b w := by
  unfold bitsFor
  dsimp only
  split_ifs with h1 h2 h3 h4
  · exact hn
  all_goals
    have h' := h (by simpa using h1)
    omega

theorem bitsFor_mono {c : Bound} (hb : b.lo < 2^64) (hc : c.lo < 2^64)
    (h : isSat c = false → isSat b = false ∧ b.val ≤ c.val) (w : ℕ) :
    bitsFor b w ≤ bitsFor c w := by
  by_cases hsat : isSat c = true
  · have hw : bitsFor c w = w := by simp [bitsFor,hsat]
    rw [hw]
    exact bitsFor_le b w
  · obtain ⟨hb',hle⟩ := h (by simpa using hsat)
    have hlt := (bitlen_le hc _).mp le_rfl
    have hlen : bitlen b ≤ bitlen c := (bitlen_le hb _).mpr (hle.trans_lt hlt)
    unfold bitsFor
    dsimp only
    rw [if_neg hsat,if_neg (by simp [hb'])]
    split_ifs <;> omega

theorem fits_iff (hb : b.lo < 2^64) (h : fits b w = true) :
    isSat b = false ∧ b.val < 2^w := by
  unfold fits at h
  split_ifs at h with h1
  exact ⟨by simpa using h1,(bitlen_le hb _).mp (of_decide_eq_true h)⟩

/-- A term over `m`: literals of the arena, the first of them not FALSE. -/
def Term (m : Aig) (t : Bv) : Prop := (∀ l ∈ t, m.Valid l) ∧ Stripped t

theorem Term.extends (h : Term m t) (he : m.Extends m') : Term m' t :=
  ⟨fun l hl => (h.1 l hl).extends he,h.2⟩

theorem strip_term {v : Bv} (h : ∀ l ∈ v, m.Valid l) : Term m (strip v) :=
  ⟨strip_valid h,strip_stripped v⟩

def total (m : Aig) (ρ : ℕ → Bool) (ts : List Bv) : ℕ := (ts.map (value m ρ)).sum

@[simp] theorem total_nil (m : Aig) (ρ : ℕ → Bool) : total m ρ [] = 0 := rfl

@[simp] theorem total_cons (m : Aig) (ρ : ℕ → Bool) (t : Bv) (ts : List Bv) :
    total m ρ (t :: ts) = value m ρ t + total m ρ ts := by simp [total]

@[simp] theorem total_append (m : Aig) (ρ : ℕ → Bool) (ss ts : List Bv) :
    total m ρ (ss ++ ts) = total m ρ ss + total m ρ ts := by simp [total]

theorem total_extends (he : m.Extends m') (h : ∀ t ∈ ts, Term m t) (ρ : ℕ → Bool) :
    total m' ρ ts = total m ρ ts := by
  rw [total,total]
  congr 1
  exact List.map_congr_left fun t ht => value_extends he (h t ht).1 ρ

theorem trunc_length (t : Bv) (w : ℕ) : (trunc t w).length ≤ w := by
  unfold trunc
  split_ifs with h
  · exact h
  · refine (strip_length_le _).trans ?_
    rw [List.length_drop]
    omega

theorem trunc_term (h : Term m t) (w : ℕ) : Term m (trunc t w) := by
  unfold trunc
  split_ifs
  · exact h
  · exact strip_term fun l hl => h.1 l (List.mem_of_mem_drop hl)

theorem value_trunc (m : Aig) (ρ : ℕ → Bool) (t : Bv) (w : ℕ) :
    value m ρ (trunc t w) = value m ρ t % 2^w := by
  unfold trunc
  split_ifs with h
  · refine (Nat.mod_eq_of_lt ((value_lt m ρ t).trans_le ?_)).symm
    exact Nat.pow_le_pow_right (by norm_num) h
  · have hlen : (t.drop (t.length-w)).length = w := by
      rw [List.length_drop]
      omega
    have hlt := value_lt m ρ (t.drop (t.length-w))
    have happ := value_append m ρ (t.take (t.length-w)) (t.drop (t.length-w))
    rw [List.take_append_drop,hlen] at happ
    rw [hlen] at hlt
    rw [value_strip,happ,Nat.mul_add_mod_of_lt hlt]

theorem zext_num (hm : m.Wf) (ht : ∀ l ∈ t, m.Valid l) (hw : t.length ≤ w) :
    Num m (zext t w) w (fun ρ => value m ρ t) := by
  unfold zext
  split_ifs with h0 h1
  · refine (num_valueU64 hm w (by norm_num)).congr fun ρ => ?_
    rw [List.eq_nil_of_length_eq_zero h0]
    simp
  · refine ⟨by simp [bbZeroExt]; omega,fun l hl => ?_,fun ρ => ?_⟩
    · rcases List.mem_append.mp hl with hl | hl
      · rw [List.eq_of_mem_replicate hl]
        exact hm.valid_false
      · exact ht l hl
    · have hz : ∀ n, value m ρ (List.replicate n aigFalse) = 0 := by
        intro n
        induction n with
        | zero => rfl
        | succ n ih => rw [List.replicate_succ,value_cons,ih,evalLit_false]; simp
      rw [bbZeroExt,value_append,hz,Nat.zero_mul,Nat.zero_add]
  · exact ⟨by omega,ht,fun _ => rfl⟩

/-- Terms `s.1` and the folded constant `s.2` stand for the sum `S` modulo `2^w`. -/
structure Flat (m : Aig) (w : ℕ) (S : (ℕ → Bool) → ℕ) (s : List Bv × ℕ) : Prop where
  terms : ∀ t ∈ s.1, Term m t ∧ t.length ≤ w
  small : s.2 < 2^64
  folded : w ≤ 64 ∨ s.2 = 0
  sum : ∀ ρ, total m ρ s.1 + s.2 ≡ S ρ [MOD 2^w]

theorem flattenTerm_flat {s : List Bv × ℕ} (hs : Flat m w S s) (ht : Term m t) :
    Flat m w (fun ρ => S ρ + value m ρ t) (flattenTerm w s t) := by
  have hterm := trunc_term ht w
  have hlen := trunc_length t w
  have hval : ∀ ρ, value m ρ (trunc t w) ≡ value m ρ t [MOD 2^w] := fun ρ => by
    rw [value_trunc]
    exact Nat.mod_modEq _ _
  unfold flattenTerm
  dsimp only
  split_ifs with h0 hc
  · -- the term is a multiple of `2^w`
    refine ⟨hs.terms,hs.small,hs.folded,fun ρ => ?_⟩
    have hz : value m ρ (trunc t w) = 0 := by rw [List.eq_nil_of_length_eq_zero h0]; rfl
    have hadd := (hs.sum ρ).add (hval ρ)
    rwa [hz,Nat.add_zero] at hadd
  · refine ⟨hs.terms,Nat.mod_lt _ (by norm_num),.inl hc.1,fun ρ => ?_⟩
    have hdvd : 2^w ∣ 2^64 := pow_dvd_pow 2 hc.1
    have hconst : constVal (trunc t w) = value m ρ (trunc t w) :=
      (value_const hc.2 (hlen.trans hc.1) m ρ).symm
    have hmod : (s.2 + constVal (trunc t w)) % 2^64 ≡ s.2 + value m ρ (trunc t w) [MOD 2^w] := by
      rw [hconst]
      exact (Nat.mod_modEq _ _).of_dvd hdvd
    calc total m ρ s.1 + (s.2 + constVal (trunc t w)) % 2^64
        ≡ total m ρ s.1 + (s.2 + value m ρ (trunc t w)) [MOD 2^w] := hmod.add_left _
      _ = total m ρ s.1 + s.2 + value m ρ (trunc t w) := by ring
      _ ≡ S ρ + value m ρ t [MOD 2^w] := (hs.sum ρ).add (hval ρ)
  · refine ⟨fun u hu => ?_,hs.small,hs.folded,fun ρ => ?_⟩
    · rcases List.mem_append.mp hu with hu | hu
      · exact hs.terms u hu
      · obtain rfl : u = trunc t w := by simpa using hu
        exact ⟨hterm,hlen⟩
    · have hadd := (hs.sum ρ).add (hval ρ)
      simpa [Nat.add_right_comm,Nat.add_assoc] using hadd

theorem flattenTerms_flat (ht : ∀ t ∈ ts, Term m t) {s : List Bv × ℕ} (hs : Flat m w S s) :
    Flat m w (fun ρ => S ρ + total m ρ ts) (ts.foldl (flattenTerm w) s) := by
  induction ts generalizing S s with
  | nil => simpa using hs
  | cons t ts ih =>
    have hstep := flattenTerm_flat hs (ht t (by simp))
    have hrest := ih (fun u hu => ht u (by simp [hu])) hstep
    simpa [Nat.add_assoc] using hrest

theorem flatten_flat (ht : ∀ t ∈ ts, Term m t) :
    Flat m w (fun ρ => total m ρ ts) (flatten w ts) := by
  have hstart : Flat m w (fun _ => 0) ([],0) :=
    ⟨by simp,by norm_num,.inr rfl,fun ρ => by simpa using Nat.ModEq.refl 0⟩
  have hfold := flattenTerms_flat ht hstart
  simp only [Nat.zero_add] at hfold
  -- sorting keeps the terms and their sum
  have hperm := List.mergeSort_perm (ts.foldl (flattenTerm w) ([],0)).1
    fun a b => (termCmp a b).isLE
  refine ⟨fun t ht => hfold.terms t (hperm.mem_iff.mp ht),hfold.small,hfold.folded,fun ρ => ?_⟩
  have htotal : total m ρ (flatten w ts).1 = total m ρ (ts.foldl (flattenTerm w) ([],0)).1 :=
    (hperm.map (value m ρ)).sum_eq
  rw [htotal]
  exact hfold.sum ρ

theorem constTerm_spec (hm : m.Wf) {c : ℕ} (hw : 0 < w) (hc : c < 2^64) (hfold : w ≤ 64 ∨ c = 0) :
    (∀ t ∈ constTerm w c, Term m t ∧ t.length ≤ w) ∧ ∀ ρ, total m ρ (constTerm w c) ≡ c [MOD 2^w] := by
  by_cases h64 : w ≤ 64
  · -- the constant reduced modulo `2^w`
    obtain ⟨d,hd⟩ : ∃ d, d = if w < 64 then c % 2^w else c := ⟨_,rfl⟩
    have hdw : d < 2^w := by
      rw [hd]
      split_ifs with h
      · exact Nat.mod_lt _ (Nat.two_pow_pos w)
      · rwa [show w = 64 by omega]
    have hdc : d ≡ c [MOD 2^w] := by
      rw [hd]
      split_ifs
      · exact Nat.mod_modEq _ _
      · rfl
    have hd64 : d < 2^64 := hdw.trans_le (Nat.pow_le_pow_right (by norm_num) h64)
    have hterm : constTerm w c =
        if d ≠ 0 then [strip (bbValueU64 (bitsFor (fromU64 d) 64) d)] else [] := by
      simp only [constTerm,if_pos h64,hd]
    have hbits : d < 2^bitsFor (fromU64 d) 64 := by
      rcases Nat.lt_or_ge (bitsFor (fromU64 d) 64) 64 with h | h
      · simpa [Bound.val,fromU64] using (bitsFor_lt (by exact hd64) h).2
      · exact hd64.trans_le (Nat.pow_le_pow_right (by norm_num) h)
    have hlen : bitsFor (fromU64 d) 64 ≤ w := by
      have hle : bitlen (fromU64 d) ≤ w :=
        (bitlen_le (by exact hd64) w).mpr (by simpa [Bound.val,fromU64] using hdw)
      unfold bitsFor
      dsimp only
      split_ifs with h1 h2
      · exact absurd h1 (by simp [isSat,satHi,fromU64])
      all_goals omega
    have hnum := num_valueU64 hm (bitsFor (fromU64 d) 64) hd64
    rw [hterm]
    split_ifs with h0
    · refine ⟨fun t ht => ?_,fun ρ => ?_⟩
      · obtain rfl := List.mem_singleton.mp ht
        refine ⟨strip_term hnum.valid,(strip_length_le _).trans ?_⟩
        rw [hnum.length]
        exact hlen
      · rw [total_cons,total_nil,value_strip,hnum.value_eq,Nat.mod_eq_of_lt hbits]
        exact hdc
    · have hd0 : d = 0 := by simpa using h0
      rw [hd0] at hdc
      exact ⟨by simp,fun ρ => hdc⟩
  · have hc0 : c = 0 := hfold.resolve_left h64
    subst hc0
    simp only [constTerm,if_neg h64]
    exact ⟨by simp,fun ρ => Nat.ModEq.refl 0⟩

/-- A partial sum of `S` on `(acc, bound, work)`: the bound holds, and `acc` is `S`
in as many bits as the bound needs. -/
structure Accum (w : ℕ) (S : (ℕ → Bool) → ℕ) (s : Option Bv × Bound × ℕ) (m : Aig) : Prop where
  lo : s.2.1.lo < 2^64
  bound : isSat s.2.1 = false → ∀ ρ, S ρ ≤ s.2.1.val
  first : s.1 = none → s.2.1 = fromU64 0
  acc : ∀ v, s.1 = some v → Num m v (bitsFor s.2.1 w) (fun ρ => S ρ % 2^bitsFor s.2.1 w)

theorem Accum.zero (h : Accum w S s m) (hs : s.1 = none) (ρ : ℕ → Bool) : S ρ = 0 := by
  have hb := h.first hs
  have hle := h.bound (by rw [hb]; decide) ρ
  rw [hb] at hle
  exact Nat.le_zero.mp hle

theorem Accum.mod_eq (h : Accum w S s m) (ρ : ℕ → Bool) : S ρ % 2^bitsFor s.2.1 w = S ρ % 2^w := by
  rcases Nat.lt_or_ge (bitsFor s.2.1 w) w with hlt | hge
  · obtain ⟨hsat,hval⟩ := bitsFor_lt h.lo hlt
    have hS := (h.bound hsat ρ).trans_lt hval
    have hpow : 2^bitsFor s.2.1 w ≤ 2^w := Nat.pow_le_pow_right (by norm_num) hlt.le
    rw [Nat.mod_eq_of_lt hS,Nat.mod_eq_of_lt (hS.trans_le hpow)]
  · rw [le_antisymm (bitsFor_le s.2.1 w) hge]

theorem sumTerm_accum (hm : m.Wf) (hw : 0 < w) (hs : Accum w S s m) (ht : Term m t)
    (hlen : t.length ≤ w) :
    Spec (sumTerm w s t) m (Accum w (fun ρ => S ρ + value m ρ t)) := by
  obtain ⟨acc,b,work⟩ := s
  have hblo : b.lo < 2^64 := hs.lo
  have hadd := satAdd_val hblo (maxVal_lo t)
  -- the new bound
  have hbound : isSat (satAdd b (maxVal t)) = false →
      ∀ ρ, S ρ + value m ρ t ≤ (satAdd b (maxVal t)).val := by
    intro h ρ
    obtain ⟨h1,h2,h3⟩ := hadd h
    rw [h3]
    exact Nat.add_le_add (hs.bound h1 ρ) (maxVal_ge h2 m ρ)
  have hwide : t.length ≤ bitsFor (satAdd b (maxVal t)) w := by
    refine le_bitsFor hlen fun h => ?_
    obtain ⟨_,h2,h3⟩ := hadd h
    refine (length_le_bitlen ht.2 h2).trans ((bitlen_le (maxVal_lo t) _).mpr ?_)
    have hlt := (bitlen_le satAdd_lo _).mp (le_refl (bitlen (satAdd b (maxVal t))))
    omega
  have hzext := zext_num hm ht.1 hwide
  cases acc with
  | none =>
    refine .pure hm ⟨satAdd_lo,hbound,fun h => absurd h (by simp),fun v hv => ?_⟩
    obtain rfl : zext t (bitsFor (satAdd b (maxVal t)) w) = v := by simpa using hv
    refine hzext.congr fun ρ => ?_
    have hlt := hzext.lt ρ
    rw [hs.zero rfl ρ,Nat.zero_add]
    exact (Nat.mod_eq_of_lt hlt).symm
  | some v =>
    have hv := hs.acc v rfl
    have hmono : bitsFor b w ≤ bitsFor (satAdd b (maxVal t)) w := by
      refine bitsFor_mono hblo satAdd_lo (fun h => ?_) w
      obtain ⟨h1,_,h3⟩ := hadd h
      exact ⟨h1,by omega⟩
    have hacc := zext_num hm hv.valid (hv.length.trans_le hmono)
    refine (bbAdd_num hm (bitsFor_pos _ hw) hacc hzext).bind fun r m' hm' _ hr => ?_
    refine .pure hm' ⟨satAdd_lo,hbound,fun h => absurd h (by simp),fun v' hv' => ?_⟩
    obtain rfl : r = v' := by simpa using hv'
    refine hr.congr fun ρ => ?_
    rw [hv.value_eq ρ]
    -- the old partial sum is `S` modulo the new width too
    rcases Nat.lt_or_ge (bitsFor b w) w with hlt | hge
    · obtain ⟨hsat,hval⟩ := bitsFor_lt hblo hlt
      rw [Nat.mod_eq_of_lt ((hs.bound hsat ρ).trans_lt hval)]
    · have hold : bitsFor b w = w := le_antisymm (bitsFor_le b w) hge
      have hnew : bitsFor (satAdd b (maxVal t)) w = w :=
        le_antisymm (bitsFor_le _ w) (hge.trans hmono)
      show (S ρ % 2^bitsFor b w + value m ρ t) % 2^bitsFor (satAdd b (maxVal t)) w = _
      rw [hold,hnew,Nat.mod_add_mod]

theorem sumTerms_accum (hm : m.Wf) (hw : 0 < w) (ht : ∀ t ∈ ts, Term m t ∧ t.length ≤ w)
    (hs : Accum w S s m) :
    Spec (ts.foldlM (sumTerm w) s) m (Accum w (fun ρ => S ρ + total m ρ ts)) := by
  induction ts generalizing m S s with
  | nil =>
    rw [List.foldlM_nil]
    exact .pure hm (by simpa using hs)
  | cons t ts ih =>
    have htt := ht t (by simp)
    rw [List.foldlM_cons]
    refine (sumTerm_accum hm hw hs htt.1 htt.2).bind fun s' m' hm' he hs' => ?_
    have hrest : ∀ u ∈ ts, Term m u ∧ u.length ≤ w := fun u hu => ht u (by simp [hu])
    refine (ih hm' (fun u hu => ⟨(hrest u hu).1.extends he,(hrest u hu).2⟩) hs').mono
      fun r m'' _ _ hr => ?_
    have htot : ∀ ρ, total m' ρ ts = total m ρ ts :=
      total_extends he fun u hu => (hrest u hu).1
    simpa [htot,Nat.add_assoc] using hr

structure EntryOk (m : Aig) (key : Bv) (e : Entry) : Prop where
  key_term : Term m key
  terms : ∀ t ∈ e.terms, Term m t
  sum : ∀ ρ, value m ρ key ≡ total m ρ e.terms [MOD 2^e.width]
  exact : e.exact = true → ∀ ρ, value m ρ key = total m ρ e.terms

theorem EntryOk.extends {key : Bv} {e : Entry} (h : EntryOk m key e) (he : m.Extends m') :
    EntryOk m' key e := by
  refine ⟨h.key_term.extends he,fun t ht => (h.terms t ht).extends he,fun ρ => ?_,fun hx ρ => ?_⟩
  · rw [value_extends he h.key_term.1,total_extends he h.terms]
    exact h.sum ρ
  · rw [value_extends he h.key_term.1,total_extends he h.terms]
    exact h.exact hx ρ

/-- Every entry is true, and every probe of the table ends. -/
structure Ok (T : Bbsum) (m : Aig) : Prop where
  roomy : T.table.Roomy
  entries : ∀ ke ∈ T.table.entries, EntryOk m ke.1 ke.2

theorem new_ok (off : Bool) (m : Aig) : (new off).Ok m :=
  ⟨OpenTable.empty_roomy,by simp [new,OpenTable.empty]⟩

theorem Ok.extends (h : T.Ok m) (he : m.Extends m') : T.Ok m' :=
  ⟨h.roomy,fun ke hke => (h.entries ke hke).extends he⟩

theorem Ok.remember (h : T.Ok m) {key : Bv} {e : Entry} (he : EntryOk m key e) :
    (T.remember key e).Ok m := by
  unfold Bbsum.remember
  split_ifs
  · exact h
  · refine ⟨h.roomy.add key e,fun ke hke => ?_⟩
    rcases OpenTable.mem_add.mp hke with hke | rfl
    · exact h.entries ke hke
    · exact he

theorem Ok.operandTerms (h : T.Ok m) (w : ℕ) {op : Bv} (hop : Term m op) :
    (∀ t ∈ operandTerms (T.operandEntry w op) op, Term m t) ∧
      ∀ ρ, total m ρ (operandTerms (T.operandEntry w op) op) ≡ value m ρ op [MOD 2^w] := by
  have hself : (∀ t ∈ [op], Term m t) ∧ ∀ ρ, total m ρ [op] ≡ value m ρ op [MOD 2^w] :=
    ⟨fun t ht => by rwa [List.mem_singleton.mp ht],fun ρ => by simpa using Nat.ModEq.refl _⟩
  unfold operandEntry
  cases hl : T.lookup op with
  | none => exact hself
  | some e =>
    by_cases hok : (e.single && (e.exact || decide (w ≤ e.width))) = true
    · have hmem : (op,e) ∈ T.table.entries := by
        unfold lookup at hl
        split_ifs at hl
        exact OpenTable.mem_of_find hl
      have he := h.entries _ hmem
      simp only [if_pos hok]
      refine ⟨he.terms,fun ρ => ?_⟩
      rw [Bool.and_eq_true,Bool.or_eq_true_iff] at hok
      rcases hok.2 with hx | hx
      · exact (congrArg (· % 2^w) (he.exact hx ρ)).symm
      · exact ((he.sum ρ).of_dvd (pow_dvd_pow 2 (of_decide_eq_true hx))).symm
    · simp only [if_neg hok]
      exact hself

theorem addPlain_ok (hm : m.Wf) (h : T.Ok m) (hw : 0 < w) {a b : Bv} (ha : Vec m w a)
    (hb : Vec m w b) (single : Bool) :
    Spec (T.addPlain a b single) m (fun r m' =>
      Num m' r.1 w (fun ρ => (value m ρ a + value m ρ b) % 2^w) ∧ r.2.Ok m') := by
  refine (bbAdd_num hm hw ha.num hb.num).bind fun r m' hm' he hr => ?_
  refine .pure hm' ⟨hr,(h.extends he).remember ?_⟩
  have hta := strip_term ha.2
  have htb := strip_term hb.2
  have hval : ∀ ρ, value m' ρ (strip r) = (value m ρ a + value m ρ b) % 2^w := fun ρ => by
    rw [value_strip,hr.value_eq]
  have htot : ∀ ρ, total m' ρ [strip a,strip b] = value m ρ a + value m ρ b := fun ρ => by
    simp [value_extends he ha.2,value_extends he hb.2]
  refine ⟨strip_term hr.valid,fun t ht => ?_,fun ρ => ?_,fun hx ρ => ?_⟩
  · rcases List.mem_cons.mp ht with rfl | ht
    · exact hta.extends he
    · rw [List.mem_singleton.mp ht]
      exact htb.extends he
  · rw [hval,htot,ha.1]
    exact Nat.mod_modEq _ _
  · -- the bound of the operands fits, so the addition did not wrap
    rw [hval,htot]
    obtain ⟨hsat,hlt⟩ := fits_iff satAdd_lo hx
    obtain ⟨h1,h2,h3⟩ := satAdd_val (maxVal_lo (strip a)) (maxVal_lo (strip b)) hsat
    have hla := maxVal_ge h1 m ρ
    have hlb := maxVal_ge h2 m ρ
    rw [value_strip] at hla hlb
    rw [ha.1] at hlt
    exact Nat.mod_eq_of_lt (by omega)

theorem addFlat_ok (hm : m.Wf) (h : T.Ok m) (hw : 0 < w) (ht : ∀ t ∈ ts, Term m t ∧ t.length ≤ w)
    (single : Bool) :
    Spec (T.addFlat w ts single) m (fun r m' =>
      Num m' r.1 w (fun ρ => total m ρ ts % 2^w) ∧ r.2.Ok m') := by
  have hstart : Accum w (fun _ => 0) (none,fromU64 0,T.work) m :=
    ⟨by norm_num [fromU64],fun _ ρ => Nat.zero_le _,fun _ => rfl,fun v hv => by cases hv⟩
  refine (sumTerms_accum hm hw ht hstart).bind fun s m' hm' he hs => ?_
  obtain ⟨acc,bound,work⟩ := s
  simp only [Nat.zero_add] at hs
  have hr : Num m' (result w acc) w (fun ρ => total m ρ ts % 2^w) := by
    cases acc with
    | none =>
      refine (num_valueU64 hm' w (by norm_num)).congr fun ρ => ?_
      rw [hs.zero rfl ρ]
    | some v =>
      have hv := hs.acc v rfl
      refine (zext_num hm' hv.valid (hv.length.trans_le (bitsFor_le _ w))).congr fun ρ => ?_
      rw [hv.value_eq ρ]
      exact hs.mod_eq ρ
  refine .pure hm' ⟨hr,?_⟩
  have htot : ∀ ρ, total m' ρ ts = total m ρ ts := total_extends he fun t h => (ht t h).1
  have hT : ({ T with flattened := T.flattened+1, work := work } : Bbsum).Ok m' :=
    ⟨h.roomy,(h.extends he).entries⟩
  refine hT.remember ⟨strip_term hr.valid,fun t h => (ht t h).1.extends he,fun ρ => ?_, fun hx ρ => ?_⟩
  · rw [value_strip,hr.value_eq,htot]
    exact Nat.mod_modEq _ _
  · obtain ⟨hsat,hlt⟩ := fits_iff hs.lo hx
    rw [value_strip,hr.value_eq,htot]
    exact Nat.mod_eq_of_lt ((hs.bound hsat ρ).trans_lt hlt)

theorem add_ok (hm : m.Wf) (h : T.Ok m) (hw : 0 < w) {a b : Bv} (ha : Vec m w a) (hb : Vec m w b)
    (single : Bool) :
    Spec (T.add a b single) m (fun r m' =>
      Num m' r.1 w (fun ρ => (value m ρ a + value m ρ b) % 2^w) ∧ r.2.Ok m') := by
  unfold Bbsum.add
  by_cases hoff : T.off = true
  · rw [if_pos hoff]
    exact (bbAdd_num hm hw ha.num hb.num).bind fun r m' hm' he hr =>
      .pure hm' ⟨hr,h.extends he⟩
  · rw [if_neg hoff]
    dsimp only
    have hT : ({ T with adds := T.adds+1 } : Bbsum).Ok m := ⟨h.roomy,h.entries⟩
    split_ifs with hsplice
    · obtain ⟨hta,hsa⟩ := hT.operandTerms a.length (strip_term ha.2)
      obtain ⟨htb,hsb⟩ := hT.operandTerms a.length (strip_term hb.2)
      have hf := flatten_flat (w := a.length) (List.forall_mem_append.mpr ⟨hta,htb⟩)
      rw [ha.1] at hf hsa hsb ⊢
      obtain ⟨hct,hcs⟩ := constTerm_spec hm hw hf.small hf.folded
      refine (addFlat_ok hm hT hw (List.forall_mem_append.mpr ⟨hf.terms,hct⟩) single).mono
        fun r m' _ _ hr => ⟨hr.1.congr fun ρ => ?_,hr.2⟩
      -- flat terms, then spliced terms, then operands
      have hflat := ((hcs ρ).add_left _).trans (hf.sum ρ)
      have hsplit := (hsa ρ).add (hsb ρ)
      rw [value_strip,value_strip] at hsplit
      rw [total_append] at hflat ⊢
      exact hflat.trans hsplit
    · exact addPlain_ok hm hT hw ha hb single

/-- Tables and arenas reached by additions of vectors of the arena, with other
vectors built on it in between. -/
inductive Run : Bbsum → Aig → Prop
  | new (off : Bool) {m : Aig} : m.Wf → Run (Bbsum.new off) m
  | grow {T : Bbsum} {m m' : Aig} : Run T m → m'.Wf → m.Extends m' → Run T m'
  | add {T : Bbsum} {m : Aig} {w : ℕ} {a b : Bv} (single : Bool) : Run T m → 0 < w →
      Vec m w a → Vec m w b → Run (T.add a b single m).1.2 (T.add a b single m).2

theorem Run.ok (h : Run T m) : m.Wf ∧ T.Ok m := by
  induction h with
  | new off hm => exact ⟨hm,new_ok off _⟩
  | grow _ hm' he ih => exact ⟨hm',ih.2.extends he⟩
  | add single _ hw ha hb ih =>
    obtain ⟨hm',_,hr⟩ := add_ok ih.1 ih.2 hw ha hb single
    exact ⟨hm',hr.2⟩

/-- In every run the remembered sums are true, and the next addition is one of its
operands modulo `2^w`. -/
theorem run_add_correct {T : Bbsum} {m : Aig} (h : Run T m) {w : ℕ} (hw : 0 < w) {a b : Bv}
    (ha : Vec m w a) (hb : Vec m w b) (single : Bool) :
    (∀ ke ∈ T.table.entries, ∀ ρ, value m ρ ke.1 ≡ total m ρ ke.2.terms [MOD 2^ke.2.width] ∧
        (ke.2.exact = true → value m ρ ke.1 = total m ρ ke.2.terms)) ∧
    Spec (T.add a b single) m (fun r m' => Vec m' w r.1 ∧
      ∀ ρ, value m' ρ r.1 = (value m ρ a + value m ρ b) % 2^w) := by
  obtain ⟨hm,hT⟩ := h.ok
  refine ⟨fun ke hke ρ => ⟨(hT.entries ke hke).sum ρ,fun hx => (hT.entries ke hke).exact hx ρ⟩,?_⟩
  exact (add_ok hm hT hw ha hb single).mono fun r m' _ _ hr =>
    ⟨⟨hr.1.length,hr.1.valid⟩,hr.1.value_eq⟩

/-- The sum of `(x,y)` and `(false,y)`, added to `(true,x)`. -/
theorem run_add_correct_two :
    let m := (mkInput (mkInput Aig.new).2).2
    let s := (Bbsum.new false).add [2,3] [-1,3] true m
    Spec (s.1.2.add s.1.1 [1,2] false) s.2 (fun r m' => Vec m' 2 r.1 ∧
      ∀ ρ, value m' ρ r.1 = (value s.2 ρ s.1.1 + value s.2 ρ [1,2]) % 2^2) :=
  let hm := (mkInput_spec (mkInput_spec new_wf).1).1
  let hs := add_ok hm (new_ok false _) (by decide) (by decide : Vec _ 2 [2,3])
    (by decide : Vec _ 2 [-1,3]) true
  (run_add_correct (.add true (.new false hm) (by decide : 0 < 2) (by decide) (by decide))
    (by decide)
    ⟨hs.2.2.1.length,hs.2.2.1.valid⟩
    ⟨rfl,fun l hl => ((by decide : ∀ l ∈ [1,2], (mkInput (mkInput Aig.new).2).2.Valid l) l
      hl).extends hs.2.1⟩ false).2

end Bbsum
end DvSolve
