import DvSolve.Bbword

/-! Linear forms over term vectors.
Adding, scaling and reducing forms are congruences modulo the form's modulus, with
the modulus `0` for equality; the checked 64-bit operations are exact where they
do not report an overflow. -/
namespace DvSolve

open List (forall_mem_of_forall_mem_cons mem_cons_self)
open Nat (mod_modEq)
open Option (bind_eq_some_iff)

namespace U64

variable {a b r : UInt64}

theorem addOvf_toNat (h : addOvf a b = some r) :
    r.toNat = a.toNat + b.toNat := by
  unfold addOvf at h
  split_ifs at h with hlt
  obtain rfl : a + b = r := by simpa using h
  have hb := b.toNat_lt
  rw [UInt64.lt_iff_toNat_lt,UInt64.toNat_add] at hlt
  rw [UInt64.toNat_add]
  omega

theorem mulOvf_toNat (h : mulOvf a b = some r) :
    r.toNat = a.toNat * b.toNat := by
  unfold mulOvf at h
  split_ifs at h with hov
  obtain rfl : a * b = r := by simpa using h
  have hz : a.toNat * b.toNat / 2^64 = 0 := by
    rw [← Nat.shiftRight_eq_div_pow]
    simpa using hov
  rw [UInt64.toNat_mul]
  exact Nat.mod_eq_of_lt ((Nat.div_eq_zero_iff_lt (by norm_num)).mp hz)

theorem toNat_pos {m : UInt64} (h : m ≠ 0) : 0 < m.toNat :=
  Nat.pos_of_ne_zero fun h0 => h (UInt64.toNat_inj.mp h0)

theorem mulmod_toNat (a b : UInt64) {m : UInt64} (h : m ≠ 0) :
    (mulmod a b m).toNat = a.toNat * b.toNat % m.toNat := by
  have hlt : a.toNat * b.toNat % m.toNat < 2^64 :=
    (Nat.mod_lt _ (toNat_pos h)).trans m.toNat_lt
  rw [mulmod,UInt64.toNat_ofNat']
  exact Nat.mod_eq_of_lt hlt

end U64

namespace Bbword

open Aig Bitblast BvKey

variable {a b r : UInt64} {m : Aig} {ts H R : List (Bv × UInt64)} {F : Form} {x y : (ℕ → Bool) → ℕ}

theorem gcd_toNat (a b : UInt64) : (gcd a b).toNat = Nat.gcd a.toNat b.toNat := by
  induction a, b using gcd.induct with
  | case1 a =>
    rw [gcd,dif_pos rfl]
    simp
  | case2 a b h ih =>
    rw [gcd,dif_neg h,ih,UInt64.toNat_mod,Nat.gcd_comm b.toNat,← Nat.gcd_rec,Nat.gcd_comm]

theorem mask_toNat (w : ℕ) : (mask w).toNat = 2^min w 64 - 1 := by
  unfold mask
  split_ifs with h
  · rw [min_eq_right h]
    rfl
  · have hlt : 2^w < 2^64 := Nat.pow_lt_pow_right (by norm_num) (by omega)
    rw [min_eq_left (by omega),UInt64.toNat_ofNat']
    exact Nat.mod_eq_of_lt (by omega)

theorem lt_of_le_mask {x : UInt64} {w : ℕ} (h : x ≤ mask w) : x.toNat < 2^w := by
  rw [UInt64.le_iff_toNat_le,mask_toNat] at h
  have hpow : 2^min w 64 ≤ 2^w := Nat.pow_le_pow_right (by norm_num) (min_le_left _ _)
  have hpos : 0 < 2^min w 64 := Nat.two_pow_pos _
  omega

theorem constVal?_toNat {k : Bv} {c : UInt64} (h : constVal? k = some c) (m : Aig)
    (ρ : ℕ → Bool) : value m ρ k = c.toNat := by
  unfold constVal? at h
  split_ifs at h with hlen hc
  obtain rfl : UInt64.ofNat (constVal (strip k)) = c := by simpa using h
  have hval := value_const hc (by omega) m ρ
  have hlt := value_lt m ρ (strip k)
  have hpow : 2^(strip k).length ≤ 2^64 := Nat.pow_le_pow_right (by norm_num) (by omega)
  rw [← value_strip,UInt64.toNat_ofNat',← hval]
  exact (Nat.mod_eq_of_lt (hlt.trans_le hpow)).symm

/-- `Σ c·t`. -/
def evalTerms (m : Aig) (ρ : ℕ → Bool) (ts : List (Bv × UInt64)) : ℕ :=
  (ts.map fun tc => tc.2.toNat * value m ρ tc.1).sum

@[simp] theorem evalTerms_nil (m : Aig) (ρ : ℕ → Bool) : evalTerms m ρ [] = 0 := rfl

@[simp] theorem evalTerms_cons (m : Aig) (ρ : ℕ → Bool) (tc : Bv × UInt64)
    (ts : List (Bv × UInt64)) :
    evalTerms m ρ (tc :: ts) = tc.2.toNat * value m ρ tc.1 + evalTerms m ρ ts := by
  simp [evalTerms]

@[simp] theorem evalTerms_append (m : Aig) (ρ : ℕ → Bool) (ss ts : List (Bv × UInt64)) :
    evalTerms m ρ (ss ++ ts) = evalTerms m ρ ss + evalTerms m ρ ts := by
  simp [evalTerms]

def Form.eval (m : Aig) (ρ : ℕ → Bool) (F : Form) : ℕ := F.k.toNat + evalTerms m ρ F.terms

/-- Every term vector of a list is one of the arena. -/
def TermsValid (m : Aig) (ts : List (Bv × UInt64)) : Prop :=
  ∀ tc ∈ ts, ∀ l ∈ tc.1, m.Valid l

/-- The number `x` is what the form says: congruent modulo the modulus, which
means equal for the modulus `0`. -/
structure FormOk (m : Aig) (F : Form) (x : (ℕ → Bool) → ℕ) : Prop where
  valid : TermsValid m F.terms
  modEq : ∀ ρ, x ρ ≡ F.eval m ρ [MOD F.mod.toNat]

theorem evalTerms_extends {m' : Aig} (he : m.Extends m') (h : TermsValid m ts) (ρ : ℕ → Bool) :
    evalTerms m' ρ ts = evalTerms m ρ ts := by
  rw [evalTerms,evalTerms]
  congr 1
  exact List.map_congr_left fun tc htc => by rw [value_extends he (h tc htc)]

theorem FormOk.extends {m' : Aig} (h : FormOk m F x) (he : m.Extends m') : FormOk m' F x := by
  refine ⟨fun tc htc l hl => (h.valid tc htc l hl).extends he,fun ρ => ?_⟩
  rw [Form.eval,evalTerms_extends he h.valid]
  exact h.modEq ρ

theorem cadd_modEq {m : UInt64} (h : cadd a b m = some r) :
    r.toNat ≡ a.toNat + b.toNat [MOD m.toNat] := by
  unfold cadd at h
  split_ifs at h with hm
  · dsimp only at h
    have hpos := U64.toNat_pos hm
    have hbm : (b % m).toNat < m.toNat := by simpa using Nat.mod_lt b.toNat hpos
    have hm64 := m.toNat_lt
    have hsub : (m - b % m).toNat = m.toNat - (b % m).toNat :=
      UInt64.toNat_sub_of_le _ _ (UInt64.le_iff_toNat_le.mpr hbm.le)
    have hmod : (a % m).toNat + (b % m).toNat ≡ a.toNat + b.toNat [MOD m.toNat] := by
      simpa using (mod_modEq a.toNat m.toNat).add (mod_modEq b.toNat m.toNat)
    refine Nat.ModEq.trans ?_ hmod
    split_ifs at h with hge
    · obtain rfl : a % m - (m - b % m) = r := by simpa using h
      rw [UInt64.toNat_sub_of_le _ _ hge,hsub]
      rw [ge_iff_le,UInt64.le_iff_toNat_le,hsub] at hge
      have hadd : (a % m).toNat - (m.toNat - (b % m).toNat) + m.toNat =
          (a % m).toNat + (b % m).toNat := by omega
      rw [← hadd]
      simp [Nat.ModEq]
    · obtain rfl : a % m + b % m = r := by simpa using h
      rw [ge_iff_le,UInt64.le_iff_toNat_le,hsub] at hge
      rw [UInt64.toNat_add,Nat.mod_eq_of_lt (by omega)]
  · rw [U64.addOvf_toNat h]

theorem cmul_modEq {m : UInt64} (h : cmul a b m = some r) :
    r.toNat ≡ a.toNat * b.toNat [MOD m.toNat] := by
  unfold cmul at h
  split_ifs at h with hm
  · obtain rfl : U64.mulmod (a % m) (b % m) m = r := by simpa using h
    rw [U64.mulmod_toNat _ _ hm]
    refine (mod_modEq _ _).trans ?_
    simpa using (mod_modEq a.toNat m.toNat).mul (mod_modEq b.toNat m.toNat)
  · rw [U64.mulOvf_toNat h]

theorem single_modEq (m c : UInt64) : (single m c).toNat ≡ c.toNat [MOD m.toNat] := by
  unfold single
  split_ifs
  · simpa using mod_modEq c.toNat m.toNat
  · rfl

theorem litsCmp_eq {a b : List ℤ} (h : litsCmp a b = .eq) : a = b := by
  induction a generalizing b with
  | nil =>
    cases b with
    | nil => rfl
    | cons y b => simp [litsCmp] at h
  | cons x a ih =>
    cases b with
    | nil => simp [litsCmp] at h
    | cons y b =>
      rw [litsCmp] at h
      by_cases hxy : x = y
      · rw [if_neg (by simpa using hxy)] at h
        rw [hxy,ih h]
      · rw [if_pos hxy] at h
        split_ifs at h

theorem keyCmp_eq {a b : Bv} (h : keyCmp a b = .eq) : a = b :=
  List.reverse_injective (litsCmp_eq h)

/-- A list of terms that adds `x` to the terms `H`, modulo `n`. -/
def Adds (m : Aig) (n : ℕ) (H R : List (Bv × UInt64)) (x : (ℕ → Bool) → ℕ) : Prop :=
  TermsValid m R ∧ ∀ ρ, evalTerms m ρ R ≡ evalTerms m ρ H + x ρ [MOD n]

theorem Adds.trans {n : ℕ} {H' : List (Bv × UInt64)} {z : (ℕ → Bool) → ℕ} (h : Adds m n H H' x)
    (h' : Adds m n H' R y) (hz : ∀ ρ, x ρ + y ρ = z ρ) :
    Adds m n H R z := by
  refine ⟨h'.1,fun ρ => (h'.2 ρ).trans ?_⟩
  have hadd := (h.2 ρ).add_right (y ρ)
  rwa [Nat.add_assoc,hz] at hadd

theorem pushTerm_adds {n : ℕ} {t : Bv} {v : UInt64} {c : ℕ} (hH : TermsValid m H)
    (ht : ∀ l ∈ t, m.Valid l) (hv : v.toNat ≡ c [MOD n]) (h : pushTerm H t v = some R) :
    Adds m n H R (fun ρ => c * value m ρ t) := by
  unfold pushTerm at h
  split_ifs at h with h0 hfull
  · obtain rfl : H = R := by simpa using h
    refine ⟨hH,fun ρ => ?_⟩
    have hz : 0 ≡ c * value m ρ t [MOD n] := by
      have hmul := hv.mul_right (value m ρ t)
      rwa [h0,UInt64.toNat_zero,Nat.zero_mul] at hmul
    exact hz.add_left (evalTerms m ρ H)
  · obtain rfl : H ++ [(t,v)] = R := by simpa using h
    refine ⟨fun tc htc => ?_,fun ρ => ?_⟩
    · rcases List.mem_append.mp htc with htc | htc
      · exact hH tc htc
      · rw [List.mem_singleton.mp htc]
        exact ht
    · simpa using (hv.mul_right (value m ρ t)).add_left (evalTerms m ρ H)

theorem mergeTerms_adds {n : UInt64} {F G : List (Bv × UInt64)} (hF : TermsValid m F)
    (hG : TermsValid m G) (hH : TermsValid m H) (h : mergeTerms n F G H = some R) :
    Adds m n.toNat H R (fun ρ => evalTerms m ρ F + evalTerms m ρ G) := by
  induction F, G, H using mergeTerms.induct with
  | case1 H =>
    rw [mergeTerms] at h
    obtain rfl : H = R := by simpa using h
    exact ⟨hH,fun ρ => by simpa using Nat.ModEq.refl _⟩
  | case2 t c F H ih =>
    rw [mergeTerms] at h
    obtain ⟨H',hp,hrest⟩ := bind_eq_some_iff.mp h
    have hpush := pushTerm_adds hH (hF _ mem_cons_self) (single_modEq n c) hp
    refine hpush.trans (ih H' (forall_mem_of_forall_mem_cons hF) hG hpush.1 hrest) ?_
    exact fun ρ => by simp
  | case3 t c G H ih =>
    rw [mergeTerms] at h
    obtain ⟨H',hp,hrest⟩ := bind_eq_some_iff.mp h
    have hpush := pushTerm_adds hH (hG _ mem_cons_self) (single_modEq n c) hp
    refine hpush.trans (ih H' hF (forall_mem_of_forall_mem_cons hG) hpush.1 hrest) ?_
    exact fun ρ => by simp
  | case4 t c F u d G H hcmp ih =>
    rw [mergeTerms,hcmp] at h
    obtain ⟨H',hp,hrest⟩ := bind_eq_some_iff.mp h
    have hpush := pushTerm_adds hH (hF _ mem_cons_self) (single_modEq n c) hp
    refine hpush.trans (ih H' (forall_mem_of_forall_mem_cons hF) hG hpush.1 hrest) ?_
    intro ρ
    simp only [evalTerms_cons]
    ring
  | case5 t c F u d G H hcmp ih =>
    rw [mergeTerms,hcmp] at h
    obtain ⟨H',hp,hrest⟩ := bind_eq_some_iff.mp h
    have hpush := pushTerm_adds hH (hG _ mem_cons_self) (single_modEq n d) hp
    refine hpush.trans (ih H' hF (forall_mem_of_forall_mem_cons hG) hpush.1 hrest) ?_
    intro ρ
    simp only [evalTerms_cons]
    ring
  | case6 t c F u d G H hcmp ih =>
    rw [mergeTerms,hcmp] at h
    obtain ⟨v,hv,h⟩ := bind_eq_some_iff.mp h
    obtain ⟨H',hp,hrest⟩ := bind_eq_some_iff.mp h
    obtain rfl := keyCmp_eq hcmp
    have hpush := pushTerm_adds hH (hF _ mem_cons_self) (cadd_modEq hv) hp
    refine hpush.trans (ih H' (forall_mem_of_forall_mem_cons hF)
      (forall_mem_of_forall_mem_cons hG) hpush.1 hrest) ?_
    intro ρ
    simp only [evalTerms_cons]
    ring

theorem FormOk.add {G H : Form} (hF : FormOk m F x) (hG : FormOk m G y) (h : formAdd F G = some H) :
    FormOk m H (fun ρ => x ρ + y ρ) := by
  unfold formAdd at h
  obtain ⟨k,hk,h⟩ := bind_eq_some_iff.mp h
  obtain ⟨ts,hts,h⟩ := bind_eq_some_iff.mp h
  obtain rfl : (⟨gcd F.mod G.mod,k,ts⟩ : Form) = H := by simpa using h
  obtain ⟨hvalid,hsum⟩ := mergeTerms_adds hF.valid hG.valid (fun tc htc => by simp at htc) hts
  refine ⟨hvalid,fun ρ => ?_⟩
  -- both forms hold modulo the common divisor
  have hx := (hF.modEq ρ).of_dvd (by rw [gcd_toNat]; exact Nat.gcd_dvd_left _ _ :
    (gcd F.mod G.mod).toNat ∣ F.mod.toNat)
  have hy := (hG.modEq ρ).of_dvd (by rw [gcd_toNat]; exact Nat.gcd_dvd_right _ _ :
    (gcd F.mod G.mod).toNat ∣ G.mod.toNat)
  have hall := (cadd_modEq hk).add (hsum ρ)
  refine (hx.add hy).trans (Nat.ModEq.trans ?_ hall.symm)
  simp only [Form.eval,evalTerms_nil]
  ring_nf
  rfl

theorem reduceTerms_spec {d : UInt64} (h : TermsValid m ts) : TermsValid m (reduceTerms d ts) ∧
      ∀ ρ, evalTerms m ρ ts ≡ evalTerms m ρ (reduceTerms d ts) [MOD d.toNat] := by
  induction ts with
  | nil => exact ⟨h,fun ρ => Nat.ModEq.refl 0⟩
  | cons tc ts ih =>
    obtain ⟨t,c⟩ := tc
    obtain ⟨hv,he⟩ := ih (forall_mem_of_forall_mem_cons h)
    have hc : c.toNat ≡ (c % d).toNat [MOD d.toNat] := by
      simpa using (mod_modEq c.toNat d.toNat).symm
    have hct : ∀ ρ, _ := fun ρ => (hc.mul_right (value m ρ t)).add (he ρ)
    rw [reduceTerms]
    split_ifs with hz
    · refine ⟨hv,fun ρ => ?_⟩
      have hsum := hct ρ
      rwa [hz,UInt64.toNat_zero,Nat.zero_mul,Nat.zero_add] at hsum
    · refine ⟨fun tc htc => ?_,fun ρ => by simpa using hct ρ⟩
      rcases List.mem_cons.mp htc with rfl | htc
      · exact h (t,c) mem_cons_self
      · exact hv tc htc

theorem FormOk.reduce (h : FormOk m F x) {d : UInt64} (hd : d.toNat ∣ F.mod.toNat)
    (hxy : ∀ ρ, y ρ ≡ x ρ [MOD d.toNat]) :
    FormOk m (reduce F d) y := by
  have hmod : ∀ ρ, y ρ ≡ F.eval m ρ [MOD d.toNat] := fun ρ =>
    (hxy ρ).trans ((h.modEq ρ).of_dvd hd)
  obtain ⟨hv,he⟩ := reduceTerms_spec (d := d) h.valid
  unfold Bbword.reduce
  split_ifs with h0
  · exact ⟨h.valid,hmod⟩
  · refine ⟨hv,fun ρ => (hmod ρ).trans ?_⟩
    have hk : F.k.toNat ≡ (F.k % d).toNat [MOD d.toNat] := by
      simpa using (mod_modEq F.k.toNat d.toNat).symm
    exact hk.add (he ρ)

theorem scaleTerms_spec {n s : UInt64} {us : List (Bv × UInt64)} (h : TermsValid m ts)
    (hs : scaleTerms n s ts = some us) : TermsValid m us ∧
      ∀ ρ, evalTerms m ρ us ≡ evalTerms m ρ ts * s.toNat [MOD n.toNat] := by
  induction ts generalizing us with
  | nil =>
    obtain rfl : [] = us := by simpa [scaleTerms] using hs
    exact ⟨h,fun ρ => by simpa using Nat.ModEq.refl 0⟩
  | cons tc ts ih =>
    obtain ⟨t,c⟩ := tc
    rw [scaleTerms] at hs
    obtain ⟨c',hc',hs⟩ := bind_eq_some_iff.mp hs
    obtain ⟨us',hus',hs⟩ := bind_eq_some_iff.mp hs
    obtain rfl : (t,c') :: us' = us := by simpa using hs
    obtain ⟨hv,he⟩ := ih (forall_mem_of_forall_mem_cons h) hus'
    refine ⟨fun tc htc => ?_,fun ρ => ?_⟩
    · rcases List.mem_cons.mp htc with rfl | htc
      · exact h (t,c) mem_cons_self
      · exact hv tc htc
    · simp only [evalTerms_cons]
      refine (((cmul_modEq hc').mul_right (value m ρ t)).add (he ρ)).trans ?_
      ring_nf
      rfl

theorem FormOk.scale {H : Form} (h : FormOk m F x) {s : UInt64} (hs : formScale F s = some H) :
    FormOk m H (fun ρ => x ρ * s.toNat) := by
  unfold formScale at hs
  obtain ⟨k,hk,hs⟩ := bind_eq_some_iff.mp hs
  obtain ⟨ts,hts,hs⟩ := bind_eq_some_iff.mp hs
  obtain rfl : Bbword.reduce ⟨F.mod,k,ts⟩ F.mod = H := by simpa using hs
  obtain ⟨hv,he⟩ := scaleTerms_spec h.valid hts
  have hscaled : FormOk m ⟨F.mod,k,ts⟩ (fun ρ => x ρ * s.toNat) := by
    refine ⟨hv,fun ρ => ((h.modEq ρ).mul_right s.toNat).trans (Nat.ModEq.symm ?_)⟩
    refine ((cmul_modEq hk).add (he ρ)).trans ?_
    simp only [Form.eval]
    ring_nf
    rfl
  exact hscaled.reduce (dvd_refl _) fun ρ => Nat.ModEq.refl _

end Bbword
end DvSolve
