import DvSolve.BbwordForm
import DvSolve.Gf2

/-! Truth of the word-level facts.
A fact is remembered only when its bound rules out a wrap, so each entry of the
tables is true for every input, and so is what is built from them. -/
namespace DvSolve
namespace Bbword

open Aig Bitblast BvKey

variable {m m' : Aig} {w : ℕ} {v k : Bv} {W : Bbword} {a b r : Bv} {c : UInt64}

structure ShapeOk (m : Aig) (v : Bv) (s : Shape) : Prop where
  valid : ∀ l ∈ v, m.Valid l
  small : v.length ≤ 64
  lin : ∀ p u, s.lin = some (p,u) → Vec m v.length u ∧
    ∀ ρ, value m ρ v = Gf2.shiftPoly p.toNat (value m ρ u) v.length
  mul : ∀ c u, s.mul = some (c,u) → Vec m v.length u ∧
    ∀ ρ, value m ρ v = value m ρ u * c.toNat % 2^v.length

/-- What a value entry of `k` says. -/
structure ValOk (m : Aig) (k : Bv) (v : Val) : Prop where
  valid : ∀ l ∈ k, m.Valid l
  bound : ∀ ρ, value m ρ k ≤ v.bound.toNat
  form : ∀ F, v.form = some F → FormOk m F (fun ρ => value m ρ k)

/-- Every entry is true, and every probe of the tables ends. -/
structure Ok (W : Bbword) (m : Aig) : Prop where
  shapes_roomy : W.shapes.Roomy
  vals_roomy : W.vals.Roomy
  shapes : ∀ e ∈ W.shapes.entries, ShapeOk m e.1 e.2
  vals : ∀ e ∈ W.vals.entries, ValOk m e.1 e.2

theorem new_ok (off : Bool) (m : Aig) : (new off).Ok m :=
  ⟨OpenTable.empty_roomy,OpenTable.empty_roomy,by simp [new,OpenTable.empty],
    by simp [new,OpenTable.empty]⟩

theorem Vec.extends (h : Vec m w v) (he : m.Extends m') :
    Vec m' w v := ⟨h.1,fun l hl => (h.2 l hl).extends he⟩

theorem ShapeOk.extends {s : Shape} (h : ShapeOk m v s) (he : m.Extends m') : ShapeOk m' v s := by
  refine ⟨fun l hl => (h.valid l hl).extends he,h.small,fun p u hp => ?_,fun c u hc => ?_⟩
  · obtain ⟨hu,hv⟩ := h.lin p u hp
    refine ⟨Vec.extends hu he,fun ρ => ?_⟩
    rw [value_extends he h.valid,value_extends he hu.2]
    exact hv ρ
  · obtain ⟨hu,hv⟩ := h.mul c u hc
    refine ⟨Vec.extends hu he,fun ρ => ?_⟩
    rw [value_extends he h.valid,value_extends he hu.2]
    exact hv ρ

theorem ValOk.extends {v : Val} (h : ValOk m k v) (he : m.Extends m') : ValOk m' k v := by
  have hval := value_extends he h.valid
  refine ⟨fun l hl => (h.valid l hl).extends he,fun ρ => ?_,fun F hF => ?_⟩
  · rw [hval]
    exact h.bound ρ
  · simp only [hval]
    exact (h.form F hF).extends he

theorem Ok.extends (h : W.Ok m) (he : m.Extends m') : W.Ok m' :=
  ⟨h.shapes_roomy,h.vals_roomy,fun e hm => (h.shapes e hm).extends he,
    fun e hm => (h.vals e hm).extends he⟩

theorem Ok.shape (h : W.Ok m) {s : Shape} (hs : W.shape v = some s) :
    ShapeOk m v s := h.shapes _ (OpenTable.mem_of_find hs)

theorem Ok.val (h : W.Ok m) {v : Val} (hv : W.val k = some v) :
    ValOk m k v := h.vals _ (OpenTable.mem_of_find hv)

theorem Ok.bound (h : W.Ok m) {b : UInt64} (hb : W.bound k = some b) (ρ : ℕ → Bool) :
    value m ρ k ≤ b.toNat := by
  unfold Bbword.bound at hb
  cases hc : constVal? k with
  | some c =>
    rw [hc] at hb
    obtain rfl : c = b := by simpa using hb
    exact (constVal?_toNat hc m ρ).le
  | none =>
    rw [hc] at hb
    cases hv : W.val k with
    | some v =>
      rw [hv] at hb
      obtain rfl : v.bound = b := by simpa using hb
      exact (h.val hv).bound ρ
    | none =>
      rw [hv] at hb
      split_ifs at hb with hlen
      obtain rfl : mask k.length = b := by simpa using hb
      have hlt := value_lt m ρ k
      rw [mask_toNat,min_eq_left (by omega)]
      omega

theorem Ok.form (h : W.Ok m) (hk : ∀ l ∈ k, m.Valid l) :
    FormOk m (W.form k) (fun ρ => value m ρ k) := by
  unfold Bbword.form
  cases hc : constVal? k with
  | some c =>
    refine ⟨fun tc htc => by simp at htc,fun ρ => ?_⟩
    rw [constVal?_toNat hc m ρ]
    rfl
  | none =>
    cases hF : (W.val k).bind Val.form with
    | some F =>
      obtain ⟨v,hv,hF⟩ := Option.bind_eq_some_iff.mp hF
      exact (h.val hv).form F hF
    | none =>
      refine ⟨fun tc htc => ?_,fun ρ => ?_⟩
      · rw [List.mem_singleton.mp htc]
        exact hk
      · simp [Form.eval,Nat.ModEq.refl]

theorem Ok.rememberVal (h : W.Ok m) {b : UInt64} {F : Option Form} (hk : ∀ l ∈ k, m.Valid l)
    (hb : ∀ ρ, value m ρ k ≤ b.toNat) (hF : ∀ G, F = some G → FormOk m G (fun ρ => value m ρ k)) :
    (W.rememberVal k b F).Ok m := by
  unfold Bbword.rememberVal
  dsimp only
  split_ifs
  · exact h
  · exact h
  · exact h
  · refine ⟨h.shapes_roomy,h.vals_roomy.add _ _,h.shapes,fun e he => ?_⟩
    rcases OpenTable.mem_add.mp he with he | rfl
    · exact h.vals e he
    · exact ⟨hk,hb,fun G hG => hF G (Option.filter_eq_some_iff.mp hG).1⟩

theorem Ok.noteAdd (h : W.Ok m) (ha : ∀ l ∈ a, m.Valid l) (hb : ∀ l ∈ b, m.Valid l)
    (hr : ∀ l ∈ r, m.Valid l) (hop : ∀ ρ, value m ρ r = (value m ρ a + value m ρ b) % 2^r.length) :
    (W.noteAdd a b r).Ok m := by
  unfold Bbword.noteAdd
  split_ifs with hoff
  · exact h
  cases hba : W.bound (strip a) with
  | none => exact h
  | some ba =>
    cases hbb : W.bound (strip b) with
    | none => exact h
    | some bb =>
      dsimp only
      cases hs : U64.addOvf ba bb with
      | none => exact h
      | some s =>
        dsimp only
        split_ifs with hwrap
        · exact h
        -- the bounds rule out a wrap
        have hle : ∀ ρ, value m ρ a + value m ρ b ≤ s.toNat := fun ρ => by
          have h1 := h.bound hba ρ
          have h2 := h.bound hbb ρ
          rw [value_strip] at h1 h2
          rw [U64.addOvf_toNat hs]
          omega
        have hlt := lt_of_le_mask (UInt64.not_lt.mp hwrap)
        have hval : ∀ ρ, value m ρ (strip r) = value m ρ a + value m ρ b := fun ρ => by
          rw [value_strip,hop]
          exact Nat.mod_eq_of_lt ((hle ρ).trans_lt hlt)
        refine h.rememberVal (strip_valid hr) (fun ρ => (hval ρ).trans_le (hle ρ)) fun G hG => ?_
        have hsum := (h.form (strip_valid ha)).add (h.form (strip_valid hb)) hG
        simpa only [value_strip,hval] using hsum

theorem Ok.noteUrem (h : W.Ok m) (ha : ∀ l ∈ a, m.Valid l) (hr : ∀ l ∈ r, m.Valid l)
    (hop : ∀ ρ, value m ρ r = value m ρ a % value m ρ b) :
    (W.noteUrem a b r).Ok m := by
  unfold Bbword.noteUrem
  split_ifs with hoff
  · exact h
  cases hc : constVal? b with
  | none => exact h
  | some c =>
    dsimp only
    split_ifs with h0
    · exact h
    have hpos := U64.toNat_pos h0
    have hval : ∀ ρ, value m ρ (strip r) = value m ρ a % c.toNat := fun ρ => by
      rw [value_strip,hop,constVal?_toNat hc m ρ]
    have hone : (c - 1).toNat = c.toNat - 1 := by
      have hle : (1 : UInt64) ≤ c := UInt64.le_iff_toNat_le.mpr hpos
      rw [UInt64.toNat_sub_of_le _ _ hle]
      rfl
    have hlast : ∀ ρ, value m ρ (strip r) ≤ (c - 1).toNat := fun ρ => by
      have hlt := Nat.mod_lt (value m ρ a) hpos
      rw [hval,hone]
      omega
    refine h.rememberVal (strip_valid hr) (fun ρ => ?_) fun G hG => ?_
    · cases hba : W.bound (strip a) with
      | none => exact hlast ρ
      | some ba =>
        dsimp only
        split_ifs
        · have h1 := h.bound hba ρ
          rw [value_strip] at h1
          rw [hval]
          exact (Nat.mod_le _ _).trans h1
        · exact hlast ρ
    · obtain rfl : Bbword.reduce (W.form (strip a)) (gcd (W.form (strip a)).mod c) = G := by
        simpa using hG
      refine (h.form (strip_valid ha)).reduce ?_ fun ρ => ?_
      · rw [gcd_toNat]
        exact Nat.gcd_dvd_left _ _
      · rw [hval,value_strip,gcd_toNat]
        exact (Nat.mod_modEq _ _).of_dvd (Nat.gcd_dvd_right _ _)

theorem Ok.noteExtract (h : W.Ok m) {hi lo : ℕ} (ha : ∀ l ∈ a, m.Valid l) (hr : ∀ l ∈ r, m.Valid l)
    (hop : ∀ ρ, value m ρ r = value m ρ a / 2^lo % 2^(hi+1-lo)) :
    (W.noteExtract a hi lo r).Ok m := by
  unfold Bbword.noteExtract
  split_ifs with hoff
  · exact h
  rw [not_or,not_not] at hoff
  obtain ⟨-,rfl⟩ := hoff
  cases hba : W.bound (strip a) with
  | none => exact h
  | some ba =>
    dsimp only
    split_ifs with hdrop
    · exact h
    -- the bits kept hold every value
    have hfit : ba.toNat < 2^(hi+1) := by
      by_cases h64 : hi + 1 < 64
      · exact lt_of_le_mask (UInt64.not_lt.mp fun hgt => hdrop ⟨h64,hgt⟩)
      · exact ba.toNat_lt.trans_le (Nat.pow_le_pow_right (by norm_num) (by omega))
    have hle : ∀ ρ, value m ρ a ≤ ba.toNat := fun ρ => by
      have h1 := h.bound hba ρ
      rwa [value_strip] at h1
    have hval : ∀ ρ, value m ρ (strip r) = value m ρ a := fun ρ => by
      rw [value_strip,hop,pow_zero,Nat.div_one,Nat.sub_zero]
      exact Nat.mod_eq_of_lt ((hle ρ).trans_lt hfit)
    refine h.rememberVal (strip_valid hr) (fun ρ => (hval ρ).trans_le (hle ρ)) fun G hG => ?_
    obtain rfl : W.form (strip a) = G := by simpa using hG
    simpa only [value_strip,hval] using h.form (strip_valid ha)

theorem Ok.linOf (h : W.Ok m) (hv : ∀ l ∈ v, m.Valid l) (hpos : 0 < v.length) :
    Vec m v.length (W.linOf v).2 ∧
      ∀ ρ, value m ρ v = Gf2.shiftPoly (W.linOf v).1.toNat (value m ρ (W.linOf v).2) v.length := by
  unfold Bbword.linOf
  cases hl : (W.shape v).bind Shape.lin with
  | none => exact ⟨⟨rfl,hv⟩,fun ρ => (Gf2.shiftPoly_one _ hpos).symm⟩
  | some pu =>
    obtain ⟨s,hs,hl⟩ := Option.bind_eq_some_iff.mp hl
    exact (h.shape hs).lin pu.1 pu.2 hl

theorem Ok.mulOf (h : W.Ok m) (hv : ∀ l ∈ v, m.Valid l) :
    Vec m v.length (W.mulOf v).2 ∧
      ∀ ρ, value m ρ v = value m ρ (W.mulOf v).2 * (W.mulOf v).1.toNat % 2^v.length := by
  unfold Bbword.mulOf
  cases hl : (W.shape v).bind Shape.mul with
  | none =>
    refine ⟨⟨rfl,hv⟩,fun ρ => ?_⟩
    have hlt := value_lt m ρ v
    simp [Nat.mod_eq_of_lt hlt]
  | some cu =>
    obtain ⟨s,hs,hl⟩ := Option.bind_eq_some_iff.mp hl
    exact (h.shape hs).mul cu.1 cu.2 hl

/-- A change of the entry of `v` that keeps shapes true keeps the table true. -/
theorem Ok.upsertShape (h : W.Ok m) {f : Shape → Shape} (hv : ∀ l ∈ v, m.Valid l)
    (hsmall : v.length ≤ 64) (hf : ∀ s, ShapeOk m v s → ShapeOk m v (f s)) :
    ({ W with shapes := W.shapes.upsert hash v ⟨none,none⟩ f } : Bbword).Ok m := by
  refine ⟨h.shapes_roomy.upsert v _ f,h.vals_roomy,fun e he => ?_,h.vals⟩
  rcases OpenTable.mem_upsert he with he | rfl | ⟨s,hs,rfl⟩
  · exact h.shapes e he
  · exact hf _ ⟨hv,hsmall,fun p u hp => (Option.some_ne_none _ hp.symm).elim,
      fun c u hc => (Option.some_ne_none _ hc.symm).elim⟩
  · exact hf s (h.shapes _ hs)

theorem Ok.rememberLin (h : W.Ok m) {u : Bv} {p : UInt64} (hv : ∀ l ∈ v, m.Valid l)
    (hsmall : v.length ≤ 64) (hu : Vec m v.length u)
    (hval : ∀ ρ, value m ρ v = Gf2.shiftPoly p.toNat (value m ρ u) v.length) :
    (W.rememberLin v p u).Ok m := by
  refine h.upsertShape hv hsmall fun s hs => ?_
  split_ifs
  · exact hs
  · refine ⟨hs.valid,hs.small,fun q t hq => ?_,hs.mul⟩
    obtain ⟨rfl,rfl⟩ : p = q ∧ u = t := by simpa using hq
    exact ⟨hu,hval⟩

theorem Ok.rememberMul (h : W.Ok m) {u : Bv} (hv : ∀ l ∈ v, m.Valid l) (hsmall : v.length ≤ 64)
    (hu : Vec m v.length u) (hval : ∀ ρ, value m ρ v = value m ρ u * c.toNat % 2^v.length) :
    (W.rememberMul v c u).Ok m := by
  refine h.upsertShape hv hsmall fun s hs => ?_
  split_ifs
  · exact hs
  · refine ⟨hs.valid,hs.small,hs.lin,fun d t hd => ?_⟩
    obtain ⟨rfl,rfl⟩ : c = d ∧ u = t := by simpa using hd
    exact ⟨hu,hval⟩

theorem Ok.noteShr (h : W.Ok m) (ha : ∀ l ∈ a, m.Valid l) (hr : ∀ l ∈ r, m.Valid l)
    (hop : ∀ ρ, value m ρ r = value m ρ a >>> value m ρ b) :
    (W.noteShr a b r).Ok m := by
  unfold Bbword.noteShr
  split_ifs with hguard
  · exact h
  push Not at hguard
  obtain ⟨-,h64,hlen⟩ := hguard
  cases hc : constVal? b with
  | none => exact h
  | some k =>
    dsimp only
    split_ifs with hk
    · exact h
    have hpos : 0 < a.length := by omega
    obtain ⟨hu,hval⟩ := h.linOf ha hpos
    refine h.rememberLin hr (by omega) (by rwa [hlen]) fun ρ => ?_
    have hult := value_lt m ρ (W.linOf a).2
    rw [hu.1] at hult
    -- the bits of the shifted polynomial below the width
    have hbits : ∀ i < a.length, ((W.linOf a).1 <<< k &&& mask a.length).toNat.testBit i =
        ((W.linOf a).1.toNat <<< k.toNat).testBit i := by
      intro i hi
      have hk64 : k.toNat % 64 = k.toNat := Nat.mod_eq_of_lt (by omega)
      have hi64 : i < 64 := by omega
      rw [UInt64.toNat_and,Nat.testBit_and,mask_toNat,min_eq_left h64,
        Nat.testBit_two_pow_sub_one,UInt64.toNat_shiftLeft,hk64,Nat.testBit_mod_two_pow]
      simp [hi,hi64]
    rw [hlen,Gf2.shiftPoly_congr _ hbits,hop,constVal?_toNat hc m ρ,hval ρ,
      ← Gf2.shiftPoly_shift,Gf2.shiftPoly_width _ hult (by omega)]

theorem xor_ok (hm : m.Wf) (h : W.Ok m) (hw : 0 < w) (ha : Vec m w a) (hb : Vec m w b) :
    Spec (W.xor a b) m (fun r m' =>
      Num m' r.1 w (fun ρ => value m ρ a ^^^ value m ρ b) ∧ r.2.Ok m') := by
  have hplain : Spec (do let r ← bbXor a b; pure (r,W)) m (fun r m' =>
      Num m' r.1 w (fun ρ => value m ρ a ^^^ value m ρ b) ∧ r.2.Ok m') :=
    (bbXor_num hm ha.num hb.num).bind fun r m' hm' he hr => .pure hm' ⟨hr,h.extends he⟩
  unfold Bbword.xor
  split_ifs with hguard
  · exact hplain
  push Not at hguard
  obtain ⟨-,h64,-⟩ := hguard
  dsimp only
  split_ifs with hbase h1 h0
  · exact hplain
  all_goals
    rw [not_not] at hbase
    obtain ⟨hua,hva⟩ := h.linOf ha.2 (by rw [ha.1]; exact hw)
    obtain ⟨-,hvb⟩ := h.linOf hb.2 (by rw [hb.1]; exact hw)
    rw [ha.1] at hua hva h64
    rw [hb.1,← hbase] at hvb
    have hsum : ∀ ρ, value m ρ a ^^^ value m ρ b = Gf2.shiftPoly
        ((W.linOf a).1 ^^^ (W.linOf b).1).toNat (value m ρ (W.linOf a).2) w := fun ρ => by
      rw [UInt64.toNat_xor,Gf2.shiftPoly_xor_left,← hva,← hvb]
  · -- the shifts cancel to the base
    refine .pure hm ⟨hua.num.congr fun ρ => ?_,⟨h.shapes_roomy,h.vals_roomy,h.shapes,h.vals⟩⟩
    rw [hsum,h1]
    exact (Gf2.shiftPoly_one _ hw).symm
  · refine .pure hm ⟨?_,⟨h.shapes_roomy,h.vals_roomy,h.shapes,h.vals⟩⟩
    rw [ha.1]
    refine (num_valueU64 hm w (by norm_num)).congr fun ρ => ?_
    rw [hsum,h0]
    simp
  · refine (bbXor_num hm ha.num hb.num).bind fun r m' hm' he hr => .pure hm' ⟨hr,?_⟩
    refine (h.extends he).rememberLin hr.valid (by rw [hr.length]; exact h64)
      (by rw [hr.length]; exact Vec.extends hua he) fun ρ => ?_
    rw [hr.value_eq,hr.length,value_extends he hua.2]
    exact hsum ρ

theorem constOperand_spec {x : Bv} (h : constOperand a b = some (c,x)) :
    (x = a ∨ x = b) ∧ ∀ (m : Aig) (ρ : ℕ → Bool), value m ρ a * value m ρ b = value m ρ x * c.toNat := by
  unfold constOperand at h
  cases hb : constVal? b with
  | some d =>
    rw [hb] at h
    obtain ⟨rfl,rfl⟩ : d = c ∧ a = x := by simpa using h
    exact ⟨.inl rfl,fun m ρ => by rw [constVal?_toNat hb m ρ]⟩
  | none =>
    rw [hb] at h
    cases ha : constVal? a with
    | some d =>
      rw [ha] at h
      obtain ⟨rfl,rfl⟩ : d = c ∧ b = x := by simpa using h
      exact ⟨.inr rfl,fun m ρ => by rw [constVal?_toNat ha m ρ,Nat.mul_comm]⟩
    | none =>
      rw [ha] at h
      cases h

theorem Ok.scaleVal (h : W.Ok m) {x : Bv} (hx : ∀ l ∈ x, m.Valid l) (hr : ∀ l ∈ r, m.Valid l)
    (hop : ∀ ρ, value m ρ r = value m ρ x * c.toNat % 2^w) : (W.scaleVal w x c r).Ok m := by
  unfold Bbword.scaleVal
  split_ifs with h0
  · exact h
  cases hb : W.bound (strip x) with
  | none => exact h
  | some bx =>
    dsimp only
    cases hp : U64.mulOvf bx c with
    | none => exact h
    | some p =>
      dsimp only
      split_ifs with hfit
      · have hprod := U64.mulOvf_toNat hp
        have hle : ∀ ρ, value m ρ x * c.toNat ≤ bx.toNat * c.toNat := fun ρ => by
          have h1 := h.bound hb ρ
          rw [value_strip] at h1
          exact Nat.mul_le_mul_right _ h1
        have hlt := lt_of_le_mask hfit
        have hval : ∀ ρ, value m ρ (strip r) = value m ρ x * c.toNat := fun ρ => by
          rw [value_strip,hop]
          refine Nat.mod_eq_of_lt ((hle ρ).trans_lt ?_)
          rwa [← hprod]
        have hbound : (bx * c).toNat = bx.toNat * c.toNat := by
          rw [UInt64.toNat_mul,← hprod]
          exact Nat.mod_eq_of_lt p.toNat_lt
        refine h.rememberVal (strip_valid hr) (fun ρ => ?_) fun G hG => ?_
        · rw [hval,hbound]
          exact hle ρ
        · have hscale := (h.form (strip_valid hx)).scale hG
          simpa only [value_strip,hval] using hscale
      · exact h

theorem and_mask_toNat (c : UInt64) (hw : w ≤ 64) :
    (c &&& mask w).toNat = c.toNat % 2^w := by
  rw [UInt64.toNat_and,mask_toNat,min_eq_left hw,Nat.and_two_pow_sub_one_eq_mod]

theorem mul_ok (hm : m.Wf) (h : W.Ok m) (hw : 0 < w) (ha : Vec m w a) (hb : Vec m w b) :
    Spec (W.mul a b) m (fun r m' =>
      Num m' r.1 w (fun ρ => value m ρ a * value m ρ b % 2^w) ∧ r.2.Ok m') := by
  have hplain : Spec (do let r ← bbMul a b; pure (r,W)) m (fun r m' =>
      Num m' r.1 w (fun ρ => value m ρ a * value m ρ b % 2^w) ∧ r.2.Ok m') :=
    (bbMul_num hm hw ha.num hb.num).bind fun r m' hm' he hr => .pure hm' ⟨hr,h.extends he⟩
  unfold Bbword.mul
  split_ifs with hguard
  · exact hplain
  push Not at hguard
  obtain ⟨-,h64,-⟩ := hguard
  cases hc : constOperand a b with
  | none => exact hplain
  | some cx =>
    obtain ⟨c,x⟩ := cx
    obtain ⟨hxab,hprod⟩ := constOperand_spec hc
    have hx : Vec m w x := by
      rcases hxab with rfl | rfl
      · exact ha
      · exact hb
    obtain ⟨hu,hval⟩ := h.mulOf hx.2
    rw [hx.1] at hu hval
    rw [ha.1] at h64 ⊢
    -- the constant factors of the base combine
    have hc2 := and_mask_toNat ((W.mulOf x).1 * c) h64
    have hfactor : ∀ ρ, value m ρ a * value m ρ b % 2^w =
        value m ρ (W.mulOf x).2 * ((W.mulOf x).1 * c &&& mask w).toNat % 2^w := fun ρ => by
      have hdvd : 2^w ∣ 2^64 := pow_dvd_pow 2 h64
      rw [hprod,hval,hc2,UInt64.toNat_mul,Nat.mod_mod_of_dvd _ hdvd,Nat.mul_mod_mod,Nat.mod_mul_mod]
      congr 1
      ring
    dsimp only
    by_cases h1 : (W.mulOf x).1 * c &&& mask w = 1
    · rw [if_pos h1]
      refine .pure hm ⟨hu.num.congr fun ρ => ?_,⟨h.shapes_roomy,h.vals_roomy,h.shapes,h.vals⟩⟩
      have hlt := hu.num.lt ρ
      rw [hfactor,h1,UInt64.toNat_one,Nat.mul_one]
      exact (Nat.mod_eq_of_lt hlt).symm
    · rw [if_neg h1]
      refine (bbMul_num hm hw ha.num hb.num).bind fun r m' hm' he hr => .pure hm' ⟨hr,?_⟩
      have hW : Ok (if (W.mulOf x).1 * c &&& mask w ≠ 0
          then W.rememberMul r ((W.mulOf x).1 * c &&& mask w) (W.mulOf x).2 else W) m' := by
        split_ifs
        · refine (h.extends he).rememberMul hr.valid (by rw [hr.length]; exact h64)
            (by rw [hr.length]; exact Vec.extends hu he) fun ρ => ?_
          rw [hr.value_eq,hr.length,value_extends he hu.2]
          exact hfactor ρ
        · exact h.extends he
      refine hW.scaleVal (Vec.extends hx he).2 hr.valid fun ρ => ?_
      rw [hr.value_eq,value_extends he hx.2,hprod]

theorem odd_testBit (h : c &&& 1 ≠ 0) : c.toNat.testBit 0 = true := by
  have hne : c.toNat % 2 ≠ 0 := fun h0 => h (UInt64.toNat_inj.mp (by
    rw [UInt64.toNat_and,UInt64.toNat_one,Nat.and_one_is_mod,h0]
    rfl))
  rw [Nat.testBit_zero]
  exact decide_eq_true (by omega)

theorem peelStep_spec (hw : 0 < w) {ka kb ua ub : Bv} {sa sb : Shape} (hka : Vec m w ka)
    (hkb : Vec m w kb) (ha : ShapeOk m ka sa) (hb : ShapeOk m kb sb)
    (h : peelStep sa sb = some (ua,ub)) : Vec m w ua ∧ Vec m w ub ∧
      ∀ ρ, value m ρ ka = value m ρ kb ↔ value m ρ ua = value m ρ ub := by
  have hmul : ∀ {c : UInt64}, sa.mul = some (c,ua) → sb.mul = some (c,ub) → c &&& 1 ≠ 0 →
      Vec m w ua ∧ Vec m w ub ∧ ∀ ρ, value m ρ ka = value m ρ kb ↔ value m ρ ua = value m ρ ub := by
    intro c hca hcb hodd
    obtain ⟨hua,hva⟩ := ha.mul c ua hca
    obtain ⟨hub,hvb⟩ := hb.mul c ub hcb
    rw [hka.1] at hua hva
    rw [hkb.1] at hub hvb
    refine ⟨hua,hub,fun ρ => ⟨fun heq => ?_,fun heq => by rw [hva,hvb,heq]⟩⟩
    rw [hva,hvb] at heq
    have hcop : Nat.gcd (2^w) c.toNat = 1 := by
      have hbit := odd_testBit hodd
      rw [Nat.testBit_zero,decide_eq_true_iff] at hbit
      exact (Nat.coprime_two_left.mpr (Nat.odd_iff.mpr hbit)).pow_left w
    exact (Nat.ModEq.cancel_right_of_coprime hcop heq).eq_of_lt_of_lt (hua.num.lt ρ)
      (hub.num.lt ρ)
  have hlin : ∀ {p : UInt64}, sa.lin = some (p,ua) → sb.lin = some (p,ub) → p &&& 1 ≠ 0 →
      Vec m w ua ∧ Vec m w ub ∧ ∀ ρ, value m ρ ka = value m ρ kb ↔ value m ρ ua = value m ρ ub := by
    intro p hpa hpb hodd
    obtain ⟨hua,hva⟩ := ha.lin p ua hpa
    obtain ⟨hub,hvb⟩ := hb.lin p ub hpb
    rw [hka.1] at hua hva
    rw [hkb.1] at hub hvb
    refine ⟨hua,hub,fun ρ => ⟨fun heq => ?_,fun heq => by rw [hva,hvb,heq]⟩⟩
    rw [hva,hvb] at heq
    obtain ⟨n,rfl⟩ : ∃ n, w = n+1 := ⟨w-1,by omega⟩
    exact Gf2.shiftPoly_injective (odd_testBit hodd) heq
  unfold peelStep at h
  extract_lets lin at h
  -- a polynomial is peeled when the factors are not
  have hrest : lin = some (ua,ub) → Vec m w ua ∧ Vec m w ub ∧
      ∀ ρ, value m ρ ka = value m ρ kb ↔ value m ρ ua = value m ρ ub := by
    intro h
    dsimp only [lin] at h
    split at h
    · rename_i p u q v hp hq
      split_ifs at h with hpq
      obtain ⟨rfl,rfl⟩ : u = ua ∧ v = ub := by simpa using h
      exact hlin hp (by rw [hq,hpq.1]) hpq.2
    · cases h
  split at h
  · rename_i c u d v hc hd
    split_ifs at h with hcd
    · obtain ⟨rfl,rfl⟩ : u = ua ∧ v = ub := by simpa using h
      exact hmul hc (by rw [hd,hcd.1]) hcd.2
    · exact hrest h
  · exact hrest h

theorem Ok.peel (h : W.Ok m) (hw : 0 < w) (n : ℕ) {ka kb : Bv} (c : ℕ) (hka : Vec m w ka)
    (hkb : Vec m w kb) :
    Vec m w (W.peel n (ka,kb,c)).1 ∧ Vec m w (W.peel n (ka,kb,c)).2.1 ∧ ∀ ρ, value m ρ ka = value m ρ kb ↔
        value m ρ (W.peel n (ka,kb,c)).1 = value m ρ (W.peel n (ka,kb,c)).2.1 := by
  induction n generalizing ka kb c with
  | zero => exact ⟨hka,hkb,fun ρ => Iff.rfl⟩
  | succ n ih =>
    rw [Bbword.peel]
    split_ifs with heq
    · exact ⟨hka,hkb,fun ρ => Iff.rfl⟩
    cases hsa : W.shape ka with
    | none => exact ⟨hka,hkb,fun ρ => Iff.rfl⟩
    | some sa =>
      cases hsb : W.shape kb with
      | none => exact ⟨hka,hkb,fun ρ => Iff.rfl⟩
      | some sb =>
        dsimp only
        cases hstep : peelStep sa sb with
        | none => exact ⟨hka,hkb,fun ρ => Iff.rfl⟩
        | some u =>
          obtain ⟨ua,ub⟩ := u
          obtain ⟨hua,hub,hiff⟩ := peelStep_spec hw hka hkb (h.shape hsa) (h.shape hsb) hstep
          obtain ⟨h1,h2,h3⟩ := ih (c+1) hua hub
          exact ⟨h1,h2,fun ρ => (hiff ρ).trans (h3 ρ)⟩

theorem formEq_eval {F G : Form} (h : formEq F G = true) (m : Aig) (ρ : ℕ → Bool) :
    F.eval m ρ = G.eval m ρ := by
  unfold formEq at h
  rw [Bool.and_eq_true] at h
  rw [Form.eval,Form.eval,of_decide_eq_true h.1,of_decide_eq_true h.2]

theorem reduce_mod (F : Form) (d : UInt64) : (reduce F d).mod = d := by
  unfold reduce
  split_ifs <;> rfl

/-- Values below a common modulus with congruent forms are equal. -/
theorem Ok.sameValue (h : W.Ok m) {va vb : Bv} (ha : ∀ l ∈ va, m.Valid l) (hb : ∀ l ∈ vb, m.Valid l)
    (hs : W.sameValue va vb = true) (ρ : ℕ → Bool) : value m ρ va = value m ρ vb := by
  unfold Bbword.sameValue at hs
  cases hba : W.bound va with
  | none => simp [hba] at hs
  | some ba =>
    cases hbb : W.bound vb with
    | none => simp [hba,hbb] at hs
    | some bb =>
      simp only [hba,hbb] at hs
      have hF := h.form ha
      have hG := h.form hb
      have hgcd := gcd_toNat (W.form va).mod (W.form vb).mod
      split_ifs at hs with h0 hd
      · -- both forms are exact
        rw [h0,UInt64.toNat_zero] at hgcd
        obtain ⟨hF0,hG0⟩ := Nat.gcd_eq_zero_iff.mp hgcd.symm
        have h1 := hF.modEq ρ
        have h2 := hG.modEq ρ
        rw [hF0,Nat.modEq_zero_iff] at h1
        rw [hG0,Nat.modEq_zero_iff] at h2
        rw [h1,h2]
        exact formEq_eval hs m ρ
      · have hFd := hF.reduce (y := fun ρ => value m ρ va)
          (d := gcd (W.form va).mod (W.form vb).mod) (by rw [hgcd]; exact Nat.gcd_dvd_left _ _)
          fun ρ => Nat.ModEq.refl _
        have hGd := hG.reduce (y := fun ρ => value m ρ vb)
          (d := gcd (W.form va).mod (W.form vb).mod) (by rw [hgcd]; exact Nat.gcd_dvd_right _ _)
          fun ρ => Nat.ModEq.refl _
        have h1 := hFd.modEq ρ
        have h2 := hGd.modEq ρ
        rw [reduce_mod] at h1 h2
        rw [formEq_eval hs m ρ] at h1
        refine (h1.trans h2.symm).eq_of_lt_of_lt ?_ ?_
        · exact (h.bound hba ρ).trans_lt (UInt64.lt_iff_toNat_lt.mp hd.2.1)
        · exact (h.bound hbb ρ).trans_lt (UInt64.lt_iff_toNat_lt.mp hd.2.2)

theorem eq_ok (hm : m.Wf) (h : W.Ok m) (hw : 0 < w) (ha : Vec m w a) (hb : Vec m w b) :
    Spec (W.eq a b) m (fun r m' =>
      Num m' r.1 1 (fun ρ => if value m ρ a = value m ρ b then 1 else 0) ∧ r.2.Ok m') := by
  unfold Bbword.eq
  split_ifs with hguard
  · exact (bbEq_num hm hw ha.num hb.num).bind fun r m' hm' he hr => .pure hm' ⟨hr,h.extends he⟩
  obtain ⟨hka,hkb,hiff⟩ := h.peel hw 256 W.peeled ha hb
  obtain ⟨⟨ka,kb,peeled⟩,hpeel⟩ : ∃ s, s = W.peel 256 (a,b,W.peeled) := ⟨_,rfl⟩
  rw [← hpeel] at hka hkb hiff ⊢
  have hW : ({ W with peeled := peeled } : Bbword).Ok m :=
    ⟨h.shapes_roomy,h.vals_roomy,h.shapes,h.vals⟩
  dsimp only at hka hkb hiff ⊢
  split_ifs with hsame
  · have heq : ∀ ρ, value m ρ a = value m ρ b := fun ρ => by
      refine (hiff ρ).mpr ?_
      rcases hsame with rfl | hsame
      · rfl
      · have hv := hW.sameValue (strip_valid hka.2) (strip_valid hkb.2) hsame ρ
        rwa [value_strip,value_strip] at hv
    refine .pure hm ⟨(num_valueU64 hm 1 (by norm_num)).congr fun ρ => ?_,
      ⟨h.shapes_roomy,h.vals_roomy,h.shapes,h.vals⟩⟩
    simp [heq ρ]
  · refine (bbEq_num hm hw hka.num hkb.num).bind fun r m' hm' he hr =>
      .pure hm' ⟨hr.congr fun ρ => ?_,hW.extends he⟩
    simp only [hiff ρ]

/-- Tables and arenas reached by calls on vectors of the arena whose noted results
are the named operation of their operands, with other vectors built in between. -/
inductive Run : Bbword → Aig → Prop
  | new (off : Bool) {m : Aig} : m.Wf → Run (Bbword.new off) m
  | grow {W : Bbword} {m m' : Aig} : Run W m → m'.Wf → m.Extends m' → Run W m'
  | noteAdd {W : Bbword} {m : Aig} {a b r : Bv} : Run W m → Vec m a.length a →
      Vec m b.length b → Vec m r.length r →
      (∀ ρ, value m ρ r = (value m ρ a + value m ρ b) % 2^r.length) → Run (W.noteAdd a b r) m
  | noteUrem {W : Bbword} {m : Aig} {a b r : Bv} : Run W m → Vec m a.length a →
      Vec m b.length b → Vec m r.length r →
      (∀ ρ, value m ρ r = if value m ρ b = 0 then value m ρ a
        else value m ρ a % value m ρ b) → Run (W.noteUrem a b r) m
  | noteExtract {W : Bbword} {m : Aig} {a r : Bv} {hi lo : ℕ} : Run W m → Vec m a.length a →
      Vec m r.length r → (∀ ρ, value m ρ r = value m ρ a / 2^lo % 2^(hi+1-lo)) →
      Run (W.noteExtract a hi lo r) m
  | noteShr {W : Bbword} {m : Aig} {a b r : Bv} : Run W m → Vec m a.length a →
      Vec m b.length b → Vec m r.length r →
      (∀ ρ, value m ρ r = value m ρ a >>> value m ρ b) → Run (W.noteShr a b r) m
  | xor {W : Bbword} {m : Aig} {w : ℕ} {a b : Bv} : Run W m → 0 < w → Vec m w a →
      Vec m w b → Run (W.xor a b m).1.2 (W.xor a b m).2
  | mul {W : Bbword} {m : Aig} {w : ℕ} {a b : Bv} : Run W m → 0 < w → Vec m w a →
      Vec m w b → Run (W.mul a b m).1.2 (W.mul a b m).2
  | eq {W : Bbword} {m : Aig} {w : ℕ} {a b : Bv} : Run W m → 0 < w → Vec m w a →
      Vec m w b → Run (W.eq a b m).1.2 (W.eq a b m).2

theorem Run.ok (h : Run W m) : m.Wf ∧ W.Ok m := by
  induction h with
  | new off hm => exact ⟨hm,new_ok off _⟩
  | grow _ hm' he ih => exact ⟨hm',ih.2.extends he⟩
  | noteAdd _ ha hb hr hop ih => exact ⟨ih.1,ih.2.noteAdd ha.2 hb.2 hr.2 hop⟩
  | noteUrem _ ha hb hr hop ih =>
    refine ⟨ih.1,ih.2.noteUrem ha.2 hr.2 fun ρ => (hop ρ).trans ?_⟩
    split_ifs with h0
    · rw [h0,Nat.mod_zero]
    · rfl
  | noteExtract _ ha hr hop ih => exact ⟨ih.1,ih.2.noteExtract ha.2 hr.2 hop⟩
  | noteShr _ ha hb hr hop ih => exact ⟨ih.1,ih.2.noteShr ha.2 hr.2 hop⟩
  | xor _ hw ha hb ih =>
    obtain ⟨hm',-,hr⟩ := xor_ok ih.1 ih.2 hw ha hb
    exact ⟨hm',hr.2⟩
  | mul _ hw ha hb ih =>
    obtain ⟨hm',-,hr⟩ := mul_ok ih.1 ih.2 hw ha hb
    exact ⟨hm',hr.2⟩
  | eq _ hw ha hb ih =>
    obtain ⟨hm',-,hr⟩ := eq_ok ih.1 ih.2 hw ha hb
    exact ⟨hm',hr.2⟩

def ValTrue (m : Aig) (k : Bv) (v : Val) : Prop :=
  ∀ ρ, value m ρ k ≤ v.bound.toNat ∧ ∀ F, v.form = some F →
    (F.mod = 0 → value m ρ k = F.eval m ρ) ∧ value m ρ k ≡ F.eval m ρ [MOD F.mod.toNat]

def ShapeTrue (m : Aig) (v : Bv) (s : Shape) : Prop :=
  ∀ ρ, (∀ p u, s.lin = some (p,u) → u.length = v.length ∧
      value m ρ v = Gf2.shiftPoly p.toNat (value m ρ u) v.length) ∧
    ∀ c u, s.mul = some (c,u) → u.length = v.length ∧ value m ρ v = value m ρ u * c.toNat % 2^v.length

theorem ValOk.true {v : Val} (h : ValOk m k v) : ValTrue m k v := by
  refine fun ρ => ⟨h.bound ρ,fun F hF => ⟨fun h0 => ?_,(h.form F hF).modEq ρ⟩⟩
  have hmod := (h.form F hF).modEq ρ
  rwa [h0,UInt64.toNat_zero,Nat.modEq_zero_iff] at hmod

theorem ShapeOk.true {s : Shape} (h : ShapeOk m v s) : ShapeTrue m v s :=
  fun ρ => ⟨fun p u hp => ⟨(h.lin p u hp).1.1,(h.lin p u hp).2 ρ⟩,
    fun c u hc => ⟨(h.mul c u hc).1.1,(h.mul c u hc).2 ρ⟩⟩

/-- In every run each fact of the tables is true, and the next XOR, multiplication
and equality denote exactly that of their operands. -/
theorem run_facts_true {W : Bbword} {m : Aig} (h : Run W m) {w : ℕ} (hw : 0 < w) {a b : Bv}
    (ha : Vec m w a) (hb : Vec m w b) :
    ((∀ e ∈ W.vals.entries, ValTrue m e.1 e.2) ∧ ∀ e ∈ W.shapes.entries, ShapeTrue m e.1 e.2) ∧
    Spec (W.xor a b) m (fun r m' => Vec m' w r.1 ∧ ∀ ρ, value m' ρ r.1 = value m ρ a ^^^ value m ρ b) ∧
    Spec (W.mul a b) m (fun r m' => Vec m' w r.1 ∧
      ∀ ρ, value m' ρ r.1 = value m ρ a * value m ρ b % 2^w) ∧
    Spec (W.eq a b) m (fun r m' => Vec m' 1 r.1 ∧
      ∀ ρ, value m' ρ r.1 = if value m ρ a = value m ρ b then 1 else 0) := by
  obtain ⟨hm,hW⟩ := h.ok
  refine ⟨⟨fun e he => (hW.vals e he).true,fun e he => (hW.shapes e he).true⟩,
    (xor_ok hm hW hw ha hb).mono fun r m' _ _ hr => ?_,
    (mul_ok hm hW hw ha hb).mono fun r m' _ _ hr => ?_,
    (eq_ok hm hW hw ha hb).mono fun r m' _ _ hr => ?_⟩
  all_goals exact ⟨⟨hr.1.length,hr.1.valid⟩,hr.1.value_eq⟩

/-- `x ^ (x >> 1)` for the two bits `x` of two inputs, noted and then XORed with
the shift again. -/
theorem run_facts_true_xorshift :
    let m := (mkInput (mkInput Aig.new).2).2
    let W := (Bbword.new false).noteShr [2,3] [-1,1] [-1,2]
    Spec (W.xor [2,3] [-1,2]) m (fun r m' => Vec m' 2 r.1 ∧
      ∀ ρ, value m' ρ r.1 = value m ρ [2,3] ^^^ value m ρ [-1,2]) :=
  (run_facts_true (.noteShr (.new false (mkInput_spec (mkInput_spec new_wf).1).1) (by decide)
    (by decide) (by decide) (fun ρ => by
      have hone : ∀ m : Aig, value m ρ [-1,1] = 1 := fun m => by
        simpa [constVal,aigTrue] using value_const (v := [-1,1]) (by decide) (by decide) m ρ
      have hlit := Bool.toNat_lt ((mkInput (mkInput Aig.new).2).2.evalLit ρ 3)
      rw [hone,value_cons,value_cons,value_cons,value_cons,Nat.shiftRight_eq_div_pow]
      simp only [value_nil,List.length_cons,List.length_nil]
      rw [show (-1 : ℤ) = aigFalse from rfl,evalLit_false,Bool.toNat_false]
      omega)) (by decide : 0 < 2) (by decide) (by decide)).2.1

end Bbword
end DvSolve
