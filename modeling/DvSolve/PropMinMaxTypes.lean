import DvSolve.PropMinMax

/-! The types of the variables for which the fires of a minimum and a maximum are right on every
domain: the bounds are compared as signed words, and kept in the order of their variable. -/
namespace DvSolve
namespace Solver

open BitVec (ofInt toInt_lt)
open List (mem_cons mem_cons_of_mem mem_cons_self)

variable {v : Variable} {vars : ℕ → Variable} {s : Engine} {W : List ℕ} {σ : ℕ → ℤ}
variable {ys : List ℕ} {u : ℕ} {n : ℤ}

section Fires

variable {ub : Bool} {b : BitVec 64} {r x : ℕ} {xs : List ℕ}
variable {m : ℤ}

theorem allSingle_stays :
    (allSingle ys).Stays (r :: x :: xs) vars fun _ => True := by
  induction ys with
  | nil => trivial
  | cons y ys ih => exact fun v => .ite trivial ih

theorem tightenEach_stays {next : Fire} (hys : ∀ y ∈ ys, y ∈ W)
    (hk : next.Stays W vars fun _ => True) : (tightenEach ub b ys next).Stays W vars
      fun _ => True := by
  induction ys with
  | nil => exact hk
  | cons y ys ih =>
    rw [List.forall_mem_cons] at hys
    exact .need hys.1 (fits_end ub _) (ih hys.2)

theorem achievers_stays {n last : ℕ} {next : ℕ → ℕ → Fire} (hlast : last ∈ W)
    (hys : ∀ y ∈ ys, y ∈ W) (hk : ∀ n, ∀ y ∈ W, (next n y).Stays W vars fun _ => True) :
    (achievers b ys n last next).Stays W vars fun _ => True := by
  induction ys generalizing n last with
  | nil => exact hk n last hlast
  | cons y ys ih =>
    rw [List.forall_mem_cons] at hys
    exact fun v => .ite (ih hys.1 hys.2) (ih hlast hys.2)

theorem fireOfN_loses (hok : ∀ v ∈ r :: x :: xs, (vars v).Ok) (hσ : Inside (r :: x :: xs) vars σ)
    (h : σ r < varOrd (vars r) (foldOf ub varLo64 vars x xs) ∨
      varOrd (vars r) (foldOf ub varHi64 vars x xs) < σ r) :
    (fireOfN ub r x xs).wp (Lost (r :: x :: xs) σ) vars := by
  have hops : ∀ y ∈ x :: xs, y ∈ r :: x :: xs := fun y hy => mem_cons_of_mem _ hy
  unfold fireOfN
  simp only [Fire.wp]
  rw [wp_foldEnds]
  refine Fire.wp_between_out (E:=fun _ => True) (.refl hok) hσ mem_cons_self h fun v₁ =>
    tightenEach_stays hops fun v₂ => .ite (achievers_stays mem_cons_self hops fun n y hy =>
      .ite trivial (.ite (.between hy allSingle_stays) allSingle_stays)) allSingle_stays

theorem fireOfN_unachieved (hok : ∀ v ∈ r :: x :: xs, (vars v).Ok) (hall : ∀ y ∈ x :: xs, y = u)
    (hur : u ≠ r) (hr : (vars r).least = (vars r).most)
    (hlo : varOrd (vars r) (varLo64 (vars u)) ≤ (vars r).least)
    (hhi : (vars r).most ≤ varOrd (vars r) (varHi64 (vars u)))
    (hmeets : KeepsTo ub (varLo64 (vars r)) (vars u))
    (hcan : canAchieve (vars u) (varLo64 (vars r)) = false) :
    (fireOfN ub r x xs).wp (fun res _ => res = .conflict) vars := by
  have hmem : r ∈ r :: x :: xs := mem_cons_self
  have hops : ∀ y ∈ x :: xs, y ∈ r :: x :: xs := fun y hy => mem_cons_of_mem _ hy
  have hfold : ∀ f, foldOf ub f vars x xs = f (vars u) := fun f => by
    obtain ⟨y,hy,h⟩ := foldOf_mem ub f vars x xs
    rw [h,hall y hy]
  have hlo_same : ∀ {vars' : ℕ → Variable} {z : ℕ}, SameType (vars z) (vars' z) →
      (vars' z).least = (vars z).least → (vars' z).most = (vars z).most →
      varLo64 (vars' z) = varLo64 (vars z) ∧ varHi64 (vars' z) = varHi64 (vars z) :=
    fun ht h1 h2 => by
      rw [Variable.least,ht.varOrd] at h1
      rw [Variable.most,ht.varOrd] at h2
      exact ⟨varOrd_inj h1,varOrd_inj h2⟩
  unfold fireOfN
  simp only [Fire.wp]
  rw [wp_foldEnds]
  refine Fire.wp_need_step hmem (.refl hok) trivial (by simp) fun va hta hla hma hfa => ?_
  refine Fire.wp_need_step hmem hta trivial (by simp) fun vars₁ ht₁ hl₁ hm₁ hf₁ => ?_
  simp only [Tighten.least,Tighten.most,Tighten.isUb,Tighten.num,if_true,Bool.false_eq_true,
    if_false] at hla hma hl₁ hm₁
  have ht := hta.trans ht₁
  have hl : (vars₁ r).least = (vars r).least := by
    rw [hl₁,hla,hfold]
    exact max_eq_left hlo
  have hm : (vars₁ r).most = (vars r).most := by
    rw [hm₁,hma,hfold]
    exact min_eq_left hhi
  obtain ⟨hr1,hr2⟩ := hlo_same (ht.same r) hl hm
  have hu : vars₁ u = vars u := (hf₁ u hur).trans (hfa u hur)
  have hout : (if ub then varHi64 (vars₁ r) else varLo64 (vars₁ r)) = varLo64 (vars r) := by
    rw [hr1,hr2,(single_iff _).mpr hr,ite_self]
  simp only [Fire.wp]
  rw [hout]
  refine wp_tightenEach hops ht (by simp) fun vars₂ ht₂ _ hsame hf₂ => ?_
  have hr₂ : vars₂ r = vars₁ r := hf₂ r fun hc => hur (hall r hc).symm
  have hu₂ := hsame u (hu ▸ hmeets)
  rw [hu] at hu₂
  obtain ⟨hu1,hu2⟩ := hlo_same ((ht.trans ht₂).same u) hu₂.1 hu₂.2
  simp only [Fire.wp]
  rw [hr₂,hr1,hr2,if_pos ((single_iff _).mpr hr)]
  refine wp_forced ?_
  rw [List.filter_eq_nil_iff.mpr fun y hy => ?_]
  rw [hall y hy]
  unfold canAchieve at hcan ⊢
  rw [hu1,hu2,hcan]
  simp

theorem fireOfN_passes (hok : ∀ v ∈ r :: x :: xs, (vars v).Ok) (hp : Pinned (r :: x :: xs) vars σ)
    (hmem : r ∈ x :: xs) (hlo : foldOf ub varLo64 vars x xs = varLo64 (vars r))
    (hhi : foldOf ub varHi64 vars x xs = varHi64 (vars r))
    (hops : ∀ y ∈ x :: xs, if ub then σ y ≤ varOrd (vars y) (varLo64 (vars r))
      else varOrd (vars y) (varLo64 (vars r)) ≤ σ y) :
    (fireOfN ub r x xs).wp (fun res _ => res ≠ .conflict) vars := by
  have hr : r ∈ r :: x :: xs := mem_cons_self
  have h1 : varOrd (vars r) (varLo64 (vars r)) = σ r := hp.least r hr
  have h2 : varOrd (vars r) (varHi64 (vars r)) = σ r := hp.most r hr
  have hfix : ∀ {vars'}, Typed (r :: x :: xs) vars vars' → Inside (r :: x :: xs) vars' σ →
      varLo64 (vars' r) = varLo64 (vars r) ∧ varHi64 (vars' r) = varLo64 (vars r) :=
    fun ht hσ => by
      have h3 := (hp.least r hr).ge.trans (ht.least r)
      have h4 := (ht.most r).trans (hp.most r hr).le
      have h5 := le_antisymm (hσ.least r hr) h3
      have h6 := le_antisymm (hσ.most r hr) h4
      rw [Variable.least,(ht.same r).varOrd] at h5
      rw [Variable.most,(ht.same r).varOrd] at h6
      exact ⟨varOrd_inj (h5.trans h1.symm),varOrd_inj (h6.symm.trans h1.symm)⟩
  refine Fire.wp_mono (fun _ _ h => h.1) (fireOfN_keeps hok hp.inside (hlo ▸ h1.le)
    (hhi ▸ h2.ge) fun vars₁ hf hσ₁ => ⟨fun y hy => ?_,fun vars₂ ht₂ hσ₂ _ _ => ⟨r,hmem,?_,?_⟩⟩)
  · rw [show outer ub (vars₁ r) = varLo64 (vars r) by
      rw [outer,(hfix hf.typed hσ₁).1,(hfix hf.typed hσ₁).2,ite_self]]
    exact hops y hy
  · obtain ⟨h3,h4⟩ := hfix (hf.typed.trans ht₂) hσ₂
    unfold canAchieve
    rw [h3,h4]
    simp [BitVec.sle_iff_toInt_le]
  · rw [(hfix (hf.typed.trans ht₂) hσ₂).1]
    exact h1.symm

theorem toInt_le_varOrd (v : Variable) (b : BitVec 64) : b.toInt ≤ varOrd v b := by
  have hb := word_cases b
  cases hv : v.beyond
  · exact (varOrd_plain hv b).ge
  · rw [varOrd_beyond hv]
    omega

theorem front_signed (hσ : Inside (r :: x :: xs) vars σ) (hR : PickRel ub r (x :: xs) σ)
    (hops : ∀ y ∈ x :: xs, (vars y).least = (varLo64 (vars y)).toInt ∧
      (vars y).most = (varHi64 (vars y)).toInt)
    (hlo : varOrd (vars r) (foldOf ub varLo64 vars x xs) = (foldOf ub varLo64 vars x xs).toInt)
    (hhi : varOrd (vars r) (foldOf ub varHi64 vars x xs) = (foldOf ub varHi64 vars x xs).toInt) :
    varOrd (vars r) (foldOf ub varLo64 vars x xs) ≤ σ r ∧
      σ r ≤ varOrd (vars r) (foldOf ub varHi64 vars x xs) := by
  have hmem : ∀ y ∈ x :: xs, y ∈ r :: x :: xs := fun y hy => mem_cons_of_mem _ hy
  obtain ⟨⟨y,hy,hval⟩,hall⟩ := hR
  obtain ⟨z,hz,hfold⟩ := foldOf_mem ub varLo64 vars x xs
  obtain ⟨z',hz',hfold'⟩ := foldOf_mem ub varHi64 vars x xs
  have h1 := foldOf_bound ub varLo64 vars hy
  have h2 := foldOf_bound ub varHi64 vars hy
  have h3 := hall z hz
  have h4 := hall z' hz'
  have h5 := hσ.least y (hmem y hy)
  have h6 := hσ.most y (hmem y hy)
  have h7 := hσ.least z (hmem z hz)
  have h8 := hσ.most z' (hmem z' hz')
  rw [(hops y hy).1] at h5
  rw [(hops y hy).2] at h6
  rw [(hops z hz).1,← hfold] at h7
  rw [(hops z' hz').2,← hfold'] at h8
  rw [hlo,hhi]
  split_ifs at h1 h2 h3 h4 <;> omega

theorem fireOfN_self (hok : ∀ v ∈ r :: x :: xs, (s.ctx.vars v).Ok) (hall : ∀ y ∈ x :: xs, y = r) :
    Complies (r :: x :: xs) (PickRel ub r (x :: xs)) (fireOfN ub r x xs) s := by
  have hfold : ∀ f, foldOf ub f s.ctx.vars x xs = f (s.ctx.vars r) := fun f => by
    obtain ⟨y,hy,h⟩ := foldOf_mem ub f s.ctx.vars x xs
    rw [h,hall y hy]
  refine fireOfN_complies hok (fun σ hσ _ => ?_) (fun _ => .inl fun y hy => ?_)
    fun y hy => .inl (hall y hy)
  · rw [hfold,hfold]
    exact ⟨hσ.least r mem_cons_self,hσ.most r mem_cons_self⟩
  · rw [hall y hy]

/-- No operand is an unsigned word of 64 bits, and if the result is one then no folded bound is
negative. -/
theorem fireOfN_plain (hok : ∀ v ∈ r :: x :: xs, (s.ctx.vars v).Ok)
    (hplain : ∀ y ∈ x :: xs, (s.ctx.vars y).beyond = false)
    (hr : (s.ctx.vars r).beyond = true → (∃ σ, Inside (r :: x :: xs) s.ctx.vars σ) →
      0 ≤ (foldOf ub varLo64 s.ctx.vars x xs).toInt ∧ 0 ≤ (foldOf ub varHi64 s.ctx.vars x xs).toInt) :
    Complies (r :: x :: xs) (PickRel ub r (x :: xs)) (fireOfN ub r x xs) s := by
  have hlt : (foldOf ub varHi64 s.ctx.vars x xs).toInt < 2^63 := toInt_lt
  refine fireOfN_complies hok (fun σ hσ hR => ?_) (fun hσ => ?_) fun y hy => .inr (.inl (hplain y hy))
  · refine front_signed hσ hR (fun y hy => ⟨varOrd_plain (hplain y hy) _,
      varOrd_plain (hplain y hy) _⟩) ?_ ?_
    · exact varOrd_of_nonneg fun hb => (hr hb ⟨σ,hσ⟩).1
    · exact varOrd_of_nonneg fun hb => (hr hb ⟨σ,hσ⟩).2
  · cases hb : (s.ctx.vars r).beyond
    · exact .inl fun y hy => (hplain y hy).trans hb.symm
    · obtain ⟨h1,h2⟩ := hr hb hσ
      refine .inr ⟨?_,?_⟩
      · rw [varOrd_of_nonneg fun _ => h1]
        exact h1
      · rw [varOrd_of_nonneg fun _ => h2]
        exact hlt

def Variable.natural (v : Variable) : Bool := !v.signed && !v.beyond

theorem Variable.Ok.natural_ends (hv : v.Ok) (h : v.natural = true) (hle : v.least ≤ v.most) :
    0 ≤ (varLo64 v).toInt ∧ 0 ≤ (varHi64 v).toInt := by
  simp only [Variable.natural,Bool.and_eq_true,Bool.not_eq_true'] at h
  have h1 := hv.bot
  rw [Variable.bot,h.1,if_neg (by simp)] at h1
  have h2 := hle
  rw [Variable.least,varOrd_plain h.2] at h1 h2
  rw [Variable.most,varOrd_plain h.2] at h2
  exact ⟨h1,h1.trans h2⟩

/-- Whether `fireMinOfN32` is right for variables of the types of `T`, whatever their domains. -/
def MinRight (T : ℕ → Variable) (r : ℕ) (ops : List ℕ) : Prop :=
  (∀ y ∈ ops, y = r) ∨
  (∀ y ∈ ops, (T y).beyond = false) ∧ ((T r).beyond = true → ∀ y ∈ ops, (T y).natural = true)

def MaxRight (T : ℕ → Variable) (r : ℕ) (ops : List ℕ) : Prop :=
  (∀ y ∈ ops, y = r) ∨
  (∀ y ∈ ops, (T y).beyond = false) ∧ ((T r).beyond = true → ∃ y ∈ ops, (T y).natural = true) ∨
  (T r).beyond = false ∧ (∃ y ∈ ops, (T y).natural = true) ∧
    (r ∈ ops ∨ (T r).signed = true ∧ (T r).width = 1)

structure OfTypes (T : ℕ → Variable) (W : List ℕ) (s : Engine) : Prop where
  same : ∀ v ∈ W, SameType (T v) (s.ctx.vars v)
  ok : ∀ v ∈ W, (s.ctx.vars v).Ok

theorem SameType.natural {v' : Variable} (h : SameType v v') : v'.natural = v.natural := by
  rw [Variable.natural,Variable.natural,h.signed,h.beyond]

theorem Inside.live {y : ℕ} (h : Inside W vars σ) (hy : y ∈ W) : (vars y).least ≤ (vars y).most :=
  (h.least y hy).trans (h.most y hy)

variable {T : ℕ → Variable}

theorem MinRight.complies (h : MinRight T r (x :: xs)) (hs : OfTypes T (r :: x :: xs) s) :
    Complies (r :: x :: xs) (MinRel r (x :: xs)) (fireMinOfN32 r x xs) s := by
  have hops : ∀ y ∈ x :: xs, y ∈ r :: x :: xs := fun y hy => mem_cons_of_mem _ hy
  rw [minRel_eq]
  rcases h with hall | ⟨hplain,hnat⟩
  · exact fireOfN_self hs.ok hall
  · refine fireOfN_plain hs.ok (fun y hy => (hs.same y (hops y hy)).beyond.trans (hplain y hy))
      fun hb ⟨σ,hσ⟩ => ?_
    rw [(hs.same r mem_cons_self).beyond] at hb
    obtain ⟨y,hy,h1⟩ := foldOf_mem false varLo64 s.ctx.vars x xs
    obtain ⟨z,hz,h2⟩ := foldOf_mem false varHi64 s.ctx.vars x xs
    rw [h1,h2]
    exact ⟨((hs.ok y (hops y hy)).natural_ends ((hs.same y (hops y hy)).natural.trans
        (hnat hb y hy)) (hσ.live (hops y hy))).1,
      ((hs.ok z (hops z hz)).natural_ends ((hs.same z (hops z hz)).natural.trans
        (hnat hb z hz)) (hσ.live (hops z hz))).2⟩

theorem MaxRight.complies (h : MaxRight T r (x :: xs)) (hs : OfTypes T (r :: x :: xs) s) :
    Complies (r :: x :: xs) (MaxRel r (x :: xs)) (fireMaxOfN32 r x xs) s := by
  have hr : r ∈ r :: x :: xs := mem_cons_self
  have hops : ∀ y ∈ x :: xs, y ∈ r :: x :: xs := fun y hy => mem_cons_of_mem _ hy
  -- an unsigned operand keeps both folded bounds from being negative
  have hfold : (∃ y ∈ x :: xs, (T y).natural = true) → (∃ σ, Inside (r :: x :: xs) s.ctx.vars σ) →
      0 ≤ (foldOf true varLo64 s.ctx.vars x xs).toInt ∧
        0 ≤ (foldOf true varHi64 s.ctx.vars x xs).toInt := fun ⟨y,hy,hn⟩ ⟨σ,hσ⟩ => by
    have h1 := (hs.ok y (hops y hy)).natural_ends ((hs.same y (hops y hy)).natural.trans hn)
      (hσ.live (hops y hy))
    exact ⟨h1.1.trans (foldOf_bound true varLo64 _ hy),h1.2.trans (foldOf_bound true varHi64 _ hy)⟩
  rw [maxRel_eq]
  rcases h with hall | ⟨hplain,hnat⟩ | ⟨hb,hnat,hres⟩
  · exact fireOfN_self hs.ok hall
  · refine fireOfN_plain hs.ok (fun y hy => (hs.same y (hops y hy)).beyond.trans (hplain y hy))
      fun hb => ?_
    rw [(hs.same r hr).beyond] at hb
    exact hfold (hnat hb)
  · have hb' : (s.ctx.vars r).beyond = false := (hs.same r hr).beyond.trans hb
    have hlt : (foldOf true varHi64 s.ctx.vars x xs).toInt < 2^63 := toInt_lt
    refine fireOfN_complies hs.ok (fun σ hσ hR => ?_) (fun hσ => .inr ?_)
      fun y hy => .inr (.inr (.inr ⟨rfl,?_⟩))
    · obtain ⟨z,hz,h1⟩ := foldOf_mem true varLo64 s.ctx.vars x xs
      have h2 := toInt_le_varOrd (s.ctx.vars z) (varLo64 (s.ctx.vars z))
      have h3 : varOrd (s.ctx.vars z) (varLo64 (s.ctx.vars z)) ≤ σ z := hσ.least z (hops z hz)
      have h4 : σ z ≤ σ r := hR.2 z hz
      rw [varOrd_plain hb',varOrd_plain hb']
      refine ⟨by rw [h1]; omega,?_⟩
      have hm := hσ.most r hr
      rcases hres with hmem | ⟨hsg,hw⟩
      · have h5 : (varHi64 (s.ctx.vars r)).toInt ≤ _ := foldOf_bound true varHi64 _ hmem
        rw [Variable.most,varOrd_plain hb'] at hm
        exact hm.trans h5
      · have htop := (hs.ok r hr).top
        rw [Variable.top,(hs.same r hr).signed,(hs.same r hr).width,hsg,hw,if_pos rfl] at htop
        have h5 := (hfold hnat ⟨σ,hσ⟩).2
        omega
    · rw [varOrd_plain hb',varOrd_plain hb']
      exact ⟨(hfold hnat hσ).1,hlt⟩
    · rw [varOrd_plain hb']
      exact hlt

theorem fireOfN_small (hok : ∀ v ∈ r :: x :: xs, (s.ctx.vars v).Ok)
    (hsmall : ∀ y ∈ x :: xs, 0 ≤ (varLo64 (s.ctx.vars y)).toInt ∧ 0 ≤ (varHi64 (s.ctx.vars y)).toInt) :
    Complies (r :: x :: xs) (PickRel ub r (x :: xs)) (fireOfN ub r x xs) s := by
  obtain ⟨z,hz,h1⟩ := foldOf_mem ub varLo64 s.ctx.vars x xs
  obtain ⟨z',hz',h2⟩ := foldOf_mem ub varHi64 s.ctx.vars x xs
  have hlo := h1 ▸ (hsmall z hz).1
  have hhi := h2 ▸ (hsmall z' hz').2
  have hlt : ∀ b : BitVec 64, b.toInt < 2^63 := fun b => toInt_lt
  refine fireOfN_complies hok (fun σ hσ hR => ?_) (fun _ => .inr ?_) fun y hy => .inr (.inr (.inl ?_))
  · exact front_signed hσ hR (fun y hy => ⟨varOrd_of_nonneg fun _ => (hsmall y hy).1,
      varOrd_of_nonneg fun _ => (hsmall y hy).2⟩) (varOrd_of_nonneg fun _ => hlo)
      (varOrd_of_nonneg fun _ => hhi)
  · rw [varOrd_of_nonneg fun _ => hlo,varOrd_of_nonneg fun _ => hhi]
    exact ⟨hlo,hlt _⟩
  · rw [Variable.most,varOrd_of_nonneg fun _ => (hsmall y hy).2]
    exact hlt _

def Variable.held (v : Variable) (a b : ℤ) : Variable :=
  setBound (setBound v .lb (ofInt 64 a)) .ub (ofInt 64 b)

structure Variable.Holds (v : Variable) (a b : ℤ) : Prop where
  bot : v.bot ≤ a
  le : a ≤ b
  top : b ≤ v.top
  small : v.tier1 = false → b < 2^31

theorem msb_setWidth32 (h0 : 0 ≤ n) (h1 : n < 2^31) :
    ((ofInt 64 n).setWidth 32).msb = false := by
  rw [BitVec.msb_eq_false_iff_two_mul_lt,BitVec.toNat_setWidth,BitVec.toNat_ofInt]
  omega

theorem Variable.Ok.reset_ok (hv : v.Ok) (k : TrailKind) (hbot : v.bot ≤ n) (htop : n ≤ v.top)
    (hs : v.tier1 = false → n < 2^31) : (setBound v k (ofInt 64 n)).Ok := by
  have hn := hv.varOrd_ofInt hbot htop
  refine hv.setBound_ok k (hn.symm ▸ hbot) (hn.symm ▸ htop) fun h0 hsg => ?_
  rw [Variable.bot,hsg,if_neg (by simp)] at hbot
  exact msb_setWidth32 hbot (hs h0)

theorem Variable.Ok.held (hv : v.Ok) (h : v.Holds m n) :
    (v.held m n).Ok ∧ SameType v (v.held m n) ∧ (v.held m n).least = m ∧ (v.held m n).most = n := by
  have h1 := setBound_same v .lb (ofInt 64 m)
  have hmt := h.le.trans h.top
  have hm := hv.varOrd_ofInt h.bot hmt
  have hok := hv.reset_ok .lb h.bot hmt fun h0 => h.le.trans_lt (h.small h0)
  have hbot := h1.bot.trans_le (h.bot.trans h.le)
  have htop := h.top.trans h1.top.ge
  have hn := hok.varOrd_ofInt hbot htop
  refine ⟨hok.reset_ok .ub hbot htop (h1.tier1 ▸ h.small),h1.trans (setBound_same _ _ _),?_,?_⟩
  · exact (Variable.Ok.setUb_least _ _).trans ((hv.setLb_least (hm.symm ▸ h.bot) (hm.symm ▸ hmt)).trans hm)
  · exact (hok.setUb_most (hn.symm ▸ hbot) (hn.symm ▸ htop)).trans hn

def heldAs (T : ℕ → Variable) (D : ℕ → ℤ × ℤ) : Engine := holding fun v => (T v).held (D v).1 (D v).2

section Wrong

variable {D : ℕ → ℤ × ℤ}

theorem heldAs_types (hT : ∀ v ∈ W, (T v).Ok) (hD : ∀ v ∈ W, (T v).Holds (D v).1 (D v).2) :
    OfTypes T W (heldAs T D) :=
  ⟨fun v hv => ((hT v hv).held (hD v hv)).2.1,fun v hv => ((hT v hv).held (hD v hv)).1⟩

theorem heldAs_ends (hT : ∀ v ∈ W, (T v).Ok) (hD : ∀ v ∈ W, (T v).Holds (D v).1 (D v).2) :
    ∀ v ∈ W, ((heldAs T D).ctx.vars v).least = (D v).1 ∧ ((heldAs T D).ctx.vars v).most = (D v).2 :=
  fun v hv => ((hT v hv).held (hD v hv)).2.2

theorem toInt_end {b : BitVec 64} (h : varOrd v b = n) :
    b.toInt = if v.beyond = true ∧ 2^63 ≤ n then n-2^64 else n := by
  have hb := word_cases b
  cases hv : v.beyond
  · rw [if_neg (by simp),← h,varOrd_plain hv]
  · rw [varOrd_beyond hv] at h
    split_ifs with hn
    · have := hn.2
      omega
    · simp only [true_and,not_le] at hn
      omega

theorem heldAs_toInt (hT : ∀ v ∈ W, (T v).Ok) (hD : ∀ v ∈ W, (T v).Holds (D v).1 (D v).2) {y : ℕ}
    (hy : y ∈ W) : (varLo64 ((heldAs T D).ctx.vars y)).toInt =
        (if (T y).beyond = true ∧ 2^63 ≤ (D y).1 then (D y).1-2^64 else (D y).1) ∧
      (varHi64 ((heldAs T D).ctx.vars y)).toInt =
        if (T y).beyond = true ∧ 2^63 ≤ (D y).2 then (D y).2-2^64 else (D y).2 := by
  have h := heldAs_ends hT hD y hy
  have hb := ((heldAs_types hT hD).same y hy).beyond
  rw [← hb]
  exact ⟨toInt_end h.1,toInt_end h.2⟩

theorem Variable.Ok.zero (hv : v.Ok) : v.Holds 0 0 := by
  have hp := hv.pos
  refine ⟨?_,le_rfl,?_,fun _ => by norm_num⟩
  · unfold Variable.bot
    split_ifs
    · have : (0 : ℤ) < 2^(v.width-1) := by positivity
      omega
    · exact le_rfl
  · unfold Variable.top
    have h1 : (0 : ℤ) < 2^(v.width-1) := by positivity
    have h2 : (0 : ℤ) < 2^v.width := by positivity
    split_ifs <;> omega

theorem Variable.Ok.beyond_holds (hv : v.Ok) (hb : v.beyond = true) (h0 : 0 ≤ m)
    (hmn : m ≤ n) (hn : n < 2^64) : v.Holds m n := by
  simp only [Variable.beyond,Bool.and_eq_true,Bool.not_eq_true',decide_eq_true_eq] at hb
  have hw := le_antisymm hv.le hb.2
  refine ⟨?_,hmn,?_,fun h => ?_⟩
  · rw [Variable.bot,hb.1,if_neg (by simp)]
    exact h0
  · rw [Variable.top,hb.1,if_neg (by simp),hw]
    omega
  · have := hv.narrow h
    omega

theorem Variable.signed_holds (hs : v.signed = true) (h0 : -1 ≤ m) (hmn : m ≤ n)
    (hn : n ≤ 0) : v.Holds m n := by
  have hp : (0 : ℤ) < 2^(v.width-1) := by positivity
  refine ⟨?_,hmn,?_,fun _ => by omega⟩
  · rw [Variable.bot,hs,if_pos rfl]
    omega
  · rw [Variable.top,hs,if_pos rfl]
    omega

variable {R : (ℕ → ℤ) → Prop}

theorem not_complies_of_lost {f : Fire} (hσ : Inside W s.ctx.vars σ)
    (hR : R σ) (hl : f.wp (Lost W σ) s.ctx.vars) : ¬Complies W R f s := fun h => by
  rcases Fire.run_of_wp hl with hc | hc
  · exact h.conflict hc σ hσ hR
  · exact hc (h.keeps σ hσ hR)

theorem not_complies_of_passes {f : Fire} (hp : Pinned W s.ctx.vars σ)
    (hR : ¬R σ) (hl : f.wp (fun res _ => res ≠ .conflict) s.ctx.vars) : ¬Complies W R f s :=
  fun h => Fire.run_of_wp hl (h.refutes σ hp hR)

variable (hT : ∀ v ∈ r :: x :: xs, (T v).Ok) (hD : ∀ v ∈ r :: x :: xs, (T v).Holds (D v).1 (D v).2)

include hT hD

theorem wrong_of_out (hin : ∀ v ∈ r :: x :: xs, (D v).1 ≤ σ v ∧ σ v ≤ (D v).2)
    (hR : PickRel ub r (x :: xs) σ)
    (hout : σ r < varOrd (T r) (foldOf ub varLo64 (heldAs T D).ctx.vars x xs) ∨
      varOrd (T r) (foldOf ub varHi64 (heldAs T D).ctx.vars x xs) < σ r) :
    ¬Complies (r :: x :: xs) (PickRel ub r (x :: xs)) (fireOfN ub r x xs) (heldAs T D) := by
  have hends := heldAs_ends hT hD
  have htypes := heldAs_types hT hD
  have hσ : Inside (r :: x :: xs) (heldAs T D).ctx.vars σ :=
    ⟨fun v hv => (hends v hv).1 ▸ (hin v hv).1,fun v hv => (hends v hv).2 ▸ (hin v hv).2⟩
  refine not_complies_of_lost hσ hR (fireOfN_loses htypes.ok hσ ?_)
  rwa [(htypes.same r mem_cons_self).varOrd,(htypes.same r mem_cons_self).varOrd]

/-- One operand `u` with an end from `2^63` on and the other below, which has the value of the
result. -/
theorem wrong_of_unachieved (hall : ∀ y ∈ x :: xs, y = u) (hur : u ≠ r) (hu : (T u).beyond = true)
    (hDu : D u = (0,2^63)) (hDr : D r = (n,n)) (hn : n = 0 ∧ ub = false ∨ n = 2^63 ∧ ub = true)
    (hb : (T r).beyond = true) :
    ¬Complies (r :: x :: xs) (PickRel ub r (x :: xs)) (fireOfN ub r x xs) (heldAs T D) := by
  have hr : r ∈ r :: x :: xs := mem_cons_self
  have hmem : u ∈ x :: xs := hall x mem_cons_self ▸ mem_cons_self
  have hu' : u ∈ r :: x :: xs := mem_cons_of_mem _ hmem
  have htypes := heldAs_types hT hD
  have hends := heldAs_ends hT hD
  have hint := heldAs_toInt hT hD hu'
  have hintr := heldAs_toInt hT hD hr
  have hbu := (htypes.same u hu').beyond.trans hu
  have hbr := (htypes.same r hr).beyond.trans hb
  obtain ⟨hu1,hu2⟩ := hends u hu'
  obtain ⟨hr1,hr2⟩ := hends r hr
  rw [hDu] at hint hu1 hu2
  rw [hDr] at hintr hr1 hr2
  dsimp only at hint hu1 hu2 hintr hr1 hr2
  have hlo : (varLo64 ((heldAs T D).ctx.vars u)).toNat = 0 := by
    rw [Variable.least,varOrd_beyond hbu] at hu1
    exact_mod_cast hu1
  have hhi : ((varHi64 ((heldAs T D).ctx.vars u)).toNat : ℤ) = 2^63 := by
    rw [Variable.most,varOrd_beyond hbu] at hu2
    exact hu2
  have hn0 : 0 ≤ n := by omega
  have hn1 : n ≤ 2^63 := by omega
  refine not_complies_of_lost (σ:=fun _ => n) ⟨?_,?_⟩ ⟨⟨u,hmem,rfl⟩,fun _ _ => by simp⟩
    (Fire.wp_mono (fun _ _ h => .inl h) (fireOfN_unachieved htypes.ok hall hur
      (hr1.trans hr2.symm) ?_ ?_ ?_ ?_))
  · rintro v hv
    rcases mem_cons.mp hv with rfl | hv
    · exact hr1.le
    · rw [hall v hv,hu1]
      exact hn0
  · rintro v hv
    rcases mem_cons.mp hv with rfl | hv
    · exact hr2.ge
    · rw [hall v hv,hu2]
      exact hn1
  · rw [varOrd_beyond hbr,hlo,hr1]
    exact hn0
  · rw [varOrd_beyond hbr,hhi,hr2]
    exact hn1
  · rw [Variable.least,varOrd_beyond hbr] at hr1
    unfold KeepsTo
    rw [varOrd_beyond hbu,hu1,hu2]
    rcases hn with ⟨rfl,rfl⟩ | ⟨rfl,rfl⟩
    · exact hr1.le
    · exact hr1.ge
  · unfold canAchieve
    rw [Bool.and_eq_false_iff,← Bool.not_eq_true,← Bool.not_eq_true,BitVec.sle_iff_toInt_le,
      BitVec.sle_iff_toInt_le,hint.1,hint.2,hintr.1]
    simp only [hu,hb,true_and] at *
    omega

/-- The result is an operand and all are fixed; the folded bounds are its own, and each operand
reads them as a bound that it meets. -/
theorem wrong_of_passes (hmem : r ∈ x :: xs) (hfix : ∀ v ∈ r :: x :: xs, (D v).1 = (D v).2)
    (hR : ¬PickRel ub r (x :: xs) fun v => (D v).1)
    (hlo : (foldOf ub varLo64 (heldAs T D).ctx.vars x xs).toInt =
      (varLo64 ((heldAs T D).ctx.vars r)).toInt)
    (hhi : (foldOf ub varHi64 (heldAs T D).ctx.vars x xs).toInt =
      (varHi64 ((heldAs T D).ctx.vars r)).toInt)
    (hops : ∀ y ∈ x :: xs, if ub then (D y).1 ≤ varOrd (T y) (varLo64 ((heldAs T D).ctx.vars r))
      else varOrd (T y) (varLo64 ((heldAs T D).ctx.vars r)) ≤ (D y).1) :
    ¬Complies (r :: x :: xs) (PickRel ub r (x :: xs)) (fireOfN ub r x xs) (heldAs T D) := by
  have htypes := heldAs_types hT hD
  have hends := heldAs_ends hT hD
  have hp : Pinned (r :: x :: xs) (heldAs T D).ctx.vars fun v => (D v).1 :=
    ⟨fun v hv => (hends v hv).1,fun v hv => (hends v hv).2.trans (hfix v hv).symm⟩
  refine not_complies_of_passes hp hR (fireOfN_passes htypes.ok hp hmem (BitVec.eq_of_toInt_eq hlo)
    (BitVec.eq_of_toInt_eq hhi) fun y hy => ?_)
  rw [(htypes.same y (mem_cons_of_mem _ hy)).varOrd]
  exact hops y hy

omit hD

theorem exists_domains (hu : (T u).Holds m n) : ∃ D : ℕ → ℤ × ℤ,
    D u = (m,n) ∧ (∀ v ≠ u, D v = (0,0)) ∧ ∀ v ∈ r :: x :: xs, (T v).Holds (D v).1 (D v).2 := by
  refine ⟨Function.update (fun _ => (0,0)) u (m,n),Function.update_self .., fun v hv =>
    Function.update_of_ne hv _ _,fun v hv => ?_⟩
  by_cases hvu : v = u
  · subst hvu
    rw [Function.update_self]
    exact hu
  · rw [Function.update_of_ne hvu]
    exact (hT v hv).zero

theorem fireMinOfN32_wrong (h : ¬MinRight T r (x :: xs)) : ∃ s, OfTypes T (r :: x :: xs) s ∧
    ¬Complies (r :: x :: xs) (MinRel r (x :: xs)) (fireMinOfN32 r x xs) s := by
  have hr : r ∈ r :: x :: xs := mem_cons_self
  have hops : ∀ y ∈ x :: xs, y ∈ r :: x :: xs := fun y hy => mem_cons_of_mem _ hy
  rw [minRel_eq]
  unfold MinRight at h
  push Not at h
  obtain ⟨⟨w,hw,hwr⟩,hrest⟩ := h
  by_cases hu : ∃ u ∈ x :: xs, (T u).beyond = true ∧ u ≠ r
  · obtain ⟨u,hu,hub,hur⟩ := hu
    have hu' := hT u (hops u hu)
    by_cases hall : ∀ y ∈ x :: xs, y = u
    · -- `u` from 0 to 2^63, and the result 0
      obtain ⟨D,hDu,hDo,hD⟩ := exists_domains hT (hu'.beyond_holds hub le_rfl
        (by norm_num : (0 : ℤ) ≤ 2^63) (by norm_num))
      refine ⟨_,heldAs_types hT hD,?_⟩
      cases hb : (T r).beyond
      · refine wrong_of_out (σ:=fun _ => 0) hT hD (fun v _ => ?_) ⟨⟨u,hu,rfl⟩,fun _ _ => by simp⟩
          (.inr ?_)
        · by_cases hvu : v = u
          · simp [hvu,hDu]
          · simp [hDo v hvu]
        · obtain ⟨z,hz,hfold⟩ := foldOf_mem false varHi64 (heldAs T D).ctx.vars x xs
          rw [varOrd_plain hb,hfold,hall z hz,(heldAs_toInt hT hD (hops u hu)).2,hDu]
          simp [hub]
      · exact wrong_of_unachieved hT hD hall hur hub hDu (hDo r hur.symm) (.inl ⟨rfl,rfl⟩) hb
    · -- `u` fixed to 2^63, and everything else to 0
      push Not at hall
      obtain ⟨z,hz,hzu⟩ := hall
      obtain ⟨D,hDu,hDo,hD⟩ := exists_domains hT (hu'.beyond_holds hub
        (by norm_num : (0 : ℤ) ≤ 2^63) le_rfl (by norm_num))
      refine ⟨_,heldAs_types hT hD,wrong_of_out (σ:=fun v => (D v).1) hT hD (fun v _ => ?_)
        ⟨⟨z,hz,?_⟩,fun y _ => ?_⟩ ?_⟩
      · by_cases hvu : v = u
        · simp [hvu,hDu]
        · simp [hDo v hvu]
      · simp only [hDo z hzu,hDo r hur.symm]
      · by_cases hyu : y = u
        · simp [hyu,hDu,hDo r hur.symm]
        · simp [hDo y hyu,hDo r hur.symm]
      · have hlo := foldOf_bound false varLo64 (heldAs T D).ctx.vars hu
        have hhi := foldOf_bound false varHi64 (heldAs T D).ctx.vars hu
        obtain ⟨h1,h2⟩ := heldAs_toInt hT hD (hops u hu)
        rw [if_neg (by simp),h1,hDu,if_pos ⟨hub,le_rfl⟩] at hlo
        rw [if_neg (by simp),h2,hDu,if_pos ⟨hub,le_rfl⟩] at hhi
        have hword := word_cases (foldOf false varLo64 (heldAs T D).ctx.vars x xs)
        rw [hDo r hur.symm]
        cases hb : (T r).beyond
        · rw [varOrd_plain hb,varOrd_plain hb]
          omega
        · rw [varOrd_beyond hb]
          omega
  push Not at hu
  have hplain : ∀ y ∈ x :: xs, y ≠ r → (T y).beyond = false := fun y hy hyr => by
    cases hb : (T y).beyond
    · rfl
    · exact absurd (hu y hy hb) hyr
  by_cases hmem : r ∈ x :: xs ∧ (T r).beyond = true
  · -- the result, an operand, fixed to 2^63, and everything else to 0
    obtain ⟨hmem,hb⟩ := hmem
    obtain ⟨D,hDr,hDo,hD⟩ := exists_domains hT ((hT r hr).beyond_holds hb
      (by norm_num : (0 : ℤ) ≤ 2^63) le_rfl (by norm_num))
    obtain ⟨h1,h2⟩ := heldAs_toInt hT hD hr
    rw [hDr,if_pos ⟨hb,le_rfl⟩] at h1 h2
    have hlo := foldOf_bound false varLo64 (heldAs T D).ctx.vars hmem
    have hhi := foldOf_bound false varHi64 (heldAs T D).ctx.vars hmem
    rw [if_neg (by simp)] at hlo hhi
    have hleast := BitVec.le_toInt (foldOf false varLo64 (heldAs T D).ctx.vars x xs)
    have hleast' := BitVec.le_toInt (foldOf false varHi64 (heldAs T D).ctx.vars x xs)
    have hword := word_cases (varLo64 ((heldAs T D).ctx.vars r))
    refine ⟨_,heldAs_types hT hD,wrong_of_passes hT hD hmem (fun v _ => ?_) (fun hR => ?_)
      (by omega) (by omega) fun y hy => ?_⟩
    · by_cases hvr : v = r
      · rw [hvr,hDr]
      · rw [hDo v hvr]
    · have := hR.2 w hw
      simp [hDr,hDo w hwr] at this
    · rw [if_neg (by simp)]
      by_cases hyr : y = r
      · subst hyr
        rw [varOrd_beyond hb,hDr]
        omega
      · rw [varOrd_plain (hplain y hy hyr),hDo y hyr]
        omega
  · -- a signed operand from -1 to 0, and everything else 0
    have hall : ∀ y ∈ x :: xs, (T y).beyond = false := fun y hy => by
      by_cases hyr : y = r
      · subst hyr
        cases hb : (T y).beyond
        · rfl
        · exact absurd ⟨hy,hb⟩ hmem
      · exact hplain y hy hyr
    obtain ⟨hb,y,hy,hnat⟩ := hrest hall
    have hs : (T y).signed = true := by
      cases hs : (T y).signed
      · simp [Variable.natural,hs,hall y hy] at hnat
      · rfl
    obtain ⟨D,hDy,hDo,hD⟩ := exists_domains hT (Variable.signed_holds hs le_rfl
      (by norm_num : (-1 : ℤ) ≤ 0) le_rfl)
    refine ⟨_,heldAs_types hT hD,wrong_of_out (σ:=fun _ => 0) hT hD (fun v _ => ?_)
      ⟨⟨y,hy,rfl⟩,fun _ _ => by simp⟩ (.inl ?_)⟩
    · by_cases hvy : v = y
      · simp [hvy,hDy]
      · simp [hDo v hvy]
    · have hlo := foldOf_bound false varLo64 (heldAs T D).ctx.vars hy
      have h1 := (heldAs_toInt hT hD (hops y hy)).1
      have hword := word_cases (foldOf false varLo64 (heldAs T D).ctx.vars x xs)
      rw [if_neg (by simp),h1,hDy,if_neg (by simp [hall y hy])] at hlo
      rw [varOrd_beyond hb]
      omega

theorem fireMaxOfN32_wrong_wide {w : ℕ} (hw : w ∈ x :: xs) (hwr : w ≠ r)
    (hb : (T r).beyond = true) (hu : ∃ u ∈ x :: xs, (T u).beyond = true) :
    ∃ s, OfTypes T (r :: x :: xs) s ∧
      ¬Complies (r :: x :: xs) (PickRel true r (x :: xs)) (fireOfN true r x xs) s := by
  have hops : ∀ y ∈ x :: xs, y ∈ r :: x :: xs := fun y hy => mem_cons_of_mem _ hy
  -- the result itself, if it is an operand
  obtain ⟨u,hu,hub,hru⟩ : ∃ u ∈ x :: xs, (T u).beyond = true ∧ (r ∈ x :: xs → u = r) := by
    by_cases hmem : r ∈ x :: xs
    · exact ⟨r,hmem,hb,fun _ => rfl⟩
    · obtain ⟨u,hu,hub⟩ := hu
      exact ⟨u,hu,hub,fun hc => absurd hc hmem⟩
  by_cases hall : ∀ y ∈ x :: xs, y = u
  · -- `u` from 0 to 2^63, and the result 2^63
    have hur : u ≠ r := hall w hw ▸ hwr
    obtain ⟨D,hDv⟩ : ∃ D : ℕ → ℤ × ℤ, ∀ v, D v = if v = r then (2^63,2^63) else (0,2^63) :=
      ⟨_,fun _ => rfl⟩
    have hD : ∀ v ∈ r :: x :: xs, (T v).Holds (D v).1 (D v).2 := fun v hv => by
      rw [hDv]
      rcases mem_cons.mp hv with rfl | hv'
      · rw [if_pos rfl]
        exact (hT _ hv).beyond_holds hb (by norm_num) le_rfl (by norm_num)
      · obtain rfl := hall v hv'
        rw [if_neg hur]
        exact (hT _ hv).beyond_holds hub le_rfl (by norm_num) (by norm_num)
    refine ⟨_,heldAs_types hT hD,wrong_of_unachieved (n:=2^63) hT hD hall hur hub ?_ ?_
      (.inr ⟨rfl,rfl⟩) hb⟩
    · rw [hDv,if_neg hur]
    · rw [hDv,if_pos rfl]
  · -- `u` and the result fixed to 2^63, and everything else to 0
    push Not at hall
    obtain ⟨z,hz,hzu⟩ := hall
    have hzr : z ≠ r := fun hc => hzu (hc.trans (hru (hc ▸ hz)).symm)
    obtain ⟨D,hDv⟩ : ∃ D : ℕ → ℤ × ℤ, ∀ v, D v = if v = u ∨ v = r then (2^63,2^63) else (0,0) :=
      ⟨_,fun _ => rfl⟩
    have hD : ∀ v ∈ r :: x :: xs, (T v).Holds (D v).1 (D v).2 := fun v hv => by
      rw [hDv]
      split_ifs with hc
      · refine (hT v hv).beyond_holds ?_ (by norm_num) le_rfl (by norm_num)
        rcases hc with rfl | rfl <;> assumption
      · exact (hT v hv).zero
    have hle : ∀ v, 0 ≤ (D v).1 ∧ (D v).1 ≤ 2^63 ∧ (D v).1 = (D v).2 := fun v => by
      rw [hDv]
      split_ifs <;> norm_num
    have hDu : D u = (2^63,2^63) := by rw [hDv,if_pos (.inl rfl)]
    have hDr : D r = (2^63,2^63) := by rw [hDv,if_pos (.inr rfl)]
    have hDz : D z = (0,0) := by rw [hDv,if_neg (not_or.mpr ⟨hzu,hzr⟩)]
    refine ⟨_,heldAs_types hT hD,wrong_of_out (σ:=fun v => (D v).1) hT hD
      (fun v _ => ⟨le_rfl,(hle v).2.2.le⟩) ⟨⟨u,hu,?_⟩,fun y _ => ?_⟩ (.inr ?_)⟩
    · simp only [hDu,hDr]
    · simpa [hDr] using (hle y).2.1
    · have hhi : _ ≤ _ := foldOf_bound true varHi64 (heldAs T D).ctx.vars hz
      have h2 := (heldAs_toInt hT hD (hops z hz)).2
      rw [h2,hDz,if_neg (by simp)] at hhi
      have hlt : (foldOf true varHi64 (heldAs T D).ctx.vars x xs).toInt < 2^63 := toInt_lt
      simp only [hDr]
      rw [varOrd_of_nonneg fun _ => hhi]
      exact hlt

/-- The maximum, where an operand is an unsigned word of 64 bits and the result, an operand too,
is signed. -/
theorem fireMaxOfN32_wrong_blind (hu : u ∈ x :: xs) (hub : (T u).beyond = true) (hmem : r ∈ x :: xs)
    (hb : (T r).beyond = false) (hnat : ∀ y ∈ x :: xs, (T y).natural = false) :
    ∃ s, OfTypes T (r :: x :: xs) s ∧
      ¬Complies (r :: x :: xs) (PickRel true r (x :: xs)) (fireOfN true r x xs) s := by
  have hr : r ∈ r :: x :: xs := mem_cons_self
  have hops : ∀ y ∈ x :: xs, y ∈ r :: x :: xs := fun y hy => mem_cons_of_mem _ hy
  -- the pattern of -1 everywhere
  obtain ⟨D,hDv⟩ : ∃ D : ℕ → ℤ × ℤ, ∀ v, D v =
      if (T v).beyond = true then (2^64-1,2^64-1) else (-1,-1) := ⟨_,fun _ => rfl⟩
  have hall : ∀ v ∈ r :: x :: xs, v ∈ x :: xs := fun v hv => by
    rcases mem_cons.mp hv with rfl | hv
    · exact hmem
    · exact hv
  have hD : ∀ v ∈ r :: x :: xs, (T v).Holds (D v).1 (D v).2 := fun v hv => by
    rw [hDv]
    split_ifs with hvb
    · exact (hT v hv).beyond_holds hvb (by norm_num) le_rfl (by norm_num)
    · refine Variable.signed_holds ?_ le_rfl le_rfl (by norm_num)
      simpa [Variable.natural,hvb] using hnat v (hall v hv)
  have hint : ∀ v ∈ r :: x :: xs, (varLo64 ((heldAs T D).ctx.vars v)).toInt = -1 ∧
      (varHi64 ((heldAs T D).ctx.vars v)).toInt = -1 := fun v hv => by
    obtain ⟨h1,h2⟩ := heldAs_toInt hT hD hv
    rw [h1,h2,hDv]
    cases hvb : (T v).beyond <;> norm_num
  have hfold : ∀ f : Variable → BitVec 64, (∀ v ∈ r :: x :: xs,
      (f ((heldAs T D).ctx.vars v)).toInt = -1) →
        (foldOf true f (heldAs T D).ctx.vars x xs).toInt = -1 := fun f hf => by
    obtain ⟨z,hz,h⟩ := foldOf_mem true f (heldAs T D).ctx.vars x xs
    rw [h,hf z (hops z hz)]
  refine ⟨_,heldAs_types hT hD,wrong_of_passes hT hD hmem (fun v _ => ?_) (fun hR => ?_) ?_ ?_
    fun y hy => ?_⟩
  · rw [hDv]
    split_ifs <;> rfl
  · have := hR.2 u hu
    simp only [hDv,hub,hb] at this
    norm_num at this
  · rw [hfold _ fun v hv => (hint v hv).1,(hint r hr).1]
  · rw [hfold _ fun v hv => (hint v hv).2,(hint r hr).2]
  · have h1 := (hint r hr).1
    have hword := word_cases (varLo64 ((heldAs T D).ctx.vars r))
    rw [if_pos rfl,hDv]
    cases hyb : (T y).beyond
    · rw [varOrd_plain hyb,if_neg (by simp)]
      omega
    · rw [varOrd_beyond hyb,if_pos rfl]
      omega

/-- The maximum, where the result is no operand and not an unsigned word of 64 bits, and an
operand is one. -/
theorem fireMaxOfN32_wrong_narrow (hu : u ∈ x :: xs) (hub : (T u).beyond = true)
    (hmem : r ∉ x :: xs) (hb : (T r).beyond = false)
    (hnat : ((T r).signed = true ∧ (T r).width = 1) → ∀ y ∈ x :: xs, (T y).natural = false) :
    ∃ s, OfTypes T (r :: x :: xs) s ∧
      ¬Complies (r :: x :: xs) (PickRel true r (x :: xs)) (fireOfN true r x xs) s := by
  have hops : ∀ y ∈ x :: xs, y ∈ r :: x :: xs := fun y hy => mem_cons_of_mem _ hy
  have hne : ∀ y ∈ x :: xs, y ≠ r := fun y hy hc => hmem (hc ▸ hy)
  by_cases hone : (T r).signed = true ∧ (T r).width = 1
  · -- the result 0, unsigned words from 0 to 2^63, and every other operand -1
    obtain ⟨D,hDv⟩ : ∃ D : ℕ → ℤ × ℤ, ∀ v, D v = if v = r then (0,0) else
        if (T v).beyond = true then (0,2^63) else (-1,-1) := ⟨_,fun _ => rfl⟩
    have hD : ∀ v ∈ r :: x :: xs, (T v).Holds (D v).1 (D v).2 := fun v hv => by
      rw [hDv]
      split_ifs with hvr hvb
      · exact (hT v hv).zero
      · exact (hT v hv).beyond_holds hvb le_rfl (by norm_num) (by norm_num)
      · refine Variable.signed_holds ?_ le_rfl le_rfl (by norm_num)
        simpa [Variable.natural,hvb] using hnat hone v ((mem_cons.mp hv).resolve_left hvr)
    refine ⟨_,heldAs_types hT hD,wrong_of_out (σ:=fun v => (D v).1) hT hD (fun v _ => ?_)
      ⟨⟨u,hu,?_⟩,fun y hy => ?_⟩ (.inr ?_)⟩
    · rw [hDv]
      split_ifs <;> norm_num
    · simp only [hDv,if_neg (hne u hu),hub,if_true]
    · simp only [hDv,if_neg (hne y hy),if_true]
      split_ifs <;> norm_num
    · obtain ⟨z,hz,hfold⟩ := foldOf_mem true varHi64 (heldAs T D).ctx.vars x xs
      rw [varOrd_plain hb,hfold,(heldAs_toInt hT hD (hops z hz)).2]
      simp only [hDv,if_neg (hne z hz),if_true]
      cases hzb : (T z).beyond <;> norm_num
  · -- the result 1, `u` from 1 to 2^63, and everything else 0
    obtain ⟨D,hDv⟩ : ∃ D : ℕ → ℤ × ℤ, ∀ v, D v = if v = r then (1,1) else
        if v = u then (1,2^63) else (0,0) := ⟨_,fun _ => rfl⟩
    have hD : ∀ v ∈ r :: x :: xs, (T v).Holds (D v).1 (D v).2 := fun v hv => by
      rw [hDv]
      split_ifs with hvr hvu
      · subst hvr
        have hz := (hT v hv).zero
        refine ⟨hz.bot.trans (by norm_num),le_rfl,?_,fun _ => by norm_num⟩
        have hpos := (hT v hv).pos
        unfold Variable.top
        split_ifs with hs
        · have hw : (T v).width ≠ 1 := fun h => hone ⟨hs,h⟩
          have hp : (2 : ℤ)^1 ≤ 2^((T v).width-1) := pow_le_pow_right₀ (by norm_num) (by omega)
          omega
        · have hp : (2 : ℤ)^1 ≤ 2^(T v).width := pow_le_pow_right₀ (by norm_num) (by omega)
          omega
      · subst hvu
        exact (hT v hv).beyond_holds hub (by norm_num) (by norm_num) (by norm_num)
      · exact (hT v hv).zero
    refine ⟨_,heldAs_types hT hD,wrong_of_out (σ:=fun v => (D v).1) hT hD (fun v _ => ?_)
      ⟨⟨u,hu,?_⟩,fun y hy => ?_⟩ (.inr ?_)⟩
    · rw [hDv]
      split_ifs <;> norm_num
    · simp only [hDv,if_neg (hne u hu),if_true]
    · simp only [hDv,if_neg (hne y hy),if_true]
      split_ifs <;> norm_num
    · obtain ⟨z,hz,hfold⟩ := foldOf_mem true varHi64 (heldAs T D).ctx.vars x xs
      rw [varOrd_plain hb,hfold,(heldAs_toInt hT hD (hops z hz)).2]
      simp only [hDv,if_neg (hne z hz),if_true]
      by_cases hzu : z = u
      · rw [hzu,if_pos rfl,hub]
        norm_num
      · rw [if_neg hzu]
        norm_num

theorem fireMaxOfN32_wrong (h : ¬MaxRight T r (x :: xs)) : ∃ s, OfTypes T (r :: x :: xs) s ∧
    ¬Complies (r :: x :: xs) (MaxRel r (x :: xs)) (fireMaxOfN32 r x xs) s := by
  have hops : ∀ y ∈ x :: xs, y ∈ r :: x :: xs := fun y hy => mem_cons_of_mem _ hy
  rw [maxRel_eq]
  unfold MaxRight at h
  push Not at h
  obtain ⟨⟨w,hw,hwr⟩,hplain,hnat⟩ := h
  by_cases hall : ∀ y ∈ x :: xs, (T y).beyond = false
  · -- signed operands from -1 to 0, and the result, an unsigned word, 0
    obtain ⟨hb,hs⟩ := hplain hall
    have hne : ∀ y ∈ x :: xs, y ≠ r := fun y hy hc => by
      rw [← hc,hall y hy] at hb
      cases hb
    obtain ⟨D,hDv⟩ : ∃ D : ℕ → ℤ × ℤ, ∀ v, D v = if v = r then (0,0) else (-1,0) :=
      ⟨_,fun _ => rfl⟩
    have hD : ∀ v ∈ r :: x :: xs, (T v).Holds (D v).1 (D v).2 := fun v hv => by
      rw [hDv]
      split_ifs with hvr
      · exact (hT v hv).zero
      · have hv' := (mem_cons.mp hv).resolve_left hvr
        refine Variable.signed_holds ?_ le_rfl (by norm_num) le_rfl
        simpa [Variable.natural,hall v hv'] using hs v hv'
    refine ⟨_,heldAs_types hT hD,wrong_of_out (σ:=fun _ => 0) hT hD (fun v _ => ?_)
      ⟨⟨w,hw,rfl⟩,fun _ _ => by simp⟩ (.inl ?_)⟩
    · rw [hDv]
      split_ifs <;> norm_num
    · obtain ⟨z,hz,hfold⟩ := foldOf_mem true varLo64 (heldAs T D).ctx.vars x xs
      have h1 := (heldAs_toInt hT hD (hops z hz)).1
      rw [hDv,if_neg (hne z hz),if_neg (by simp [hall z hz]),← hfold] at h1
      have hword := word_cases (foldOf true varLo64 (heldAs T D).ctx.vars x xs)
      rw [varOrd_beyond hb]
      omega
  push Not at hall
  obtain ⟨u,hu,hub⟩ := hall
  have hub : (T u).beyond = true := by simpa using hub
  cases hb : (T r).beyond
  · by_cases hmem : r ∈ x :: xs
    · refine fireMaxOfN32_wrong_blind hT hu hub hmem hb fun y hy => ?_
      cases hy' : (T y).natural
      · rfl
      · exact absurd hmem (hnat hb ⟨y,hy,hy'⟩).1
    · refine fireMaxOfN32_wrong_narrow hT hu hub hmem hb fun hone y hy => ?_
      cases hy' : (T y).natural
      · rfl
      · exact absurd hone.2 ((hnat hb ⟨y,hy,hy'⟩).2 hone.1)
  · exact fireMaxOfN32_wrong_wide hT hw hwr hb ⟨u,hu,hub⟩

end Wrong

/-- The minimum and the maximum comply on every domain of variables of given types exactly when
these are right for them, and on domains whose ends are not negative as signed words always. -/
theorem minmax_exact (T : ℕ → Variable) (r x : ℕ) (xs : List ℕ)
    (hT : ∀ v ∈ r :: x :: xs, (T v).Ok) :
    ((∀ s, OfTypes T (r :: x :: xs) s → Complies (r :: x :: xs) (MinRel r (x :: xs))
      (fireMinOfN32 r x xs) s) ↔ MinRight T r (x :: xs)) ∧
    ((∀ s, OfTypes T (r :: x :: xs) s → Complies (r :: x :: xs) (MaxRel r (x :: xs))
      (fireMaxOfN32 r x xs) s) ↔ MaxRight T r (x :: xs)) ∧
    ∀ s, OfTypes T (r :: x :: xs) s → (∀ y ∈ x :: xs, 0 ≤ (varLo64 (s.ctx.vars y)).toInt ∧
        0 ≤ (varHi64 (s.ctx.vars y)).toInt) →
      Complies (r :: x :: xs) (MinRel r (x :: xs)) (fireMinOfN32 r x xs) s ∧
        Complies (r :: x :: xs) (MaxRel r (x :: xs)) (fireMaxOfN32 r x xs) s := by
  refine ⟨⟨fun h => ?_,fun h s hs => h.complies hs⟩,⟨fun h => ?_,fun h s hs => h.complies hs⟩,
    fun s hs hsmall => ?_⟩
  · by_contra hc
    obtain ⟨s,hs,hwrong⟩ := fireMinOfN32_wrong hT hc
    exact hwrong (h s hs)
  · by_contra hc
    obtain ⟨s,hs,hwrong⟩ := fireMaxOfN32_wrong hT hc
    exact hwrong (h s hs)
  · rw [minRel_eq,maxRel_eq]
    exact ⟨fireOfN_small hs.ok hsmall,fireOfN_small hs.ok hsmall⟩

end Fires

theorem minmax_exact_bytes : Complies [0,1,2] (MinRel 0 [1,2]) (fireMinOfN32 0 1 [2])
    (holding fun _ => wideVar 3#64 200#64 8 false) := by
  have hok : (wideVar 3#64 200#64 8 false).Ok :=
    wideVar_ok (by decide) (by decide) (by decide) (by decide)
  refine (minmax_exact (fun _ => wideVar 3#64 200#64 8 false) 0 1 [2] fun _ _ => hok).1.mpr
    (.inr ⟨fun _ _ => rfl,fun h => absurd h (by decide)⟩) _ ⟨fun _ _ => .refl _,fun _ _ => hok⟩

def besideWide (b : BitVec 64) : Engine :=
  holding fun v => if v = 0 then wideVar b b 64 false else wideVar 0#64 (BitVec.intMin 64) 64 false

/-- The minimum of one such operand is refused where it is 0, and the maximum where it is `2^63`. -/
theorem minmax_wrong :
    ¬Complies [0,1] (MinRel 0 [1]) (fireMinOfN32 0 1 []) (besideWide 0#64) ∧
    ¬Complies [0,1] (MaxRel 0 [1]) (fireMaxOfN32 0 1 []) (besideWide (BitVec.intMin 64)) := by
  have hok : ∀ b, ∀ v ∈ [0,1], ((besideWide b).ctx.vars v).Ok := by
    intro b v hv
    have hword : (wideVar b b 64 false).Ok := by
      refine wideVar_ok (by decide) (by decide) ?_ ?_
      · change (0 : ℤ) ≤ varOrd (wideVar b b 64 false) b
        rw [varOrd_beyond rfl]
        omega
      · change varOrd (wideVar b b 64 false) b ≤ 2^64-1
        rw [varOrd_beyond rfl]
        omega
    simp only [mem_cons,List.not_mem_nil,or_false] at hv
    rcases hv with rfl | rfl
    · exact hword
    · exact wideVar_ok (by decide) (by decide) (by decide) (by decide)
  rw [minRel_eq,maxRel_eq]
  refine ⟨not_complies_of_lost (σ:=fun _ => 0) ⟨by decide,by decide⟩
    ⟨⟨1,by decide,rfl⟩,fun _ _ => by simp⟩ (Fire.wp_mono (fun _ _ h => .inl h)
      (fireOfN_unachieved (u:=1) (hok _) (by simp) (by decide) rfl (by decide) (by decide)
        (by unfold KeepsTo; decide) (by decide))),
    not_complies_of_lost (σ:=fun _ => 2^63) ⟨by decide,by decide⟩
    ⟨⟨1,by decide,rfl⟩,fun _ _ => by simp⟩ (Fire.wp_mono (fun _ _ h => .inl h)
      (fireOfN_unachieved (u:=1) (hok _) (by simp) (by decide) rfl (by decide) (by decide)
        (by unfold KeepsTo; decide) (by decide)))⟩

end Solver
end DvSolve
