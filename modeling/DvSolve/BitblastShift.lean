import DvSolve.BitblastSem

/-! Correctness of the comparisons and the barrel shifters.
The shifters overwrite a working vector in place; a sweep is a loop that writes
each entry at most once, and reads only entries it has not yet written or whose
new value it knows. -/
namespace DvSolve
namespace Bitblast

open Aig

variable {m : Aig} {v : Bv} {w : ℕ} {D : ℕ → Prop} {N O F : (ℕ → Bool) → ℕ → Bool} {a b : Bv}
  {f : (ℕ → Bool) → Bool} {G : (ℕ → Bool) → ℕ → Bool} {y : (ℕ → Bool) → ℕ}

structure Swept (m : Aig) (v : Bv) (w : ℕ) (D : ℕ → Prop) (N O : (ℕ → Bool) → ℕ → Bool) :
    Prop where
  length : v.length = w
  new : ∀ i < w, D i → m.Denotes (bits v i) (fun ρ => N ρ i)
  old : ∀ i < w, ¬ D i → m.Denotes (bits v i) (fun ρ => O ρ i)

theorem Swept.congr {D' : ℕ → Prop} (h : Swept m v w D N O) (hD : ∀ i < w, D' i ↔ D i) :
    Swept m v w D' N O :=
  ⟨h.length,fun i hi hd => h.new i hi ((hD i hi).mp hd),
    fun i hi hd => h.old i hi fun hd' => hd ((hD i hi).mpr hd')⟩

theorem Swept.set {m' : Aig} {i : ℕ} {x : ℤ} (h : Swept m v w D N O) (he : m.Extends m')
    (hi : i < w) (hx : m'.Denotes x (fun ρ => N ρ i)) :
    Swept m' (v.set i x) w (fun j => D j ∨ i = j) N O := by
  have hbit : ∀ j, bits (v.set i x) j = if i = j then x else bits v j := fun j =>
    bits_set (by rw [h.length]; exact hi)
  refine ⟨by rw [List.length_set,h.length],fun j hj hd => ?_,fun j hj hd => ?_⟩
  · rw [hbit]
    split_ifs with hij
    · subst hij
      exact hx
    · exact (h.new j hj (hd.resolve_right hij)).extends he
  · rw [hbit,if_neg fun hij => hd (.inr hij)]
    exact (h.old j hj fun hd' => hd (.inl hd')).extends he

def Written (D : ℕ → Prop) (idx : ℕ → ℕ) (lo j i : ℕ) : Prop :=
  D i ∨ ∃ j', lo ≤ j' ∧ j' < j ∧ idx j' = i

theorem Spec.sweep (hm : m.Wf) {lo hi : ℕ} (hlo : lo ≤ hi) (idx : ℕ → ℕ) {op : ℕ → Bv → Build ℤ}
    (hv : Swept m v w D N O) (hop : ∀ j v m', lo ≤ j → j < hi → m'.Wf → m.Extends m' →
      Swept m' v w (Written D idx lo j) N O → idx j < w ∧
        Spec (op j v) m' (fun x m'' => m''.Denotes x (fun ρ => N ρ (idx j)))) :
    Spec (Bitblast.forRange lo hi v fun j v => do
      let x ← op j v
      pure (v.set (idx j) x)) m (fun v' m' => Swept m' v' w (Written D idx lo hi) N O) := by
  refine Spec.forRange hm hlo (fun j v m' => Swept m' v w (Written D idx lo j) N O) ?_ ?_
  · refine hv.congr fun i _ => ⟨fun hd => ?_,.inl⟩
    rcases hd with hd | ⟨j',h1,h2,_⟩
    · exact hd
    · omega
  · intro j v m' hj hjh hm' he hI
    have hround := hop j v m' hj hjh hm' he hI
    refine hround.2.bind fun x m'' hm'' he'' hx => .pure hm'' ?_
    refine (hI.set he'' hround.1 hx).congr fun i _ => ⟨fun hd => ?_,fun hd => ?_⟩
    · rcases hd with hd | ⟨j',h1,h2,h3⟩
      · exact .inl (.inl hd)
      · rcases Nat.lt_succ_iff_lt_or_eq.mp h2 with h2 | rfl
        · exact .inl (.inr ⟨j',h1,h2,h3⟩)
        · exact .inr h3
    · rcases hd with (hd | ⟨j',h1,h2,h3⟩) | hij
      · exact .inl hd
      · exact .inr ⟨j',h1,by omega,h3⟩
      · exact .inr ⟨j,hj,by omega,hij⟩

def entry (w : ℕ) (F : (ℕ → Bool) → ℕ → Bool) : (ℕ → Bool) → ℕ → Bool :=
  fun ρ i => F ρ (w-1-i)

theorem Word.swept (h : Word m v w F) (N : (ℕ → Bool) → ℕ → Bool) :
    Swept m v w (fun _ => False) N (entry w F) :=
  ⟨h.length,fun _ _ hd => hd.elim,fun _ hi _ => h.at hi⟩

theorem Swept.word (h : Swept m v w D (entry w F) O) (hD : ∀ i < w, D i) :
    Word m v w F := by
  refine ⟨h.length,fun k hk => ?_⟩
  have hi : w-1-k < w := by omega
  refine (h.new _ hi (hD _ hi)).congr fun ρ => ?_
  rw [entry,show w-1-(w-1-k) = k by omega]

theorem bbIte_spec (hm : m.Wf) {c : ℤ} (hc : m.Denotes c f) (ha : Word m a w F) (hb : Word m b w G) :
    Spec (bbIte c a b) m
      (fun r m' => Word m' r w (fun ρ k => if f ρ then F ρ k else G ρ k)) := by
  simp only [bbIte,ha.length]
  refine Spec.mono (Spec.forRange hm (Nat.zero_le w) (fun i r m' => r.length = w ∧
      ∀ j < i, m'.Denotes (bits r j)
        (entry w (fun ρ k => if f ρ then F ρ k else G ρ k) · j))
      ⟨List.length_replicate,fun j hj => absurd hj (Nat.not_lt_zero j)⟩ ?_)
    fun r m' _ _ hr => ⟨hr.1,fun k hk => ?_⟩
  · intro i r m' _ hi hm' he hI
    refine (mkIte_spec hm' (hc.extends he) ((ha.at hi).extends he)
      ((hb.at hi).extends he)).bind fun x m'' hm'' he'' hx => ?_
    refine .pure hm'' ⟨by rw [List.length_set,hI.1],fun j hj => ?_⟩
    rw [bits_set (by rw [hI.1]; exact hi)]
    split_ifs with hij
    · subst hij
      exact hx
    · exact (hI.2 j (by omega)).extends he''
  · refine (hr.2 (w-1-k) (by omega)).congr fun ρ => ?_
    simp only [entry]
    rw [show w-1-(w-1-k) = k by omega]

theorem Word.extract (h : Word m v (w+1) F) (hw : 0 < w) :
    Word m (bbExtract v (v.length-2) 0) w F := by
  have hdrop : bbExtract v (v.length-2) 0 = v.drop 1 := by
    have h1 : v.length - 1 - (v.length - 2) = 1 := by rw [h.length]; omega
    have h2 : v.length - 2 - 0 + 1 = (v.drop 1).length := by
      rw [List.length_drop,h.length]
      omega
    rw [bbExtract,h1,h2,List.take_length]
  rw [hdrop]
  refine ⟨by simp [h.length],fun k hk => ?_⟩
  have hbit : bits (v.drop 1) (w-1-k) = bits v (w+1-1-k) := by
    simp only [bits,List.getD_eq_getElem?_getD,List.getElem?_drop]
    rw [show 1+(w-1-k) = w+1-1-k by omega]
  rw [hbit]
  exact h.column k (by omega)

theorem ultHelper_spec (hm : m.Wf) (hw : 0 < w) (ha : Word m a w F) (hb : Word m b w G) :
    Spec (ultHelper a b) m
      (fun r m' => m'.Denotes r (fun ρ => decide (Bits.low (F ρ) w < Bits.low (G ρ) w))) := by
  simp only [ultHelper,ha.length]
  refine (mkAnd_spec hm (ha.column 0 hw).neg (hb.column 0 hw)).bind fun l m₁ hm₁ he₁ hl => ?_
  refine Spec.forRange hm₁ hw (fun i r m' =>
    m'.Denotes r (fun ρ => decide (Bits.low (F ρ) i < Bits.low (G ρ) i))) ?_ ?_
  · refine hl.congr fun ρ => ?_
    rw [Bits.low_succ_lt]
    simp
  · intro i r m' hi hiw hm' he hr
    have ha' := (ha.column i hiw).extends (he₁.trans he)
    have hb' := (hb.column i hiw).extends (he₁.trans he)
    refine (mkAnd_spec hm' ha'.neg hb').bind fun lt m₂ hm₂ he₂ hlt => ?_
    refine (mkAnd_spec hm₂ (ha'.extends he₂) (hb'.extends he₂).neg).bind
      fun gt m₃ hm₃ he₃ hgt => ?_
    refine (mkAnd_spec hm₃ hgt.neg (hr.extends (he₂.trans he₃))).bind
      fun c m₄ hm₄ he₄ hc => ?_
    refine (mkOr_spec hm₄ (hlt.extends (he₃.trans he₄)) hc).mono fun x _ _ _ hx => ?_
    exact hx.congr fun ρ => (Bits.low_succ_lt (F ρ) (G ρ) i).symm

theorem Denotes.word {l : ℤ} (h : m.Denotes l f) :
    Word m [l] 1 (fun ρ _ => f ρ) := by
  refine ⟨rfl,fun k hk => ?_⟩
  obtain rfl : k = 0 := by omega
  exact h

theorem bbUlt_spec (hm : m.Wf) (hw : 0 < w) (ha : Word m a w F) (hb : Word m b w G) :
    Spec (bbUlt a b) m (fun r m' =>
      Word m' r 1 (fun ρ _ => decide (Bits.low (F ρ) w < Bits.low (G ρ) w))) :=
  (ultHelper_spec hm hw ha hb).bind fun _ _ hm' _ hr => .pure hm' (Denotes.word hr)

/-- Two's-complement order of the low `w+1` columns: by sign, then by the rest. -/
def signedLt (w : ℕ) (f g : ℕ → Bool) : Bool :=
  (f w && !g w) || (!(f w && !g w) && !(!f w && g w) && decide (Bits.low f w < Bits.low g w))

theorem bbSlt_spec (hm : m.Wf) (ha : Word m a (w+1) F) (hb : Word m b (w+1) G) :
    Spec (bbSlt a b) m (fun r m' => Word m' r 1 (fun ρ _ => signedLt w (F ρ) (G ρ))) := by
  have ha0 : m.Denotes (bits a 0) (fun ρ => F ρ w) := by simpa using ha.at (Nat.succ_pos w)
  have hb0 : m.Denotes (bits b 0) (fun ρ => G ρ w) := by simpa using hb.at (Nat.succ_pos w)
  simp only [bbSlt,ha.length]
  refine (mkAnd_spec hm ha0 hb0.neg).bind fun neg m₁ hm₁ he₁ hneg => ?_
  split_ifs with hone
  · obtain rfl : w = 0 := by omega
    refine .pure hm₁ (Denotes.word (hneg.congr fun ρ => ?_))
    simp [signedLt]
  have hw : 0 < w := by omega
  have ha' := (ha.extract hw).extends he₁
  have hb' := (hb.extract hw).extends he₁
  rw [ha.length] at ha'
  refine (ultHelper_spec hm₁ hw ha' hb').bind fun ult m₂ hm₂ he₂ hult => ?_
  have he := he₁.trans he₂
  refine (mkAnd_spec hm₂ (ha0.extends he).neg (hb0.extends he)).bind
    fun pos m₃ hm₃ he₃ hpos => ?_
  refine (mkAnd_spec hm₃ (hneg.extends (he₂.trans he₃)).neg hpos.neg).bind
    fun eq m₄ hm₄ he₄ heq => ?_
  refine (mkAnd_spec hm₄ heq (hult.extends (he₃.trans he₄))).bind fun x m₅ hm₅ he₅ hx => ?_
  refine (mkOr_spec hm₅ (hneg.extends (he₂.trans (he₃.trans (he₄.trans he₅)))) hx).bind
    fun r m₆ hm₆ _ hr => ?_
  exact .pure hm₆ (Denotes.word hr)

theorem ceilLog2Loop_spec (n k r : ℕ) (hk : n ≤ 2^(r+k)) (hr : ∀ i < r, 2^i < n) :
    n ≤ 2^ceilLog2Loop n k (2^r) r ∧ ∀ i < ceilLog2Loop n k (2^r) r, 2^i < n := by
  induction k generalizing r with
  | zero => exact ⟨hk,hr⟩
  | succ k ih =>
    rw [ceilLog2Loop]
    split_ifs with h
    · have hshift : 2^r <<< 1 = 2^(r+1) := by rw [Nat.shiftLeft_eq,pow_one,pow_succ]
      rw [hshift]
      refine ih (r+1) (by rwa [Nat.add_assoc,Nat.add_comm 1 k]) fun i hi => ?_
      rcases Nat.lt_succ_iff_lt_or_eq.mp hi with hi | rfl
      · exact hr i hi
      · exact h
    · exact ⟨not_lt.mp h,hr⟩

theorem ceilLog2_spec (n : ℕ) : n ≤ 2^ceilLog2 n ∧ ∀ i < ceilLog2 n, 2^i < n :=
  ceilLog2Loop_spec n n 0 (by rw [Nat.zero_add]; exact Nat.lt_two_pow_self.le)
    fun i hi => absurd hi (Nat.not_lt_zero i)

/-- The select bits reach every amount below the width, and no stage moves by
more than the width. -/
theorem shiftSize_spec (hb : b.length = w) :
    w ≤ 2^shiftSize b ∧ ∀ i < shiftSize b, i < w ∧ 2^i < w := by
  have h := ceilLog2_spec w
  have hle : ∀ i < ceilLog2 w, i < w := fun i hi => Nat.lt_two_pow_self.trans (h.2 i hi)
  have hmin : shiftSize b = ceilLog2 w := by
    rw [shiftSize,hb]
    apply min_eq_left
    by_contra hlt
    exact absurd (hle w (by omega)) (lt_irrefl w)
  rw [hmin]
  exact ⟨h.1,fun i hi => ⟨hle i hi,h.2 i hi⟩⟩

theorem shlStage_spec (hm : m.Wf) {i : ℕ} (hi : i < w) (hstep : 2^i < w) (hb : Word m b w G)
    (hv : Word m v w F) :
    Spec (shlStage w b i v) m (fun r m' =>
      Word m' r w (fun ρ => if G ρ i then Bits.up (F ρ) (2^i) else F ρ)) := by
  have hbit := hb.column i hi
  simp only [shlStage,hb.length,Nat.one_shiftLeft]
  generalize 2^i = s at hstep ⊢
  let N : (ℕ → Bool) → ℕ → Bool :=
    entry w (fun ρ => if G ρ i then Bits.up (F ρ) s else F ρ)
  refine Spec.bind (Spec.sweep hm (Nat.zero_le _) id (hv.swept N) ?_)
    fun v₁ m₁ hm₁ he₁ hv₁ => ?_
  · -- entry `j` is still old, and so is the lower one it takes
    intro j v' m' _ hj hm' he hs
    have hold : ∀ k, j ≤ k → k < w → m'.Denotes (bits v' k) (fun ρ => entry w F ρ k) :=
      fun k hk hkw => hs.old k hkw fun hd => by
        rcases hd with hd | ⟨j',_,h2,h3⟩
        · exact hd
        · simp only [id_eq] at h3
          omega
    refine ⟨by simp only [id_eq]; omega,(mkIte_spec hm' (hbit.extends he)
      (hold (j+s) (by omega) (by omega)) (hold j le_rfl (by omega))).mono
        fun x m'' _ _ hx => hx.congr fun ρ => ?_⟩
    have hlt : ¬ w-1-j < s := by omega
    simp only [N,entry,id_eq]
    split_ifs
    · rw [Bits.up,if_neg hlt]
      congr 1
      omega
    · rfl
  · have hdone : ∀ i' < w, Written (fun _ => False) id 0 (w-s) i' ↔ i' < w-s := by
      intro i' _
      simp [Written]
    refine (Spec.sweep hm₁ (Nat.sub_le _ _) id hv₁ ?_).mono
      fun v₂ m₂ _ _ hv₂ => hv₂.word fun i' hi' => ?_
    · intro j v' m' hj hjw hm' he hs
      have hold : m'.Denotes (bits v' j) (fun ρ => entry w F ρ j) :=
        hs.old j hjw fun hd => by
          rcases hd with hd | ⟨j',_,h2,h3⟩
          · have h4 := (hdone j hjw).mp hd
            omega
          · simp only [id_eq] at h3
            omega
      refine ⟨hjw,(mkAnd_spec hm' (hbit.extends (he₁.trans he)).neg hold).mono
        fun x m'' _ _ hx => hx.congr fun ρ => ?_⟩
      have hlt : w-1-j < s := by omega
      simp only [N,entry,id_eq]
      cases G ρ i
      · simp
      · simp [Bits.up,hlt]
    · by_cases hlow : i' < w-s
      · exact .inl ((hdone i' hi').mpr hlow)
      · exact .inr ⟨i',by omega,hi',rfl⟩

theorem shrMove_spec (hm : m.Wf) {c : ℤ} {s : ℕ} {e : (ℕ → Bool) → Bool} (hs : s < w)
    (hc : m.Denotes c f) (hv : Word m v w F) :
    Spec (shrMove w c s v) m (fun r m' => Swept m' r w (fun i => s ≤ i)
      (entry w (fun ρ k => if f ρ then Bits.down w (e ρ) (F ρ) s k else F ρ k))
      (entry w F)) := by
  refine Spec.mono (Spec.sweep hm (Nat.zero_le _) (fun j => w-1-j) (hv.swept _) ?_)
    fun v₁ m₁ _ _ hv₁ => hv₁.congr fun i hi => ⟨fun hsi => .inr ⟨w-1-i,by omega,by omega,by simp only; omega⟩,
      fun hd => ?_⟩
  · intro j v' m' _ hj hm' he hsw
    have hold : ∀ k, k ≤ w-1-j → m'.Denotes (bits v' k) (fun ρ => entry w F ρ k) :=
      fun k hk => hsw.old k (by omega) fun hd => by
        rcases hd with hd | ⟨j',_,h2,h3⟩
        · exact hd
        · simp only at h3
          omega
    refine ⟨by omega,(mkIte_spec hm' (hc.extends he) (hold (w-1-j-s) (by omega))
      (hold (w-1-j) le_rfl)).mono fun x m'' _ _ hx => hx.congr fun ρ => ?_⟩
    have hlt : w-1-(w-1-j)+s < w := by omega
    simp only [entry]
    split_ifs
    · rw [Bits.down,if_pos hlt]
      congr 1
      omega
    · rfl
  · rcases hd with hd | ⟨j',_,h2,h3⟩
    · exact hd.elim
    · simp only at h3
      omega

/-- The filling part of a right shift: it ends in a word when the sweep so far wrote
the entries from `s` on and each round fills the next entry from the top. -/
theorem fill_spec (hm : m.Wf) {s : ℕ} {op : ℕ → Bv → Build ℤ} (hs : s < w)
    (hv : Swept m v w (fun i => s ≤ i) (entry w N) (entry w F))
    (hop : ∀ j v m', j < s → m'.Wf → m.Extends m' →
      Swept m' v w (fun i => s ≤ i ∨ i < j) (entry w N) (entry w F) →
        Spec (op j v) m' (fun x m'' => m''.Denotes x (fun ρ => entry w N ρ j))) :
    Spec (forRange 0 s v fun j v => do
      let x ← op j v
      pure (v.set j x)) m (fun r m' => Word m' r w N) := by
  refine (Spec.sweep hm (Nat.zero_le _) id hv ?_).mono fun v₁ m₁ _ _ hv₁ =>
    hv₁.word fun i _ => ?_
  · intro j v' m' _ hj hm' he hsw
    refine ⟨by simp only [id_eq]; omega,hop j v' m' hj hm' he (hsw.congr fun i _ => ?_)⟩
    simp [Written]
  · by_cases hlow : i < s
    · exact .inr ⟨i,Nat.zero_le i,hlow,rfl⟩
    · exact .inl (by omega)

theorem shrStage_spec (hm : m.Wf) {i : ℕ} (hi : i < w) (hstep : 2^i < w) (hb : Word m b w G)
    (hv : Word m v w F) :
    Spec (shrStage w b i v) m (fun r m' => Word m' r w
      (fun ρ k => if G ρ i then Bits.down w false (F ρ) (2^i) k else F ρ k)) := by
  have hbit := hb.column i hi
  simp only [shrStage,hb.length,Nat.one_shiftLeft]
  refine (shrMove_spec (e := fun _ => false) hm hstep hbit hv).bind
    fun v₁ m₁ hm₁ he₁ hv₁ => fill_spec hm₁ hstep hv₁ ?_
  intro j v' m' hj hm' he hsw
  have hold := hsw.old j (by omega) (by omega)
  refine (mkAnd_spec hm' (hbit.extends (he₁.trans he)).neg hold).mono
    fun x m'' _ _ hx => hx.congr fun ρ => ?_
  have hge : ¬ w-1-j+2^i < w := by omega
  simp only [entry]
  cases G ρ i
  · simp
  · simp [Bits.down,hge]

/-- An arithmetic stage. The sign entry is read again in every filling round; it
is written in the first of them, with the value it had. -/
theorem ashrStage_spec (hm : m.Wf) {i : ℕ} {e : (ℕ → Bool) → Bool} (hi : i < w) (hstep : 2^i < w)
    (hb : Word m b w G) (hv : Word m v w F) (hsign : ∀ ρ, F ρ (w-1) = e ρ) :
    Spec (ashrStage w b i v) m (fun r m' => Word m' r w
      (fun ρ k => if G ρ i then Bits.down w (e ρ) (F ρ) (2^i) k else F ρ k)) := by
  have hbit := hb.column i hi
  simp only [ashrStage,hb.length,Nat.one_shiftLeft]
  refine (shrMove_spec (e := e) hm hstep hbit hv).bind
    fun v₁ m₁ hm₁ he₁ hv₁ => fill_spec hm₁ hstep hv₁ ?_
  intro j v' m' hj hm' he hsw
  have hold := hsw.old j (by omega) (by omega)
  have hzero : m'.Denotes (bits v' 0) e := by
    have h1 : ¬ w-1+2^i < w := by omega
    rcases Nat.eq_zero_or_pos j with rfl | hj0
    · refine hold.congr fun ρ => ?_
      simp only [entry,Nat.sub_zero]
      exact hsign ρ
    · refine (hsw.new 0 (by omega) (.inr hj0)).congr fun ρ => ?_
      simp only [entry,Nat.sub_zero,Bits.down,if_neg h1,hsign,ite_self]
  refine (mkIte_spec hm' (hbit.extends (he₁.trans he)) hzero hold).mono
    fun x m'' _ _ hx => hx.congr fun ρ => ?_
  have hge : ¬ w-1-j+2^i < w := by omega
  simp only [entry,Bits.down,if_neg hge]

theorem stages_spec (hm : m.Wf) {n : ℕ} {T : (ℕ → Bool) → (ℕ → Bool) → ℕ → ℕ → Bool}
    (ha : Word m a w F) (hzero : ∀ ρ f k, k < w → T ρ f 0 k = f k)
    (hadd : ∀ ρ f s t k, k < w → T ρ (T ρ f s) t k = T ρ f (s+t) k) {stage : ℕ → Bv → Build Bv}
    (hstage : ∀ i < n, ∀ v m', m'.Wf → m.Extends m' →
      Word m' v w (fun ρ => T ρ (F ρ) (y ρ % 2^i)) → Spec (stage i v) m' (fun r m'' =>
        Word m'' r w (fun ρ k => if (y ρ).testBit i then T ρ (T ρ (F ρ) (y ρ % 2^i)) (2^i) k
          else T ρ (F ρ) (y ρ % 2^i) k))) :
    Spec (forRange 0 n a stage) m
      (fun r m' => Word m' r w (fun ρ => T ρ (F ρ) (y ρ % 2^n))) := by
  refine Spec.forRange hm (Nat.zero_le n)
    (fun i v m' => Word m' v w (fun ρ => T ρ (F ρ) (y ρ % 2^i))) ?_ ?_
  · refine ha.congr fun ρ k hk => ?_
    rw [pow_zero,Nat.mod_one,hzero ρ (F ρ) k hk]
  · intro i v m' _ hi hm' he hv
    refine (hstage i hi v m' hm' he hv).mono fun r m'' _ _ hr => hr.congr fun ρ k hk => ?_
    rw [Bits.mod_two_pow_succ]
    split_ifs
    · exact hadd ρ (F ρ) _ _ k hk
    · rw [Nat.add_zero]

theorem inRange_spec (hm : m.Wf) (hw : 0 < w) (hw64 : w < 2^64) (hb : Num m b w y) :
    Spec (ultHelper b (bbValueU64 b.length w)) m
      (fun r m' => m'.Denotes r (fun ρ => decide (y ρ < w))) := by
  have hconst := num_valueU64 hm w hw64
  rw [hb.length]
  refine (ultHelper_spec hm hw hb.word hconst.word).mono fun r m' _ _ hr => hr.congr fun ρ => ?_
  rw [hb.low_testBit,hconst.low_testBit ρ,Nat.mod_eq_of_lt Nat.lt_two_pow_self]

theorem select_mod {x : ℕ} (hb : b.length = w) (hx : x < w) :
    x % 2^shiftSize b = x := Nat.mod_eq_of_lt (hx.trans_le (shiftSize_spec hb).1)

/-- The logical shifters: `T` is the move of one direction, `stage` its stage. -/
theorem doShlOrShr_spec (hm : m.Wf) (hw : 1 < w) (hw64 : w < 2^64) {T : (ℕ → Bool) → ℕ → ℕ → Bool}
    (ha : Word m a w F) (hb : Num m b w y) (hzero : ∀ f k, k < w → T f 0 k = f k)
    (hadd : ∀ f s t k, k < w → T (T f s) t k = T f (s+t) k) (isShl : Bool)
    (hstage : ∀ i v m' G, i < w → 2^i < w → m'.Wf → m.Extends m' → Word m' v w G →
      Spec (if isShl then shlStage w b i v else shrStage w b i v) m' (fun r m'' =>
        Word m'' r w (fun ρ k => if (y ρ).testBit i then T (G ρ) (2^i) k else G ρ k))) :
    Spec (doShlOrShr a b isShl) m (fun r m' =>
      Word m' r w (fun ρ k => if y ρ < w then T (F ρ) (y ρ) k else false)) := by
  have hone : w ≠ 1 := by omega
  simp only [doShlOrShr,ha.length,if_neg hone]
  refine (stages_spec hm (y := y) (T := fun _ => T) ha (fun _ => hzero) (fun _ => hadd)
    fun i hi v m' hm' he hv => ?_).bind fun work m₁ hm₁ he₁ hwork => ?_
  · have h := (shiftSize_spec hb.length).2 i hi
    exact hstage i v m' _ h.1 h.2 hm' he hv
  · refine (inRange_spec hm₁ (by omega) hw64 (hb.extends he₁)).bind fun c m₂ hm₂ he₂ hc => ?_
    refine (bbIte_spec hm₂ hc (hwork.extends he₂) (word_valueU64 hm₂ w 0)).mono
      fun r m' _ _ hr => hr.congr fun ρ k _ => ?_
    by_cases hlt : y ρ < w
    · simp [hlt,select_mod hb.length hlt]
    · simp [hlt]

theorem doShlOrShr_one (hm : m.Wf) (ha : Word m a 1 F) (hb : Num m b 1 y) (isShl : Bool) :
    Spec (doShlOrShr a b isShl) m (fun r m' =>
      Word m' r 1 (fun ρ _ => if y ρ = 0 then F ρ 0 else false)) := by
  simp only [doShlOrShr,ha.length,if_pos]
  refine (mkAnd_spec hm (ha.column 0 Nat.one_pos) (hb.word.column 0 Nat.one_pos).neg).bind
    fun l m' hm' _ hl => .pure hm' (Denotes.word (hl.congr fun ρ => ?_))
  have hlt := hb.lt ρ
  obtain hy | hy : y ρ = 0 ∨ y ρ = 1 := by omega
  · simp [hy]
  · simp [hy]

theorem bbShl_spec (hm : m.Wf) (hw : 0 < w) (hw64 : w < 2^64) (ha : Word m a w F) (hb : Num m b w y) :
    Spec (bbShl a b) m (fun r m' =>
      Word m' r w (fun ρ k => if y ρ < w then Bits.up (F ρ) (y ρ) k else false)) := by
  rcases Nat.lt_or_eq_of_le hw with hw1 | rfl
  · refine doShlOrShr_spec hm hw1 hw64 ha hb (fun f k _ => by rw [Bits.up_zero])
      (fun f s t k _ => by rw [Bits.up_up]) true fun i v m' G hi hstep hm' he hv => ?_
    refine (shlStage_spec hm' hi hstep (hb.word.extends he) hv).mono
      fun r m'' _ _ hr => hr.congr fun ρ k _ => ?_
    split_ifs
    · rfl
    · rfl
  · refine (doShlOrShr_one hm ha hb true).mono fun r m' _ _ hr => hr.congr fun ρ k hk => ?_
    obtain rfl : k = 0 := by omega
    by_cases hy : y ρ = 0
    · simp [hy]
    · simp [hy]

theorem bbShr_spec (hm : m.Wf) (hw : 0 < w) (hw64 : w < 2^64) (ha : Word m a w F) (hb : Num m b w y) :
    Spec (bbShr a b) m (fun r m' =>
      Word m' r w (fun ρ k => if y ρ < w then Bits.down w false (F ρ) (y ρ) k else false)) := by
  rcases Nat.lt_or_eq_of_le hw with hw1 | rfl
  · exact doShlOrShr_spec hm hw1 hw64 ha hb (fun f k hk => Bits.down_zero false f hk)
      (fun f s t k _ => Bits.down_down false f s t) false fun i v m' G hi hstep hm' he hv =>
        shrStage_spec hm' hi hstep (hb.word.extends he) hv
  · refine (doShlOrShr_one hm ha hb false).mono fun r m' _ _ hr => hr.congr fun ρ k hk => ?_
    obtain rfl : k = 0 := by omega
    by_cases hy : y ρ = 0
    · simp [hy,Bits.down]
    · simp [hy]

theorem bbAshr_spec (hm : m.Wf) (hw : 0 < w) (hw64 : w < 2^64) (ha : Word m a w F)
    (hb : Num m b w y) :
    Spec (bbAshr a b) m (fun r m' =>
      Word m' r w (fun ρ => Bits.down w (F ρ (w-1)) (F ρ) (y ρ))) := by
  simp only [bbAshr,ha.length]
  split_ifs with hone
  · subst hone
    refine .pure hm (ha.congr fun ρ k hk => ?_)
    obtain rfl : k = 0 := by omega
    simp only [Bits.down]
    split_ifs with h
    · rw [show y ρ = 0 by omega]
    · rfl
  refine (stages_spec hm (y := y) (T := fun ρ => Bits.down w (F ρ (w-1))) ha
    (fun ρ f k hk => Bits.down_zero _ f hk) (fun ρ f s t k _ => Bits.down_down _ f s t)
    fun i hi v m' hm' he hv => ?_).bind fun work m₁ hm₁ he₁ hwork => ?_
  · have h := (shiftSize_spec hb.length).2 i hi
    refine ashrStage_spec hm' h.1 h.2 (hb.word.extends he) hv fun ρ => ?_
    simp only [Bits.down]
    split_ifs with hlt
    · rw [show y ρ % 2^i = 0 by omega,Nat.add_zero]
    · rfl
  · refine (inRange_spec hm₁ hw hw64 (hb.extends he₁)).bind fun c m₂ hm₂ he₂ hc => ?_
    have hsign : m₂.Denotes (bits a 0) (fun ρ => F ρ (w-1)) := by
      simpa using (ha.at hw).extends (he₁.trans he₂)
    refine (Spec.sweep hm₂ (Nat.zero_le w) id ((hwork.extends he₂).swept _) ?_).mono
      fun r m' _ _ hr => hr.word fun i hi => .inr ⟨i,Nat.zero_le i,hi,rfl⟩
    intro j v m' _ hj hm' he hs
    have hold := hs.old j hj fun hd => by
      rcases hd with hd | ⟨j',_,h2,h3⟩
      · exact hd
      · simp only [id_eq] at h3
        omega
    refine ⟨hj,(mkIte_spec hm' (hc.extends he) hold (hsign.extends he)).mono
      fun x m'' _ _ hx => hx.congr fun ρ => ?_⟩
    by_cases hlt : y ρ < w
    · simp [entry,hlt,select_mod hb.length hlt]
    · have hge : ¬ w-1-j+y ρ < w := by omega
      simp [entry,hlt,Bits.down,hge]

theorem Word.getLsbD {k : ℕ} (h : Word m v w F) (hk : k < w) (ρ : ℕ → Bool) :
    (toBitVec m ρ w v).getLsbD k = F ρ k := by
  rw [h.num.toBitVec_eq,BitVec.getLsbD_ofNat,Bits.testBit_low]
  simp [hk]

theorem Word.computes {r : Bv} {X : (ℕ → Bool) → BitVec w} (h : Word m r w F)
    (hX : ∀ ρ k, k < w → F ρ k = (X ρ).getLsbD k) : Computes w X r m := by
  refine ⟨⟨h.length,h.num.valid⟩,fun ρ => BitVec.eq_of_getLsbD_eq fun k hk => ?_⟩
  rw [h.getLsbD hk,hX ρ k hk]

theorem Vec.word (h : Vec m w v) :
    Word m v w (fun ρ => (toBitVec m ρ w v).getLsbD) :=
  h.num.word.congr fun ρ k hk => by rw [toBitVec,BitVec.getLsbD_ofNat]; simp [hk]

theorem Vec.num_toNat (h : Vec m w v) :
    Num m v w (fun ρ => (toBitVec m ρ w v).toNat) :=
  h.num.congr fun ρ => by
    rw [toBitVec,BitVec.toNat_ofNat,Nat.mod_eq_of_lt (h.num.lt ρ)]

theorem low_getLsbD (x : BitVec w) : Bits.low x.getLsbD w = x.toNat := by
  have h := Bits.low_testBit x.toNat w
  rw [Nat.mod_eq_of_lt x.isLt] at h
  exact h

theorem slt_eq_signedLt (x y : BitVec (w+1)) :
    x.slt y = signedLt w x.getLsbD y.getLsbD := by
  have hult : x.ult y = decide (Bits.low x.getLsbD (w+1) < Bits.low y.getLsbD (w+1)) := by
    rw [low_getLsbD,low_getLsbD]
    rfl
  rw [BitVec.slt_eq_ult,hult,Bits.low_succ_lt,BitVec.msb_eq_getLsbD_last,
    BitVec.msb_eq_getLsbD_last,Nat.add_sub_cancel,signedLt]
  cases x.getLsbD w <;> cases y.getLsbD w <;> simp

/-- The shifters and comparisons are SMT-LIB's, for amounts of the whole width. The
width is the `uint32_t` size of the vectors. -/
theorem shift_computes {m : Aig} (hm : m.Wf) {w : ℕ} (hw : 0 < w) (hsize : w < 2^32)
    {a b : Bv} (ha : Vec m w a) (hb : Vec m w b) :
    Spec (bbShl a b) m (Computes w fun ρ => toBitVec m ρ w a <<< toBitVec m ρ w b) ∧
    Spec (bbShr a b) m (Computes w fun ρ => toBitVec m ρ w a >>> toBitVec m ρ w b) ∧
    Spec (bbAshr a b) m
      (Computes w fun ρ => (toBitVec m ρ w a).sshiftRight' (toBitVec m ρ w b)) ∧
    Spec (bbUlt a b) m
      (Computes 1 fun ρ => BitVec.ofBool ((toBitVec m ρ w a).ult (toBitVec m ρ w b))) ∧
    Spec (bbSlt a b) m
      (Computes 1 fun ρ => BitVec.ofBool ((toBitVec m ρ w a).slt (toBitVec m ρ w b))) ∧
    Spec (bbEq a b) m
      (Computes 1 fun ρ => BitVec.ofBool (toBitVec m ρ w a == toBitVec m ρ w b)) := by
  have hw64 : w < 2^64 := hsize.trans (by norm_num)
  refine ⟨(bbShl_spec hm hw hw64 ha.word hb.num_toNat).mono
      fun r m' _ _ hr => hr.computes fun ρ k hk => ?_,
    (bbShr_spec hm hw hw64 ha.word hb.num_toNat).mono
      fun r m' _ _ hr => hr.computes fun ρ k hk => ?_,
    (bbAshr_spec hm hw hw64 ha.word hb.num_toNat).mono
      fun r m' _ _ hr => hr.computes fun ρ k hk => ?_,
    (bbUlt_spec hm hw ha.word hb.word).mono fun r m' _ _ hr => hr.computes fun ρ k hk => ?_,
    ?_,(bbEq_num hm hw ha.num_toNat hb.num_toNat).mono
      fun r m' _ _ hr => hr.computes fun ρ => ?_⟩
  · rw [BitVec.shiftLeft_eq',BitVec.getLsbD_shiftLeft]
    by_cases hlt : (toBitVec m ρ w b).toNat < w
    · by_cases hk' : k < (toBitVec m ρ w b).toNat
      · simp [hlt,hk',Bits.up]
      · simp [hlt,hk',Bits.up,hk]
    · have hk' : k < (toBitVec m ρ w b).toNat := by omega
      simp [hlt,hk']
  · rw [BitVec.ushiftRight_eq',BitVec.getLsbD_ushiftRight]
    by_cases hlt : (toBitVec m ρ w b).toNat < w
    · by_cases hk' : k + (toBitVec m ρ w b).toNat < w
      · simp [hlt,hk',Bits.down,Nat.add_comm]
      · have hge : w ≤ (toBitVec m ρ w b).toNat + k := by omega
        simp [hlt,hk',Bits.down,BitVec.getLsbD_of_ge,hge]
    · have hge : w ≤ (toBitVec m ρ w b).toNat + k := by omega
      simp [hlt,BitVec.getLsbD_of_ge,hge]
  · rw [BitVec.sshiftRight_eq',BitVec.getLsbD_sshiftRight,BitVec.msb_eq_getLsbD_last,Bits.down,
      Nat.add_comm k]
    simp [hk]
  · obtain rfl : k = 0 := by omega
    rw [low_getLsbD,low_getLsbD]
    simp [BitVec.ult]
  · obtain ⟨n,rfl⟩ : ∃ n, w = n+1 := ⟨w-1,by omega⟩
    refine (bbSlt_spec hm ha.word hb.word).mono fun r m' _ _ hr => hr.computes fun ρ k hk => ?_
    obtain rfl : k = 0 := by omega
    rw [← slt_eq_signedLt]
    simp
  · by_cases heq : toBitVec m ρ w a = toBitVec m ρ w b
    · simp [heq]
    · have hne : (toBitVec m ρ w a).toNat ≠ (toBitVec m ρ w b).toNat :=
        fun h => heq (BitVec.eq_of_toNat_eq h)
      have hbeq : (toBitVec m ρ w a == toBitVec m ρ w b) = false := beq_eq_false_iff_ne.mpr heq
      simp [hbeq,hne]

/-- The words `(x,true)` shifted by `(false,y)` over two inputs `x` and `y`. -/
theorem shift_computes_two :
    let m := (mkInput (mkInput new).2).2
    Spec (bbAshr [2,1] [-1,3]) m
      (Computes 2 fun ρ => (toBitVec m ρ 2 [2,1]).sshiftRight' (toBitVec m ρ 2 [-1,3])) :=
  (shift_computes (mkInput_spec (mkInput_spec new_wf).1).1 (by decide) (by decide) (by decide)
    (by decide)).2.2.1

end Bitblast
end DvSolve
