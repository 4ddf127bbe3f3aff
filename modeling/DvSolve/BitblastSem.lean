import DvSolve.Bits
import DvSolve.Bitblast
import DvSolve.AigBuild

/-! Correctness of the bit-blaster.
Each loop is followed column by column against the carry and sum functions of
`Bits`; a vector then denotes a number for every assignment of the inputs, and the
operations are the ones of `BitVec`. -/
namespace DvSolve
namespace Bitblast

open Aig
open Bits (carry low_congr mulRows shiftAnd)

variable {m m' : Aig} {v : Bv} {w : ℕ} {F G : (ℕ → Bool) → ℕ → Bool} {i : ℕ} {x : (ℕ → Bool) → ℕ}
  {f g : (ℕ → Bool) → Bool} {a b : Bv} {P : (ℕ → Bool) → ℕ → Bool} {y : (ℕ → Bool) → ℕ}

/-- The literals of `v` are `w` literals of `m` whose columns denote `F`. -/
structure Word (m : Aig) (v : Bv) (w : ℕ) (F : (ℕ → Bool) → ℕ → Bool) : Prop where
  length : v.length = w
  column : ∀ k < w, m.Denotes (bits v (w-1-k)) (fun ρ => F ρ k)

theorem Word.extends (h : Word m v w F) (he : m.Extends m') : Word m' v w F :=
  ⟨h.length,fun k hk => (h.column k hk).extends he⟩

theorem Word.congr (h : Word m v w F) (hFG : ∀ ρ k, k < w → F ρ k = G ρ k) : Word m v w G :=
  ⟨h.length,fun k hk => (h.column k hk).congr fun ρ => hFG ρ k hk⟩

theorem Word.at (h : Word m v w F) (hi : i < w) : m.Denotes (bits v i) (fun ρ => F ρ (w-1-i)) := by
  have h' := h.column (w-1-i) (by omega)
  rwa [show w-1-(w-1-i) = i by omega] at h'

theorem bits_set {j : ℕ} {x : ℤ} (hi : i < v.length) :
    bits (v.set i x) j = if i = j then x else bits v j := by
  unfold bits
  rw [List.getD_eq_getElem?_getD,List.getD_eq_getElem?_getD,List.getElem?_set]
  split_ifs with h1
  · rfl
  · rfl

theorem Spec.forRange {σ : Type} {lo hi : ℕ} {s : σ} {body : ℕ → σ → Build σ} (hm : m.Wf)
    (hlo : lo ≤ hi) (I : ℕ → σ → Aig → Prop) (h0 : I lo s m)
    (hbody : ∀ i s m', lo ≤ i → i < hi → m'.Wf → m.Extends m' → I i s m' → Spec (body i s) m' (I (i+1))) :
    Spec (forRange lo hi s body) m (I hi) := by
  unfold Bitblast.forRange
  obtain ⟨n,rfl⟩ := Nat.exists_eq_add_of_le hlo
  rw [Nat.add_sub_cancel_left]
  -- the rounds left to do, from any round on
  suffices h : ∀ k i s m', i + k = lo + n → lo ≤ i → m'.Wf → m.Extends m' → I i s m' →
      Spec ((List.range' i k).foldlM (fun s i => body i s) s) m' (I (lo+n)) from
    h n lo s m rfl le_rfl hm (.refl m) h0
  intro k
  induction k with
  | zero =>
    intro i s m' hik _ hm' _ hI
    obtain rfl : i = lo + n := hik
    exact .pure hm' hI
  | succ k ih =>
    intro i s m' hik hle hm' he hI
    rw [List.range'_succ,List.foldlM_cons]
    refine Spec.bind (hbody i s m' hle (by omega) hm' he hI) fun s' m'' hm'' he' hI' => ?_
    exact ih (i+1) s' m'' (by omega) (by omega) hm'' (he.trans he') hI'

theorem halfAdder_spec (hm : m.Wf) {a b : ℤ} (ha : m.Denotes a f) (hb : m.Denotes b g) :
    Spec (halfAdder a b) m (fun r m' => m'.Denotes r.1 (fun ρ => f ρ ^^ g ρ) ∧
      m'.Denotes r.2 (fun ρ => f ρ && g ρ)) := by
  refine (mkAnd_spec hm ha hb).bind fun x m₁ hm₁ he₁ hx => ?_
  refine (mkOr_spec hm₁ (ha.extends he₁) (hb.extends he₁)).bind fun y m₂ hm₂ he₂ hy => ?_
  refine (mkAnd_spec hm₂ (hx.extends he₂).neg hy).bind fun z m₃ hm₃ he₃ hz => ?_
  refine .pure hm₃ ⟨hz.congr fun ρ => ?_,hx.extends (he₂.trans he₃)⟩
  cases f ρ <;> cases g ρ <;> rfl

theorem fullAdder_spec (hm : m.Wf) {a b c : ℤ} {h : (ℕ → Bool) → Bool} (ha : m.Denotes a f)
    (hb : m.Denotes b g) (hc : m.Denotes c h) :
    Spec (fullAdder a b c) m (fun r m' => m'.Denotes r.1 (fun ρ => (f ρ ^^ g ρ) ^^ h ρ) ∧
      m'.Denotes r.2 (fun ρ => (f ρ && g ρ) || ((f ρ ^^ g ρ) && h ρ))) := by
  refine (halfAdder_spec hm ha hb).bind fun x m₁ hm₁ he₁ hx => ?_
  refine (halfAdder_spec hm₁ hx.1 (hc.extends he₁)).bind fun y m₂ hm₂ he₂ hy => ?_
  refine (mkOr_spec hm₂ (hx.2.extends he₂) hy.2).bind fun z m₃ hm₃ he₃ hz => ?_
  exact .pure hm₃ ⟨hy.1.extends he₃,hz⟩

def Columns (m : Aig) (v : Bv) (w n : ℕ) (F : (ℕ → Bool) → ℕ → Bool) : Prop :=
  v.length = w ∧ ∀ k < n, m.Denotes (bits v (w-1-k)) (fun ρ => F ρ k)

theorem Columns.set {n : ℕ} {x : ℤ} (h : Columns m v w n F) (he : m.Extends m') (hn : n < w)
    (hx : m'.Denotes x (fun ρ => F ρ n)) : Columns m' (v.set (w-1-n) x) w (n+1) F := by
  refine ⟨by rw [List.length_set,h.1],fun k hk => ?_⟩
  rw [bits_set (by rw [h.1]; omega)]
  split_ifs with hkn
  · obtain rfl : n = k := by omega
    exact hx
  · exact (h.2 k (by omega)).extends he

theorem columns_alloc (m : Aig) (w : ℕ) (F : (ℕ → Bool) → ℕ → Bool) :
    Columns m (bbAlloc w) w 0 F :=
  ⟨List.length_replicate,fun k hk => absurd hk (Nat.not_lt_zero k)⟩

theorem bbAdd_spec (hm : m.Wf) (hw : 0 < w) (ha : Word m a w F) (hb : Word m b w G) :
    Spec (bbAdd a b) m
      (fun r m' => Word m' r w (fun ρ => Bits.sum (F ρ) (G ρ) false)) := by
  let S : (ℕ → Bool) → ℕ → Bool := fun ρ => Bits.sum (F ρ) (G ρ) false
  let C : (ℕ → Bool) → ℕ → Bool := fun ρ => carry (F ρ) (G ρ) false
  have ha0 := ha.column 0 hw
  have hb0 := hb.column 0 hw
  simp only [bbAdd,ha.length]
  refine (halfAdder_spec hm ha0 hb0).bind fun x m₁ hm₁ he₁ hx => ?_
  have hS0 : m₁.Denotes x.1 (fun ρ => S ρ 0) := hx.1.congr fun ρ => by simp [S,Bits.sum,carry]
  have hC0 : m₁.Denotes x.2 (fun ρ => C ρ 1) := hx.2.congr fun ρ => by simp [C,carry]
  refine Spec.bind (Spec.forRange hm₁ hw
    (fun i s m' => Columns m' s.1 w i S ∧ m'.Denotes s.2 (fun ρ => C ρ i))
    ⟨(columns_alloc m₁ w S).set (.refl _) hw hS0,hC0⟩ ?_) fun s m₂ hm₂ he₂ hs => ?_
  · intro i s m' hi hiw hm' he hI
    have he' := he₁.trans he
    refine (fullAdder_spec hm' ((ha.column i hiw).extends he') ((hb.column i hiw).extends he')
      hI.2).bind fun y m'' hm'' he'' hy => ?_
    exact .pure hm'' ⟨hI.1.set he'' hiw hy.1,hy.2⟩
  · exact .pure hm₂ ⟨hs.1.1,hs.1.2⟩

/-- Columns below `n` denote `S`, the others still `P`. -/
def Mixed (m : Aig) (v : Bv) (w n : ℕ) (S P : (ℕ → Bool) → ℕ → Bool) : Prop :=
  Columns m v w n S ∧ ∀ k, n ≤ k → k < w → m.Denotes (bits v (w-1-k)) (fun ρ => P ρ k)

theorem Mixed.set {n : ℕ} {S : (ℕ → Bool) → ℕ → Bool} {x : ℤ} (h : Mixed m v w n S P)
    (he : m.Extends m') (hn : n < w) (hx : m'.Denotes x (fun ρ => S ρ n)) :
    Mixed m' (v.set (w-1-n) x) w (n+1) S P := by
  refine ⟨h.1.set he hn hx,fun k hk hkw => ?_⟩
  rw [bits_set (by rw [h.1.1]; omega),if_neg (by omega)]
  exact (h.2 k (by omega) hkw).extends he

theorem Mixed.skip {n : ℕ} {S : (ℕ → Bool) → ℕ → Bool} (h : Mixed m v w n S P) (hn : n < w)
    (hSP : ∀ ρ, P ρ n = S ρ n) :
    Mixed m v w (n+1) S P := by
  refine ⟨⟨h.1.1,fun k hk => ?_⟩,fun k hk hkw => h.2 k (by omega) hkw⟩
  rcases Nat.lt_succ_iff_lt_or_eq.mp hk with hk | rfl
  · exact h.1.2 k hk
  · exact (h.2 k le_rfl hn).congr hSP

theorem Denotes.eq_false {l : ℤ} (h : m.Denotes l f) (hl : l = aigFalse) (ρ : ℕ → Bool) :
    f ρ = false := by
  rw [← h.2 ρ,hl,evalLit_false]

/-- Invariant of the inner multiplication loop at column `i+j`, adding the word
`F` shifted by `i` and masked with `g` to `P`. -/
structure MulColumns (w i j : ℕ) (F P : (ℕ → Bool) → ℕ → Bool) (g : (ℕ → Bool) → Bool)
    (s : Bv × ℤ × ℤ × ℤ) (m : Aig) : Prop where
  mixed : Mixed m s.1 w (i+j) (fun ρ => Bits.sum (P ρ) (shiftAnd (F ρ) i (g ρ)) false) P
  cout : m.Denotes s.2.1
    (fun ρ => carry (P ρ) (shiftAnd (F ρ) i (g ρ)) false (i+j))
  ir : s.2.2.1 = (w : ℤ) - 1 - i - j
  ia : s.2.2.2 = (w : ℤ) - 1 - j

theorem mulColumn_spec (hm : m.Wf) {bBit : ℤ} {j : ℕ} (ha : Word m a w F) (hb : m.Denotes bBit g)
    (hij : i + j < w) (s : Bv × ℤ × ℤ × ℤ) (hs : MulColumns w i j F P g s m) :
    Spec (mulColumn a bBit s) m (fun s' m' => MulColumns w i (j+1) F P g s' m') := by
  obtain ⟨r,cout,ir,ia⟩ := s
  obtain ⟨hmix,hcout,hir,hia⟩ := hs
  simp only at hir hia hmix hcout
  have hir' : ir.toNat = w-1-(i+j) := by omega
  have hia' : ia.toNat = w-1-j := by omega
  have haj := ha.column j (by omega)
  have hsh : ∀ ρ, shiftAnd (F ρ) i (g ρ) (i+j) = (F ρ j && g ρ) := fun ρ => by
    simp [shiftAnd]
  simp only [mulColumn,hir',hia']
  split_ifs with hskip
  · -- the multiplicand bit and the carry are both FALSE
    have hF := fun ρ => Denotes.eq_false haj hskip.1 ρ
    have hC := fun ρ => Denotes.eq_false hcout hskip.2 ρ
    refine .pure hm ⟨hmix.skip hij fun ρ => ?_,hcout.congr fun ρ => ?_,by simp only; omega,
      by simp only; omega⟩
    · simp [Bits.sum,hsh,hF,hC ρ]
    · rw [hC ρ,← Nat.add_assoc,carry,hsh,hF ρ,hC ρ]
      simp
  · refine (mkAnd_spec hm haj hb).bind fun p m₁ hm₁ he₁ hp => ?_
    refine (fullAdder_spec hm₁ ((hmix.2 _ le_rfl hij).extends he₁) hp
      (hcout.extends he₁)).bind fun y m₂ hm₂ he₂ hy => ?_
    refine .pure hm₂ ⟨hmix.set (he₁.trans he₂) hij (hy.1.congr fun ρ => ?_),
      hy.2.congr fun ρ => ?_,by simp only; omega,by simp only; omega⟩
    · rw [Bits.sum,hsh]
    · rw [← Nat.add_assoc,carry,hsh]

theorem mulRow_spec (hm : m.Wf) {r : Bv} (hi : i < w) (ha : Word m a w F) (hb : Word m b w G)
    (hr : Word m r w P) :
    Spec (mulRow a b i r) m (fun r' m' =>
      Word m' r' w (fun ρ => Bits.sum (P ρ) (shiftAnd (F ρ) i (G ρ i)) false)) := by
  have hbi := hb.column i hi
  have hri := hr.column i hi
  simp only [mulRow,ha.length]
  split_ifs with hskip
  · have hG := fun ρ => Denotes.eq_false hbi hskip ρ
    refine .pure hm (hr.congr fun ρ k _ => ?_)
    rw [hG ρ,Bits.sum_shiftAnd_false]
  refine (mkAnd_spec hm (ha.column 0 (by omega)) hbi).bind fun p m₁ hm₁ he₁ hp => ?_
  refine (halfAdder_spec hm₁ (hri.extends he₁) hp).bind fun x m₂ hm₂ he₂ hx => ?_
  have he := he₁.trans he₂
  have hc0 : ∀ ρ, carry (P ρ) (shiftAnd (F ρ) i (G ρ i)) false i = false := fun ρ =>
    Bits.carry_shiftAnd _ _ _ _ le_rfl
  have hsh : ∀ ρ, shiftAnd (F ρ) i (G ρ i) i = (F ρ 0 && G ρ i) := fun ρ => by
    simp [shiftAnd]
  have hmix : Mixed m r w i
      (fun ρ => Bits.sum (P ρ) (shiftAnd (F ρ) i (G ρ i)) false) P :=
    ⟨⟨hr.length,fun k hk => (hr.column k (by omega)).congr fun ρ =>
      (Bits.sum_shiftAnd _ _ _ _ hk).symm⟩,fun k _ hk => hr.column k hk⟩
  have hstart : MulColumns w i 1 F P (fun ρ => G ρ i)
      (r.set (w-1-i) x.1,x.2,((w-1-i : ℕ) : ℤ)-1,(w : ℤ)-2) m₂ := by
    refine ⟨hmix.set he hi (hx.1.congr fun ρ => ?_),hx.2.congr fun ρ => ?_,by simp only; omega,
      by simp only; omega⟩
    · rw [Bits.sum,hc0,hsh,Bool.xor_false]
    · rw [carry,hc0,hsh]
      simp
  refine Spec.bind (Spec.forRange hm₂ (by omega) (fun j s m' =>
    MulColumns w i j F P (fun ρ => G ρ i) s m') hstart ?_) fun s m₃ hm₃ he₃ hs => ?_
  · intro j s m' _ hj hm' he' hs
    exact mulColumn_spec hm' (ha.extends (he.trans he')) (hbi.extends (he.trans he')) (by omega) s hs
  · have hlast : i + (w-1-i+1) = w := by omega
    refine .pure hm₃ ⟨hs.mixed.1.1,fun k hk => hs.mixed.1.2 k (by omega)⟩

theorem bbMul_spec (hm : m.Wf) (hw : 0 < w) (ha : Word m a w F) (hb : Word m b w G) :
    Spec (bbMul a b) m (fun r m' => Word m' r w (fun ρ => mulRows (F ρ) (G ρ) w)) := by
  have hb0 := hb.column 0 hw
  simp only [bbMul,ha.length]
  -- the first row is written from the top, so its invariant speaks of list entries
  refine Spec.bind (Spec.forRange hm (Nat.zero_le w) (fun i r m' => r.length = w ∧
      ∀ j < i, m'.Denotes (bits r j) (fun ρ => mulRows (F ρ) (G ρ) 1 (w-1-j)))
      ⟨List.length_replicate,fun j hj => absurd hj (Nat.not_lt_zero j)⟩ ?_)
    fun r m₁ hm₁ he₁ hr => ?_
  · intro i r m' _ hi hm' he hI
    refine (mkAnd_spec hm' ((ha.at hi).extends he) (hb0.extends he)).bind
      fun x m'' hm'' he'' hx => ?_
    refine .pure hm'' ⟨by rw [List.length_set,hI.1],fun j hj => ?_⟩
    rw [bits_set (by rw [hI.1]; exact hi)]
    split_ifs with hij
    · subst hij
      exact hx.congr fun ρ => (Bits.mulRows_one _ _ _).symm
    · exact (hI.2 j (by omega)).extends he''
  · have hr1 : Word m₁ r w (fun ρ => mulRows (F ρ) (G ρ) 1) :=
      ⟨hr.1,fun k hk => (hr.2 (w-1-k) (by omega)).congr fun ρ => by
        rw [show w-1-(w-1-k) = k by omega]⟩
    refine Spec.forRange hm₁ hw (fun i r m' => Word m' r w (fun ρ => mulRows (F ρ) (G ρ) i))
      hr1 ?_
    intro i r m' _ hi hm' he hI
    exact mulRow_spec hm' hi (ha.extends (he₁.trans he)) (hb.extends (he₁.trans he)) hI

theorem Word.not (ha : Word m a w F) :
    Word m (bbNot a) w (fun ρ k => !F ρ k) := by
  refine ⟨by rw [bbNot,List.length_map,ha.length],fun k hk => ?_⟩
  have hbit : bits (bbNot a) (w-1-k) = -bits a (w-1-k) := by
    unfold bits bbNot
    rw [List.getD_eq_getElem?_getD,List.getD_eq_getElem?_getD,List.getElem?_map]
    cases a[w-1-k]? <;> simp
  rw [hbit]
  exact (ha.column k hk).neg

theorem word_valueU64 (hm : m.Wf) (w value : ℕ) :
    Word m (bbValueU64 w value) w (fun _ k => decide (k < 64) && value.testBit k) := by
  refine ⟨by simp [bbValueU64],fun k hk => ?_⟩
  have hbit : bits (bbValueU64 w value) (w-1-k) =
      if k < 64 ∧ value.testBit k = true then aigTrue else aigFalse := by
    have hlt : w-1-k < w := by omega
    have hk' : w-1-(w-1-k) = k := by omega
    simp only [bits,bbValueU64,List.getD_eq_getElem?_getD,List.getElem?_map,
      List.getElem?_range hlt,Option.map_some,Option.getD_some,hk']
    by_cases h64 : k < 64
    · simp [h64,Nat.testBit,Nat.and_comm]
    · simp [h64]
  rw [hbit]
  split_ifs with h
  · exact ⟨hm.valid_true,fun ρ => by simp [h.1,h.2]⟩
  · refine ⟨hm.valid_false,fun ρ => ?_⟩
    rw [evalLit_false]
    by_cases h1 : k < 64
    · simpa [h1] using h
    · simp [h1]

/-- The number the literals of `v` spell under `ρ`. -/
def value (m : Aig) (ρ : ℕ → Bool) (v : Bv) : ℕ := Bits.val (v.map (m.evalLit ρ))

/-- `v` is a vector of `w` literals of `m` for the number `x` of the inputs. -/
structure Num (m : Aig) (v : Bv) (w : ℕ) (x : (ℕ → Bool) → ℕ) : Prop where
  length : v.length = w
  valid : ∀ l ∈ v, m.Valid l
  value_eq : ∀ ρ, value m ρ v = x ρ

theorem value_eq_low (m : Aig) (ρ : ℕ → Bool) (v : Bv) :
    value m ρ v = Bits.low (fun k => m.evalLit ρ (bits v (v.length-1-k))) v.length := by
  rw [value,Bits.val_eq_low,List.length_map]
  refine low_congr fun k hk => ?_
  have hlt : v.length-1-k < v.length := by omega
  simp [bits,List.getD_eq_getElem?_getD,hlt]

theorem value_lt (m : Aig) (ρ : ℕ → Bool) (v : Bv) : value m ρ v < 2^v.length := by
  have h := Bits.val_lt (v.map (m.evalLit ρ))
  rwa [List.length_map] at h

theorem bits_mem (hi : i < v.length) : bits v i ∈ v := by
  rw [bits,List.getD_eq_getElem?_getD,List.getElem?_eq_getElem hi]
  exact List.getElem_mem hi

theorem exists_bits {l : ℤ} (hl : l ∈ v) : ∃ i < v.length, bits v i = l := by
  obtain ⟨i,hi,rfl⟩ := List.getElem_of_mem hl
  refine ⟨i,hi,?_⟩
  rw [bits,List.getD_eq_getElem?_getD,List.getElem?_eq_getElem hi,Option.getD_some]

theorem value_extends (he : m.Extends m') (hv : ∀ l ∈ v, m.Valid l) (ρ : ℕ → Bool) :
    value m' ρ v = value m ρ v := by
  rw [value,value]
  congr 1
  exact List.map_congr_left fun l hl => evalLit_extends he ρ (hv l hl)

theorem Num.extends (h : Num m v w x) (he : m.Extends m') : Num m' v w x := by
  refine ⟨h.length,fun l hl => (h.valid l hl).extends he,fun ρ => ?_⟩
  rw [value_extends he h.valid,h.value_eq ρ]

theorem Num.congr (h : Num m v w x) (hxy : ∀ ρ, x ρ = y ρ) : Num m v w y :=
  ⟨h.length,h.valid,fun ρ => (h.value_eq ρ).trans (hxy ρ)⟩

theorem Num.lt (h : Num m v w x) (ρ : ℕ → Bool) : x ρ < 2^w := by
  rw [← h.value_eq ρ,← h.length]
  exact value_lt m ρ v

theorem Word.num (h : Word m v w F) :
    Num m v w (fun ρ => Bits.low (F ρ) w) := by
  refine ⟨h.length,fun l hl => ?_,fun ρ => ?_⟩
  · obtain ⟨i,hi,rfl⟩ := exists_bits hl
    exact (h.at (by rwa [← h.length])).1
  · rw [value_eq_low,h.length]
    exact low_congr fun k hk => (h.column k hk).2 ρ

theorem Num.word (h : Num m v w x) :
    Word m v w (fun ρ => (x ρ).testBit) := by
  refine ⟨h.length,fun k hk => ⟨h.valid _ (bits_mem (by rw [h.length]; omega)),fun ρ => ?_⟩⟩
  show m.evalLit ρ (bits v (w-1-k)) = (x ρ).testBit k
  rw [← h.value_eq ρ,value_eq_low,Bits.testBit_low,h.length]
  simp [hk]

theorem Word.num_of (h : Word m v w F) (hx : ∀ ρ, Bits.low (F ρ) w = x ρ) :
    Num m v w x := h.num.congr hx

theorem Num.low_testBit (h : Num m v w x) (ρ : ℕ → Bool) : Bits.low (x ρ).testBit w = x ρ := by
  rw [Bits.low_testBit,Nat.mod_eq_of_lt (h.lt ρ)]

theorem bbAdd_num (hm : m.Wf) (hw : 0 < w) (ha : Num m a w x) (hb : Num m b w y) :
    Spec (bbAdd a b) m (fun r m' => Num m' r w (fun ρ => (x ρ + y ρ) % 2^w)) := by
  refine (bbAdd_spec hm hw ha.word hb.word).mono fun r m' _ _ hr => hr.num_of fun ρ => ?_
  rw [Bits.low_sum_mod,ha.low_testBit,hb.low_testBit,Bool.toNat_false,Nat.add_zero]

theorem bbMul_num (hm : m.Wf) (hw : 0 < w) (ha : Num m a w x) (hb : Num m b w y) :
    Spec (bbMul a b) m (fun r m' => Num m' r w (fun ρ => x ρ * y ρ % 2^w)) := by
  refine (bbMul_spec hm hw ha.word hb.word).mono fun r m' _ _ hr => hr.num_of fun ρ => ?_
  have hmul := Bits.low_mulRows (x ρ).testBit (y ρ).testBit w le_rfl
  rw [ha.low_testBit,hb.low_testBit] at hmul
  rw [← hmul,Nat.mod_eq_of_lt (Bits.low_lt _ w)]

theorem Num.not (ha : Num m a w x) :
    Num m (bbNot a) w (fun ρ => 2^w - 1 - x ρ) := by
  refine ha.word.not.num_of fun ρ => ?_
  have h := Bits.low_not (x ρ).testBit w
  rw [ha.low_testBit] at h
  omega

theorem num_valueU64 (hm : m.Wf) (w : ℕ) {c : ℕ} (hc : c < 2^64) :
    Num m (bbValueU64 w c) w (fun _ => c % 2^w) := by
  refine (word_valueU64 hm w c).num_of fun _ => ?_
  rw [← Bits.low_testBit]
  refine low_congr fun k _ => ?_
  by_cases hk : k < 64
  · simp [hk]
  · have hle : 2^64 ≤ 2^k := Nat.pow_le_pow_right (by norm_num) (by omega)
    simp [hk,Nat.testBit_lt_two_pow (hc.trans_le hle)]

theorem bbNeg_num (hm : m.Wf) (hw : 0 < w) (ha : Num m a w x) :
    Spec (bbNeg a) m (fun r m' => Num m' r w (fun ρ => (2^w - x ρ) % 2^w)) := by
  unfold bbNeg
  rw [ha.length]
  refine (bbAdd_num hm hw ha.not (num_valueU64 hm w (by norm_num : 1 < 2^64))).mono
    fun r m' _ _ hr => hr.congr fun ρ => ?_
  have hlt := ha.lt ρ
  have h1 : 1 < 2^w := Nat.one_lt_two_pow (by omega)
  rw [Nat.mod_eq_of_lt h1]
  congr 1
  omega

theorem bbSub_num (hm : m.Wf) (hw : 0 < w) (ha : Num m a w x) (hb : Num m b w y) :
    Spec (bbSub a b) m (fun r m' => Num m' r w (fun ρ => (x ρ + (2^w - y ρ)) % 2^w)) := by
  refine (bbNeg_num hm hw hb).bind fun nb m₁ hm₁ he₁ hnb => ?_
  refine (bbAdd_num hm₁ hw (ha.extends he₁) hnb).mono fun r m' _ _ hr => hr.congr fun ρ => ?_
  rw [Nat.add_mod_mod]

theorem bbZip_word {op : ℤ → ℤ → Build ℤ} {g : Bool → Bool → Bool}
    (hop : ∀ {m : Aig}, m.Wf → ∀ {x y : ℤ} {f₁ f₂ : (ℕ → Bool) → Bool}, m.Denotes x f₁ →
      m.Denotes y f₂ → Spec (op x y) m (fun r m' => m'.Denotes r (fun ρ => g (f₁ ρ) (f₂ ρ))))
    (hm : m.Wf) (ha : Word m a w F) (hb : Word m b w G) :
    Spec (bbZip op a b) m (fun r m' => Word m' r w (fun ρ k => g (F ρ k) (G ρ k))) := by
  simp only [bbZip,ha.length]
  refine (Spec.forRange hm (Nat.zero_le w) (fun i r m' => r.length = w ∧
      ∀ j < i, m'.Denotes (bits r j) (fun ρ => g (F ρ (w-1-j)) (G ρ (w-1-j))))
      ⟨List.length_replicate,fun j hj => absurd hj (Nat.not_lt_zero j)⟩ ?_).mono
    fun r m' _ _ hr => ⟨hr.1,fun k hk => ?_⟩
  · intro i r m' _ hi hm' he hI
    refine (hop hm' ((ha.at hi).extends he) ((hb.at hi).extends he)).bind
      fun x m'' hm'' he'' hx => ?_
    refine .pure hm'' ⟨by rw [List.length_set,hI.1],fun j hj => ?_⟩
    rw [bits_set (by rw [hI.1]; exact hi)]
    split_ifs with hij
    · subst hij
      exact hx
    · exact (hI.2 j (by omega)).extends he''
  · have h := hr.2 (w-1-k) (by omega)
    rwa [show w-1-(w-1-k) = k by omega] at h

theorem bbXor_num (hm : m.Wf) (ha : Num m a w x) (hb : Num m b w y) :
    Spec (bbXor a b) m (fun r m' => Num m' r w (fun ρ => x ρ ^^^ y ρ)) := by
  refine (bbZip_word (fun hm _ _ _ _ ha hb => mkXor_spec hm ha hb) hm ha.word hb.word).mono
    fun r m' _ _ hr => hr.num_of fun ρ => ?_
  have hlt : x ρ ^^^ y ρ < 2^w := Nat.xor_lt_two_pow (ha.lt ρ) (hb.lt ρ)
  have hbits : Bits.low (x ρ ^^^ y ρ).testBit w = x ρ ^^^ y ρ := by
    rw [Bits.low_testBit,Nat.mod_eq_of_lt hlt]
  rw [← hbits]
  exact low_congr fun k _ => (Nat.testBit_xor (x ρ) (y ρ) k).symm

theorem bbEq_num (hm : m.Wf) (hw : 0 < w) (ha : Num m a w x) (hb : Num m b w y) :
    Spec (bbEq a b) m (fun r m' => Num m' r 1 (fun ρ => if x ρ = y ρ then 1 else 0)) := by
  have hat : ∀ {m' : Aig}, m.Extends m' → ∀ {i : ℕ}, i < w →
      m'.Denotes (bits a i) (fun ρ => (x ρ).testBit (w-1-i)) ∧
        m'.Denotes (bits b i) (fun ρ => (y ρ).testBit (w-1-i)) := fun he i hi =>
    ⟨(ha.word.at hi).extends he,(hb.word.at hi).extends he⟩
  simp only [bbEq,ha.length]
  refine (mkIff_spec hm (hat (.refl m) hw).1 (hat (.refl m) hw).2).bind
    fun l m₁ hm₁ he₁ hl => ?_
  refine Spec.bind (Spec.forRange hm₁ hw (fun i l m' => m'.Denotes l (fun ρ =>
    decide (∀ j < i, (x ρ).testBit (w-1-j) = (y ρ).testBit (w-1-j)))) (hl.congr fun ρ => ?_) ?_)
    fun l m₂ hm₂ _ hl => .pure hm₂ ?_
  · rw [Bool.eq_iff_iff]
    simp
  · intro i l m' _ hi hm' he hl
    have hi' := hat (he₁.trans he) hi
    refine (mkIff_spec hm' hi'.1 hi'.2).bind fun e m'' hm'' he'' hx => ?_
    refine (mkAnd_spec hm'' (hl.extends he'') hx).mono fun r m₃ _ _ hr => hr.congr fun ρ => ?_
    have hsplit : (∀ j < i+1, (x ρ).testBit (w-1-j) = (y ρ).testBit (w-1-j)) ↔
        (∀ j < i, (x ρ).testBit (w-1-j) = (y ρ).testBit (w-1-j)) ∧
          (x ρ).testBit (w-1-i) = (y ρ).testBit (w-1-i) := by
      simp only [Nat.lt_succ_iff_lt_or_eq,or_imp,forall_and,forall_eq]
    rw [Bool.eq_iff_iff,Bool.and_eq_true,decide_eq_true_iff,decide_eq_true_iff,beq_iff_eq,hsplit]
  · refine ⟨rfl,fun k hk => by rw [List.mem_singleton.mp hk]; exact hl.1,fun ρ => ?_⟩
    have hval : value m₂ ρ [l] = (m₂.evalLit ρ l).toNat := by simp [value,Bits.val]
    have hiff : (∀ j < w, (x ρ).testBit (w-1-j) = (y ρ).testBit (w-1-j)) ↔ x ρ = y ρ := by
      refine ⟨fun h => ?_,fun h j _ => by rw [h]⟩
      rw [← ha.low_testBit ρ,← hb.low_testBit ρ]
      refine low_congr fun k hk => ?_
      have hk' := h (w-1-k) (by omega)
      rwa [show w-1-(w-1-k) = k by omega] at hk'
    have hlit : m₂.evalLit ρ l = decide (x ρ = y ρ) :=
      (hl.2 ρ).trans (decide_eq_decide.mpr hiff)
    rw [hval,hlit]
    by_cases heq : x ρ = y ρ
    · simp [heq]
    · simp [heq]

def toBitVec (m : Aig) (ρ : ℕ → Bool) (w : ℕ) (v : Bv) : BitVec w :=
  BitVec.ofNat w (value m ρ v)

theorem Num.toBitVec_eq (h : Num m v w x) (ρ : ℕ → Bool) :
    toBitVec m ρ w v = BitVec.ofNat w (x ρ) := by
  rw [toBitVec,h.value_eq]

/-- `v` is a vector of `w` literals of `m`. -/
def Vec (m : Aig) (w : ℕ) (v : Bv) : Prop := v.length = w ∧ ∀ l ∈ v, m.Valid l

instance (m : Aig) (w : ℕ) (v : Bv) : Decidable (Vec m w v) :=
  inferInstanceAs (Decidable (_ ∧ _))

theorem Vec.num (h : Vec m w v) : Num m v w (fun ρ => value m ρ v) :=
  ⟨h.1,h.2,fun _ => rfl⟩

/-- `r` is a vector of `w` literals for the word `X` of the inputs. -/
def Computes (w : ℕ) (X : (ℕ → Bool) → BitVec w) (r : Bv) (m : Aig) : Prop :=
  Vec m w r ∧ ∀ ρ, toBitVec m ρ w r = X ρ

theorem Num.computes {r : Bv} {X : (ℕ → Bool) → BitVec w} (h : Num m r w x)
    (hX : ∀ ρ, BitVec.ofNat w (x ρ) = X ρ) :
    Computes w X r m :=
  ⟨⟨h.length,h.valid⟩,fun ρ => (h.toBitVec_eq ρ).trans (hX ρ)⟩

/-- The adders, the negation and the multiplier compute modulo `2^w`, whatever
mix of constants, inputs and gates the operands are. -/
theorem arith_computes {m : Aig} (hm : m.Wf) {w : ℕ} (hw : 0 < w) {a b : Bv}
    (ha : Vec m w a) (hb : Vec m w b) :
    Spec (bbAdd a b) m (Computes w fun ρ => toBitVec m ρ w a + toBitVec m ρ w b) ∧
    Spec (bbNeg a) m (Computes w fun ρ => -toBitVec m ρ w a) ∧
    Spec (bbSub a b) m (Computes w fun ρ => toBitVec m ρ w a - toBitVec m ρ w b) ∧
    Spec (bbMul a b) m (Computes w fun ρ => toBitVec m ρ w a * toBitVec m ρ w b) := by
  refine ⟨(bbAdd_num hm hw ha.num hb.num).mono fun r m' _ _ hr => hr.computes fun ρ => ?_,
    (bbNeg_num hm hw ha.num).mono fun r m' _ _ hr => hr.computes fun ρ => ?_,
    (bbSub_num hm hw ha.num hb.num).mono fun r m' _ _ hr => hr.computes fun ρ => ?_,
    (bbMul_num hm hw ha.num hb.num).mono fun r m' _ _ hr => hr.computes fun ρ => ?_⟩
  · exact BitVec.eq_of_toNat_eq (by simp [toBitVec])
  · have hlt := ha.num.lt ρ
    refine BitVec.eq_of_toNat_eq ?_
    simp [toBitVec,Nat.mod_eq_of_lt hlt]
  · have hlt := hb.num.lt ρ
    refine BitVec.eq_of_toNat_eq ?_
    simp [toBitVec,Nat.mod_eq_of_lt hlt,Nat.add_comm]
  · exact BitVec.eq_of_toNat_eq (by simp [toBitVec])

/-- The operands `(x,true)` and `(false,!y)` over two inputs `x` and `y`. -/
theorem arith_computes_two :
    let m := (mkInput (mkInput new).2).2
    Spec (bbMul [2,1] [-1,-3]) m
      (Computes 2 fun ρ => toBitVec m ρ 2 [2,1] * toBitVec m ρ 2 [-1,-3]) :=
  (arith_computes (mkInput_spec (mkInput_spec new_wf).1).1 (by decide) (by decide)
    (by decide)).2.2.2

end Bitblast
end DvSolve
