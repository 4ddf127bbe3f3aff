import DvSolve.AffineSem

/-! The Gauss–Jordan shape of the affine system over runs of its operations. -/
namespace DvSolve
namespace Affine

variable {r : Row} {done : ℕ → Bool} {s : Gauss × Form}

/-- Each row has a 1 in its own pivot column and a 0 in those of the others, and `pmask` holds the
pivot columns. -/
structure Gauss.Shape (g : Gauss) : Prop where
  wide : ∀ (i : ℕ) x, g.rows[i]? = some x → x.bits < 2^(64*g.W)
  own : ∀ (i : ℕ) x, g.rows[i]? = some x → x.bits.testBit x.pcol = true
  other : ∀ (i j : ℕ) x y, g.rows[i]? = some x → g.rows[j]? = some y → i ≠ j →
    y.bits.testBit x.pcol = false
  mask : ∀ k, g.pmask.testBit k = true ↔ ∃ (i : ℕ) (x : Row), g.rows[i]? = some x ∧ x.pcol = k

def Gauss.Linked (g : Gauss) : Prop := ∀ (i : ℕ) x, g.rows[i]? = some x → g.prow x.pcol = i

variable {g g' : Gauss} {n k : ℕ} {f : Form} {x : ℕ → Bool}

theorem Gauss.Shape.pivot_lt (hg : g.Shape) (hk : g.pmask.testBit k = true) : k < 64*g.W := by
  obtain ⟨i,r,hr,rfl⟩ := (hg.mask k).mp hk
  by_contra hge
  have hp := (hg.wide i r hr).trans_le (Nat.pow_le_pow_right (by decide) (not_lt.mp hge))
  have hown := hg.own i r hr
  rw [Nat.testBit_lt_two_pow hp] at hown
  cases hown

theorem Gauss.row_eq {i : ℕ} (h : g.rows[i]? = some r) : g.row i = r := by
  rw [Gauss.row,List.getD_eq_getElem?_getD,h]
  rfl

def Worked (g g' : Gauss) : Prop := ∃ w, g' = { g with work := w }

/-- A reduction under way: the system is the same, and of the pivot columns those of `done` are
cleared. -/
structure Reducing (g : Gauss) (f : Form) (done : ℕ → Bool) (s : Gauss × Form) : Prop where
  worked : Worked g s.1
  wide : f.1 < 2^(64*g.W) → s.2.1 < 2^(64*g.W)
  pivots : ∀ j, g.pmask.testBit j = true → s.2.1.testBit j = (f.1.testBit j && !done j)

section Reduce

variable (hg : g.Shape) (hl : g.Linked)
include hg hl

theorem pivotRow {j : ℕ} (hk : g.pmask.testBit k = true) (hj : g.pmask.testBit j = true) :
    (g.row (g.prow k)).bits < 2^(64*g.W) ∧ (g.row (g.prow k)).bits.testBit j = decide (j = k) := by
  obtain ⟨a,r,hr,rfl⟩ := (hg.mask k).mp hk
  obtain ⟨b,t,ht,rfl⟩ := (hg.mask j).mp hj
  rw [hl a r hr,Gauss.row_eq hr]
  refine ⟨hg.wide a r hr,?_⟩
  by_cases hab : b = a
  · subst hab
    obtain rfl := Option.some.inj (ht.symm.trans hr)
    rw [hg.own b t ht,decide_eq_true rfl]
  · have hne := hg.other b a t r ht hr hab
    rw [hne,decide_eq_false]
    intro he
    rw [he,hg.own a r hr] at hne
    cases hne

theorem reduceBit_reducing (hs : Reducing g f done s) (hk : g.pmask.testBit k = true)
    (hone : f.1.testBit k = true) (hnew : done k = false) :
    Reducing g f (fun j => done j || decide (j = k)) (reduceBit k s) := by
  obtain ⟨⟨w,hw⟩,hwide,hpiv⟩ := hs
  have hrow : s.1.row (s.1.prow k) = g.row (g.prow k) := by rw [hw]; rfl
  refine ⟨⟨_,by rw [reduceBit,hw]⟩,?_,fun j hj => ?_⟩
  · rw [reduceBit,hrow]
    exact fun hf => Nat.xor_lt_two_pow (hwide hf) (pivotRow hg hl hk hk).1
  · rw [reduceBit,hrow,Nat.testBit_xor,hpiv j hj,(pivotRow hg hl hk hj).2]
    by_cases hjk : j = k
    · subst hjk
      simp [hone,hnew]
    · simp [hjk]

/-- Clearing the columns of a list that `mask` has, where the form still has those. -/
theorem reduceBits_reducing {mask : ℕ} {l : List ℕ} (hl' : l.Nodup) (hs : Reducing g f done s)
    (hmask : ∀ j ∈ l, mask.testBit j = (g.pmask.testBit j && f.1.testBit j && !done j)) :
    Reducing g f (fun j => done j || decide (j ∈ l))
      (l.foldl (fun s k => if mask.testBit k then reduceBit k s else s) s) := by
  induction l generalizing done s with
  | nil => simpa using hs
  | cons k l ih =>
    obtain ⟨hkl,hl'⟩ := List.nodup_cons.mp hl'
    have hstep : Reducing g f (fun j => done j || decide (j = k))
        (if mask.testBit k then reduceBit k s else s) := by
      have hm := hmask k List.mem_cons_self
      split_ifs with hk
      · simp only [hk,Bool.true_eq,Bool.and_eq_true,Bool.not_eq_true'] at hm
        exact reduceBit_reducing hg hl hs hm.1.1 hm.1.2 hm.2
      · refine ⟨hs.worked,hs.wide,fun j hj => ?_⟩
        rw [hs.pivots j hj]
        by_cases hjk : j = k
        · subst hjk
          rw [Bool.not_eq_true] at hk
          rw [hk,hj,Bool.true_and] at hm
          simp [← hm]
        · simp [hjk]
    have hrest := ih hl' hstep fun j hj => by
      have hjk : j ≠ k := fun h => hkl (h ▸ hj)
      simp [hmask j (List.mem_cons_of_mem k hj),hjk]
    simpa [List.foldl_cons,Bool.or_assoc] using hrest

theorem reduceWord_reducing (hs : Reducing g f done s) (w : ℕ) :
    Reducing g f (fun j => done j || decide (j ∈ List.range' (64*w) 64)) (reduceWord s w) := by
  refine reduceBits_reducing hg hl (List.nodup_range' ..) hs fun j _ => ?_
  obtain ⟨v,hv⟩ := hs.worked
  rw [hv,Nat.testBit_and]
  cases hj : g.pmask.testBit j
  · simp
  · simp [hs.pivots j hj]

theorem reduce_reducing (f : Form) : Worked g (reduce g f).1 ∧
    (f.1 < 2^(64*g.W) → (reduce g f).2.1 < 2^(64*g.W)) ∧
    ∀ j, g.pmask.testBit j = true → (reduce g f).2.1.testBit j = false := by
  have hall : ∀ l : List ℕ, Reducing g f (fun j => decide (∃ w ∈ l, j ∈ List.range' (64*w) 64))
      (l.foldl reduceWord (g,f)) := by
    intro l
    induction l using List.reverseRecOn with
    | nil => exact ⟨⟨g.work,rfl⟩,id,fun j _ => by simp⟩
    | append_singleton l w ih =>
      rw [List.foldl_concat]
      have hw := reduceWord_reducing hg hl ih w
      refine ⟨hw.worked,hw.wide,fun j hj => ?_⟩
      rw [hw.pivots j hj]
      simp [or_and_right,exists_or]
  obtain ⟨hw,hwide,hpiv⟩ := hall (List.range g.W)
  refine ⟨hw,hwide,fun j hj => (hpiv j hj).trans ?_⟩
  have hlt := hg.pivot_lt hj
  have hin : ∃ w ∈ List.range g.W, j ∈ List.range' (64*w) 64 :=
    ⟨j/64,List.mem_range.mpr (by omega),List.mem_range'_1.mpr (by omega)⟩
  rw [decide_eq_true hin,Bool.not_true,Bool.and_false]

end Reduce

theorem eliminate_pcol (k : ℕ) (f : Form) (r : Row) : (eliminate k f r).pcol = r.pcol := by
  unfold eliminate
  split_ifs <;> rfl

theorem eliminate_testBit {j : ℕ} (hj : f.1.testBit j = false) :
    (eliminate k f r).bits.testBit j = r.bits.testBit j := by
  unfold eliminate
  split_ifs
  · rw [Nat.testBit_xor,hj,Bool.xor_false]
  · rfl

/-- A system with the row `f` as row `p`, pivoting on column `k` and eliminated from the rows of
`g` but its row `p`. -/
structure Eliminated (g : Gauss) (p k : ℕ) (f : Form) (g' : Gauss) : Prop where
  words : g'.W = g.W
  wide : f.1 < 2^(64*g.W)
  bit : f.1.testBit k = true
  clear : ∀ (i : ℕ) y, i ≠ p → g.rows[i]? = some y → f.1.testBit y.pcol = false
  here : g'.rows[p]? = some ⟨f.1,f.2,k⟩
  rest : ∀ i, i ≠ p → g'.rows[i]? = (g.rows[i]?).map (eliminate k f)
  mask : ∀ j, g'.pmask.testBit j = true ↔
    j = k ∨ ∃ (i : ℕ) (y : Row), i ≠ p ∧ g.rows[i]? = some y ∧ y.pcol = j

section Eliminated

variable {p : ℕ} (h : Eliminated g p k f g')
include h

theorem Eliminated.cases {i : ℕ} (hr : g'.rows[i]? = some r) :
    i = p ∧ r = ⟨f.1,f.2,k⟩ ∨ i ≠ p ∧ ∃ y, g.rows[i]? = some y ∧ eliminate k f y = r := by
  by_cases hi : i = p
  · subst hi
    exact .inl ⟨rfl,(Option.some.inj (h.here.symm.trans hr)).symm⟩
  · rw [h.rest i hi] at hr
    exact .inr ⟨hi,Option.map_eq_some_iff.mp hr⟩

theorem Eliminated.shape (hg : g.Shape) : g'.Shape := by
  have hcol : ∀ y, (eliminate k f y).bits.testBit k = false := fun y => by
    unfold eliminate
    split_ifs with hy
    · rw [Nat.testBit_xor,hy,h.bit,Bool.xor_self]
    · exact Bool.not_eq_true _ ▸ hy
  refine ⟨fun i r hr => ?_,fun i r hr => ?_,fun i j r t hr ht hij => ?_,fun j => (h.mask j).trans ?_⟩
  · rw [h.words]
    obtain ⟨-,rfl⟩ | ⟨-,y,hy,rfl⟩ := h.cases hr
    · exact h.wide
    · unfold eliminate
      split_ifs
      · exact Nat.xor_lt_two_pow (hg.wide i y hy) h.wide
      · exact hg.wide i y hy
  · obtain ⟨-,rfl⟩ | ⟨hi,y,hy,rfl⟩ := h.cases hr
    · exact h.bit
    · rw [eliminate_pcol,eliminate_testBit (h.clear i y hi hy)]
      exact hg.own i y hy
  · obtain ⟨rfl,rfl⟩ | ⟨hi,y,hy,rfl⟩ := h.cases hr <;>
      obtain ⟨rfl,rfl⟩ | ⟨hj,z,hz,rfl⟩ := h.cases ht
    · exact absurd rfl hij
    · exact hcol z
    · rw [eliminate_pcol]
      exact h.clear i y hi hy
    · rw [eliminate_pcol,eliminate_testBit (h.clear i y hi hy)]
      exact hg.other i j y z hy hz hij
  · constructor
    · rintro (rfl | ⟨i,y,hi,hy,rfl⟩)
      · exact ⟨p,_,h.here,rfl⟩
      · exact ⟨i,_,(h.rest i hi).trans (by rw [hy]; rfl),eliminate_pcol k f y⟩
    · rintro ⟨i,r,hr,rfl⟩
      obtain ⟨-,rfl⟩ | ⟨hi,y,hy,rfl⟩ := h.cases hr
      · exact .inl rfl
      · exact .inr ⟨i,y,hi,hy,(eliminate_pcol k f y).symm⟩

theorem Eliminated.holds_iff (hn : 64*g.W = n) : g'.Holds x n ↔ Gf2.dot x f.1 n = f.2 ∧
    ∀ (i : ℕ) y, i ≠ p → g.rows[i]? = some y → Gf2.dot x y.bits n = y.rhs := by
  have hone : Gf2.dot x f.1 n = f.2 → ∀ y : Row, (Gf2.dot x (eliminate k f y).bits n =
      (eliminate k f y).rhs ↔ Gf2.dot x y.bits n = y.rhs) := by
    intro hf y
    unfold eliminate
    split_ifs
    · rw [Gf2.dot_xor,hf]
      exact Bool.xor_left_inj
    · rfl
  constructor
  · intro hh
    have hf := hh.rows _ (List.mem_of_getElem? h.here)
    refine ⟨hf,fun i y hi hy => (hone hf y).mp (hh.rows _ (List.mem_of_getElem? (i:=i) ?_))⟩
    rw [h.rest i hi,hy]
    rfl
  · rintro ⟨hf,hall⟩
    refine ⟨h.words.symm ▸ hn,fun r hr => ?_⟩
    obtain ⟨i,hi⟩ := List.mem_iff_getElem?.mp hr
    obtain ⟨-,rfl⟩ | ⟨hne,y,hy,rfl⟩ := h.cases hi
    · exact hf
    · exact (hone hf y).mpr (hall i y hne hy)

end Eliminated

theorem Gauss.holds_iff (g : Gauss) (hn : 64*g.W = n) : g.Holds x n ↔
    ∀ (i : ℕ) y, g.rows[i]? = some y → Gf2.dot x y.bits n = y.rhs := by
  refine ⟨fun h i y hy => h.rows y (List.mem_of_getElem? hy),fun h => ⟨hn,fun y hy => ?_⟩⟩
  obtain ⟨i,hi⟩ := List.mem_iff_getElem?.mp hy
  exact h i y hi

theorem Gauss.Shape.solvable (hg : g.Shape) (hl : g.Linked) : ∃ x, g.Holds x (64*g.W) := by
  refine ⟨fun k => g.pmask.testBit k && (g.row (g.prow k)).rhs,(g.holds_iff rfl).mpr fun i r hr => ?_⟩
  have hp := (hg.mask r.pcol).mpr ⟨i,r,hr,rfl⟩
  have hsplit : r.bits = 2^r.pcol ^^^ (r.bits ^^^ 2^r.pcol) := by
    rw [Nat.xor_comm r.bits,← Nat.xor_assoc,Nat.xor_self,Nat.zero_xor]
  rw [hsplit,Gf2.dot_xor,Gf2.dot_two_pow _ (hg.pivot_lt hp),Gf2.dot_eq_false,Bool.xor_false,hp,
    hl i r hr,Gauss.row_eq hr,Bool.true_and]
  intro k _
  rw [Nat.testBit_xor]
  cases hk : g.pmask.testBit k
  · rw [Bool.false_and,Bool.and_false]
  · have hone := (pivotRow hg hl hp hk).2
    rw [hl i r hr,Gauss.row_eq hr] at hone
    simp [hone,Nat.testBit_two_pow,eq_comm]

section Worked

variable (h : Worked g g')
include h

theorem Worked.shape (hg : g.Shape) : g'.Shape := by
  obtain ⟨w,rfl⟩ := h
  exact ⟨hg.wide,hg.own,hg.other,hg.mask⟩

theorem Worked.linked (hl : g.Linked) : g'.Linked := by
  obtain ⟨w,rfl⟩ := h
  exact hl

theorem Worked.holds_iff : g'.Holds x n ↔ g.Holds x n := by
  obtain ⟨w,rfl⟩ := h
  exact ⟨fun hx => ⟨hx.width,hx.rows⟩,fun hx => ⟨hx.width,hx.rows⟩⟩

end Worked

/-- What `_add_eq` does with the equation `f.1·x = f.2`: `e` is its answer and `g'` the system
after it. -/
structure Added (g : Gauss) (f : Form) (e : Bool) (g' : Gauss) : Prop where
  words : g'.W = g.W
  shape : g'.Shape
  linked : g'.Linked
  refused : e = false → Worked g g' ∧ ∀ x, g.Holds x (64*g.W) → Gf2.dot x f.1 (64*g.W) ≠ f.2
  accepted : e = true → ∀ x, g'.Holds x (64*g.W) ↔ g.Holds x (64*g.W) ∧ Gf2.dot x f.1 (64*g.W) = f.2

theorem formVal_eq_false : formVal x n f = false ↔ Gf2.dot x f.1 n = f.2 := by
  rw [formVal,bne_eq_false_iff_eq]

theorem addEq_added (hg : g.Shape) (hl : g.Linked) (hf : f.1 < 2^(64*g.W)) :
    Added g f (addEq g f).1 (addEq g f).2 := by
  obtain ⟨⟨w,hw⟩,hwide,hpiv⟩ := reduce_reducing hg hl f
  have hval : ∀ x, g.Holds x (64*g.W) → (formVal x (64*g.W) (reduce g f).2 = false ↔
      Gf2.dot x f.1 (64*g.W) = f.2) := fun x hx => by
    rw [(reduce_ok hx f).2,formVal_eq_false]
  unfold addEq
  generalize reduce g f = s at hw hwide hpiv hval
  obtain ⟨g₁,f'⟩ := s
  dsimp only at hw hwide hpiv hval ⊢
  have hwork : Worked g g₁ := ⟨w,hw⟩
  have hW : g₁.W = g.W := by rw [hw]
  cases hlow : lowestColumn g₁.W f'.1 with
  | none =>
    have hzero : ∀ x, formVal x (64*g.W) f' = f'.2 := fun x => by
      rw [formVal,← hW,lowestColumn_none hlow,Bool.false_xor]
    simp only [hzero] at hval
    refine ⟨hW,hwork.shape hg,hwork.linked hl,fun he => ⟨hwork,fun x hx hd => ?_⟩,fun he x => ?_⟩
    · rw [(hval x hx).mpr hd] at he
      cases he
    · rw [hwork.holds_iff]
      exact ⟨fun hx => ⟨hx,(hval x hx).mp ((Bool.not_eq_true' _).mp he)⟩,fun hx => hx.1⟩
  | some k =>
    have hk : f'.1.testBit k = true := by simpa using List.find?_some hlow
    have hrows : g₁.rows = g.rows := by rw [hw]
    have hlt : ∀ (i : ℕ) y, g.rows[i]? = some y → i < g.rows.length := fun i y hy =>
      (List.getElem?_eq_some_iff.mp hy).1
    have hel : Eliminated g g.rows.length k f' { g₁ with
        rows := g₁.rows.map (eliminate k f') ++ [⟨f'.1,f'.2,k⟩]
        prow := Function.update g₁.prow k g₁.rows.length
        pmask := g₁.pmask ||| 2^k
        work := g₁.work + g₁.rows.countP (fun row => row.bits.testBit k) * g₁.W } := by
      refine ⟨hW,hwide hf,hk,fun i y _ hy => hpiv _ ((hg.mask _).mpr ⟨i,y,hy,rfl⟩),?_,
        fun i hi => ?_,fun j => ?_⟩
      · simp [hrows]
      · dsimp only
        rw [hrows]
        obtain hi | hi := lt_or_gt_of_ne hi
        · rw [List.getElem?_append_left (by simpa using hi),List.getElem?_map]
        · rw [List.getElem?_eq_none (by simpa using hi),List.getElem?_eq_none hi.le]
          rfl
      · dsimp only
        rw [Nat.testBit_or,Nat.testBit_two_pow,Bool.or_eq_true,decide_eq_true_eq,or_comm,
          eq_comm (a := k),hw,hg.mask]
        refine or_congr_right ⟨?_,?_⟩
        · rintro ⟨i,y,hy,h⟩
          exact ⟨i,y,(hlt i y hy).ne,hy,h⟩
        · rintro ⟨i,y,_,hy,h⟩
          exact ⟨i,y,hy,h⟩
    refine ⟨hW,hel.shape hg,fun i r hr => ?_,fun he => (Bool.false_ne_true he.symm).elim, fun _ x => ?_⟩
    · dsimp only
      obtain ⟨rfl,rfl⟩ | ⟨_,y,hy,rfl⟩ := hel.cases hr
      · rw [Function.update_self,hrows]
      · have hne : y.pcol ≠ k := fun he => by
          rw [← he,hpiv _ ((hg.mask _).mpr ⟨i,y,hy,rfl⟩)] at hk
          cases hk
        rw [eliminate_pcol,Function.update_of_ne hne,hw]
        exact hl i y hy
    · rw [hel.holds_iff rfl,and_comm]
      have hall : (∀ (i : ℕ) y, i ≠ g.rows.length → g.rows[i]? = some y →
          Gf2.dot x y.bits (64*g.W) = y.rhs) ↔ g.Holds x (64*g.W) := by
        rw [g.holds_iff rfl]
        exact ⟨fun h i y hy => h i y (hlt i y hy).ne hy,fun h i y _ hy => h i y hy⟩
      rw [hall]
      exact and_congr_right fun hx => by rw [← hval x hx,formVal_eq_false]

theorem Added.refused_iff {e : Bool} (h : Added g f e g') : e = false ↔
    ¬∃ x, g.Holds x (64*g.W) ∧ Gf2.dot x f.1 (64*g.W) = f.2 := by
  constructor
  · rintro he ⟨x,hx,hd⟩
    exact (h.refused he).2 x hx hd
  · intro hno
    by_contra he
    obtain ⟨x,hx⟩ := h.shape.solvable h.linked
    rw [h.words] at hx
    exact hno ⟨x,(h.accepted (Bool.not_eq_false _ ▸ he) x).mp hx⟩

def Free (pmask bits k : ℕ) : Prop := bits.testBit k = true ∧ pmask.testBit k = false

theorem pickColumn_free (c : Context) (fs : ℕ → Bool) {pmask bits : ℕ} (cs : List ℕ)
    {o : Option ℕ} (ho : ∀ k ∈ o, Free pmask bits k) :
    ∀ k ∈ pickColumn c fs pmask bits cs o, Free pmask bits k := by
  induction cs generalizing o with
  | nil => exact ho
  | cons a cs ih =>
    unfold pickColumn
    extract_lets id o'
    split_ifs with ha hid
    · exact ih ho
    all_goals
      have hfree : Free pmask bits a :=
        ⟨by simpa using fun h => ha (.inl h),by simpa using fun h => ha (.inr (.inr h))⟩
      have ho' : ∀ k ∈ o', Free pmask bits k := by
        intro k hk
        unfold o' at hk
        split at hk
        · exact Option.some.inj hk ▸ hfree
        · split_ifs at hk
          · exact Option.some.inj hk ▸ hfree
          · exact ho k hk
    · exact ho'
    · exact ih ho'

theorem Gauss.Shape.pcol_ne (hg : g.Shape) {i j : ℕ} {t : Row} (hr : g.rows[i]? = some r)
    (ht : g.rows[j]? = some t) (hij : i ≠ j) : t.pcol ≠ r.pcol := by
  intro he
  have hone := hg.own j t ht
  rw [he,hg.other i j r t hr ht hij] at hone
  cases hone

theorem repivotRow_keeps (c : Context) (fs : ℕ → Bool) (hg : g.Shape) {p : ℕ}
    (hp : p < g.rows.length) : (repivotRow c fs g p).rows.length = g.rows.length ∧
      (repivotRow c fs g p).Shape ∧ ∀ x n, (repivotRow c fs g p).Holds x n ↔ g.Holds x n := by
  have hr : g.rows[p]? = some g.rows[p] := List.getElem?_eq_getElem hp
  have hpc : g.pmask.testBit g.rows[p].pcol = true := (hg.mask _).mpr ⟨p,_,hr,rfl⟩
  unfold repivotRow
  rw [Gauss.row_eq hr]
  generalize g.rows[p] = r at hr hpc
  dsimp only
  rw [if_pos hpc]
  by_cases hgate : c.gates.L (c.colNode.getD r.pcol 0) = 0
  · rw [if_pos hgate]
    exact ⟨rfl,hg,fun x n => .rfl⟩
  rw [if_neg hgate]
  cases hk : pickColumn c fs g.pmask r.bits (List.range c.colNode.length) none with
  | none => exact ⟨rfl,hg,fun x n => .rfl⟩
  | some k =>
    obtain ⟨hone,-⟩ := pickColumn_free c fs _ (fun _ h => by cases h) k hk
    have hel : Eliminated g p k (r.bits,r.rhs) { g with
        rows := (g.rows.map (eliminate k (r.bits,r.rhs))).set p { r with pcol := k }
        pmask := g.pmask ^^^ 2^r.pcol ||| 2^k } := by
      refine ⟨rfl,hg.wide p r hr,hone,fun i y hi hy => hg.other i p y r hy hr hi,?_,fun i hi => ?_,
        fun j => ?_⟩
      · simp [hp]
      · simp [hi.symm]
      · dsimp only
        rw [Nat.testBit_or,Nat.testBit_xor,Nat.testBit_two_pow,Nat.testBit_two_pow,
          Bool.or_eq_true,decide_eq_true_eq,or_comm,eq_comm (a := k)]
        refine or_congr_right ?_
        by_cases hj : r.pcol = j
        · subst hj
          rw [hpc,decide_eq_true rfl,Bool.xor_self]
          exact ⟨nofun,fun ⟨i,y,hi,hy,he⟩ => absurd he (hg.pcol_ne hr hy hi.symm)⟩
        · rw [decide_eq_false hj,Bool.xor_false,hg.mask]
          refine ⟨fun ⟨i,y,hy,he⟩ => ⟨i,y,fun hi => ?_,hy,he⟩,fun ⟨i,y,_,hy,he⟩ => ⟨i,y,hy,he⟩⟩
          rw [hi,hr] at hy
          exact hj (Option.some.inj hy ▸ he)
    refine ⟨by simp,hel.shape hg,fun x n => ?_⟩
    by_cases hn : 64*g.W = n
    · rw [hel.holds_iff hn,g.holds_iff hn]
      refine ⟨fun ⟨h,hall⟩ i y hy => ?_,fun h => ⟨h p r hr,fun i y _ => h i y⟩⟩
      by_cases hi : i = p
      · rw [hi,hr] at hy
        exact Option.some.inj hy ▸ h
      · exact hall i y hi hy
    · exact ⟨fun h => absurd h.width hn,fun h => absurd h.width hn⟩

theorem repivot_keeps (c : Context) (hg : g.Shape) :
    (repivot c g).Shape ∧ ∀ x n, (repivot c g).Holds x n ↔ g.Holds x n := by
  have hall : ∀ l : List ℕ, (∀ p ∈ l, p < g.rows.length) → let h := l.foldl (repivotRow c (feeds c)) g
      h.rows.length = g.rows.length ∧ h.Shape ∧ ∀ x n, h.Holds x n ↔ g.Holds x n := by
    intro l
    induction l using List.reverseRecOn with
    | nil => exact fun _ => ⟨rfl,hg,fun x n => .rfl⟩
    | append_singleton l p ih =>
      intro hl
      obtain ⟨hlen,hs,hx⟩ := ih fun q hq => hl q (List.mem_append_left _ hq)
      have hp : p < g.rows.length := hl p (by simp)
      rw [List.foldl_concat]
      obtain ⟨hlen',hs',hx'⟩ := repivotRow_keeps c (feeds c) hs (hlen.symm ▸ hp)
      exact ⟨hlen'.trans hlen,hs',fun x n => (hx' x n).trans (hx x n)⟩
  exact (hall _ fun p => List.mem_range.mp).2

inductive Op (W : ℕ)
  | addEq (bits : BitVec (64*W)) (rhs : Bool)
  | reduce (bits : BitVec (64*W)) (c : Bool)
  | litValue (c : Context) (lit : ℤ)

variable {W : ℕ}

/-- The system after a call, and the equations accepted so far. -/
def Op.run (s : Gauss × List Form) : Op W → Gauss × List Form
  | .addEq bits rhs =>
    let a := Affine.addEq s.1 (bits.toNat,rhs)
    (a.2,if a.1 then s.2 ++ [(bits.toNat,rhs)] else s.2)
  | .reduce bits c => ((Affine.reduce s.1 (bits.toNat,c)).1,s.2)
  | .litValue c lit => ((Affine.litValue c s.1 lit).2,s.2)

def Solves (W : ℕ) (x : ℕ → Bool) (fs : List Form) : Prop := ∀ f ∈ fs, Gf2.dot x f.1 (64*W) = f.2

structure Spans (W : ℕ) (g : Gauss) (fs : List Form) : Prop where
  words : g.W = W
  shape : g.Shape
  linked : g.Linked
  solutions : ∀ x, g.Holds x (64*W) ↔ Solves W x fs

theorem Spans.added {fs : List Form} (h : Spans W g fs) (bits : BitVec (64*W)) (rhs : Bool) :
    Added g (bits.toNat,rhs) (addEq g (bits.toNat,rhs)).1 (addEq g (bits.toNat,rhs)).2 :=
  addEq_added h.shape h.linked (by rw [h.words]; exact bits.isLt)

theorem Spans.worked {fs : List Form} (h : Spans W g fs) (hw : Worked g g') : Spans W g' fs :=
  ⟨by obtain ⟨w,rfl⟩ := hw; exact h.words,hw.shape h.shape,hw.linked h.linked,
    fun x => hw.holds_iff.trans (h.solutions x)⟩

theorem Spans.run {s : Gauss × List Form} (h : Spans W s.1 s.2) (op : Op W) :
    Spans W (op.run s).1 (op.run s).2 := by
  cases op with
  | reduce bits c => exact h.worked (reduce_reducing h.shape h.linked _).1
  | litValue c lit => exact h.worked (reduce_reducing h.shape h.linked _).1
  | addEq bits rhs =>
    have ha := h.added bits rhs
    dsimp only [Op.run]
    generalize addEq s.1 (bits.toNat,rhs) = e at ha
    obtain ⟨ok,g'⟩ := e
    cases ok with
    | false => exact h.worked (ha.refused rfl).1
    | true =>
      rw [if_pos rfl]
      refine ⟨ha.words.trans h.words,ha.shape,ha.linked,fun x => ?_⟩
      have hx := ha.accepted rfl x
      rw [h.words] at hx
      rw [hx,h.solutions]
      simp [Solves,or_imp,forall_and]

/-- After any run of the operations a system has its shape and the solutions of the equations
accepted; an equation is refused exactly when none of them satisfies it, and `_repivot` keeps the
shape and the solutions. -/
theorem gauss_jordan (W work : ℕ) (prow : ℕ → ℕ) (ops : List (Op W)) :
    let s := ops.foldl Op.run (⟨W,[],prow,0,work⟩,[])
    Spans W s.1 s.2 ∧
    (∀ (bits : BitVec (64*W)) rhs, ((addEq s.1 (bits.toNat,rhs)).1 = false ↔
        ¬∃ x, Solves W x s.2 ∧ Gf2.dot x bits.toNat (64*W) = rhs) ∧
      ((addEq s.1 (bits.toNat,rhs)).1 = false → Worked s.1 (addEq s.1 (bits.toNat,rhs)).2)) ∧
    ∀ c, (repivot c s.1).Shape ∧ ∀ x, (repivot c s.1).Holds x (64*W) ↔ Solves W x s.2 := by
  intro s
  have hs : Spans W s.1 s.2 := by
    refine List.foldlRecOn (motive := fun s : Gauss × List Form => Spans W s.1 s.2) ops _ ?_
      fun _ h op _ => h.run op
    refine ⟨rfl,⟨nofun,nofun,nofun,fun k => ?_⟩,nofun,fun x => ?_⟩
    · simp
    · exact ⟨fun _ => nofun,fun _ => ⟨rfl,nofun⟩⟩
  refine ⟨hs,fun bits rhs => ?_,fun c => ?_⟩
  · have ha := hs.added bits rhs
    refine ⟨?_,fun he => (ha.refused he).1⟩
    rw [ha.refused_iff,hs.words]
    simp only [hs.solutions]
  · obtain ⟨hshape,hx⟩ := repivot_keeps c hs.shape
    exact ⟨hshape,fun x => (hx x _).trans (hs.solutions x)⟩

end Affine
end DvSolve
