import DvSolve.AffineForm
import DvSolve.AigBuild

/-! Soundness of the affine decision procedure.
The rows kept are equations that every valuation meeting the assertions satisfies, so
a contradiction among them refutes the assertions; a model is returned only after its
gates were evaluated and every assertion was found true. -/
namespace DvSolve
namespace Affine

open Loop
open Function (update update_of_ne)
open Option (bind_some)

variable {g : Gauss} {f : Form} {c : Context} {v nv : ℕ → Bool} {asserts : List ℤ} {m : Aig}

structure Gauss.Holds (x : ℕ → Bool) (n : ℕ) (g : Gauss) : Prop where
  width : 64 * g.W = n
  rows : ∀ row ∈ g.rows, Gf2.dot x row.bits n = row.rhs

variable {x : ℕ → Bool} {n : ℕ}

theorem Gauss.Holds.row (hg : g.Holds x n) (r : ℕ) :
    Gf2.dot x (g.row r).bits n = (g.row r).rhs := by
  unfold Gauss.row
  rw [List.getD_eq_getElem?_getD]
  cases h : g.rows[r]? with
  | none => simp
  | some row => exact hg.rows row (List.mem_of_getElem? h)

/-- A reduction of `f`: the system and the value of the form are kept. -/
def Reduced (x : ℕ → Bool) (n : ℕ) (f : Form) (s : Gauss × Form) : Prop :=
  s.1.Holds x n ∧ formVal x n s.2 = formVal x n f

theorem reduceBit_ok {s : Gauss × Form} (hs : Reduced x n f s) (k : ℕ) :
    Reduced x n f (reduceBit k s) := by
  obtain ⟨hg,hf⟩ := hs
  refine ⟨⟨hg.width,hg.rows⟩,?_⟩
  rw [← hf]
  unfold reduceBit formVal
  dsimp only
  rw [Gf2.dot_xor,hg.row]
  generalize Gf2.dot x s.2.1 n = p
  generalize (s.1.row (s.1.prow k)).rhs = q
  cases p <;> cases q <;> simp

theorem reduceWord_ok {s : Gauss × Form} (hs : Reduced x n f s) (w : ℕ) :
    Reduced x n f (reduceWord s w) := by
  unfold reduceWord
  refine List.foldlRecOn (motive := Reduced x n f) _ _ hs fun s hs k _ => ?_
  split_ifs
  · exact reduceBit_ok hs k
  · exact hs

theorem reduce_ok (hg : g.Holds x n) (f : Form) : Reduced x n f (reduce g f) :=
  List.foldlRecOn (motive := Reduced x n f) _ _ ⟨hg,rfl⟩ fun _ hs w _ => reduceWord_ok hs w

theorem eliminate_ok (hf : Gf2.dot x f.1 n = f.2) (k : ℕ) {row : Row}
    (hr : Gf2.dot x row.bits n = row.rhs) :
    Gf2.dot x (eliminate k f row).bits n = (eliminate k f row).rhs := by
  unfold eliminate
  split_ifs
  · dsimp only
    rw [Gf2.dot_xor,hf,hr]
  · exact hr

theorem lowestColumn_none {W bits : ℕ} (h : lowestColumn W bits = none) :
    Gf2.dot x bits (64*W) = false := by
  have hbits : ∀ k < 64*W, bits.testBit k = false := by
    intro k hk
    simpa using List.find?_eq_none.mp h k (List.mem_range.mpr hk)
  exact Gf2.dot_of_low x hbits

/-- An equation that holds is consistent with a system that holds, and joins it. -/
theorem addEq_ok (hg : g.Holds x n) (hf : formVal x n f = false) :
    (addEq g f).1 = true ∧ (addEq g f).2.Holds x n := by
  obtain ⟨hg',hf'⟩ := reduce_ok hg f
  rw [hf] at hf'
  unfold addEq
  generalize reduce g f = s at hg' hf'
  obtain ⟨g',f'⟩ := s
  have hdot : Gf2.dot x f'.1 n = f'.2 := by simpa [formVal] using hf'
  dsimp only at hg' ⊢
  cases hlow : lowestColumn g'.W f'.1 with
  | none =>
    have hzero := lowestColumn_none (x := x) hlow
    rw [hg'.width,hdot] at hzero
    exact ⟨by simp [hzero],hg'⟩
  | some k =>
    refine ⟨rfl,hg'.width,fun row hr => ?_⟩
    rcases List.mem_append.mp hr with hr | hr
    · obtain ⟨row,hrow,rfl⟩ := List.mem_map.mp hr
      exact eliminate_ok hdot k (hg'.rows row hrow)
    · obtain rfl : row = ⟨f'.1,f'.2,k⟩ := by simpa using hr
      exact hdot

def Reads (c : Context) (x : ℕ → Bool) (n : ℕ) (v : ℕ → Bool) (lits : List ℤ) : Prop :=
  ∀ l ∈ lits, formVal x n (c.litForm l) = litVal v l

theorem litValue_ok {lit : ℤ} (hc : formVal x n (c.litForm lit) = litVal v lit) (hg : g.Holds x n) :
    (litValue c g lit).2.Holds x n ∧ ∀ b, (litValue c g lit).1 = some b → litVal v lit = b := by
  obtain ⟨hg',hf⟩ := reduce_ok hg (c.litForm lit)
  refine ⟨hg',fun b hb => ?_⟩
  unfold litValue at hb
  dsimp only at hb
  by_cases h0 : (reduce g (c.litForm lit)).2.1 = 0
  · rw [if_pos h0] at hb
    obtain rfl : (reduce g (c.litForm lit)).2.2 = b := by simpa using hb
    rw [← hc,← hf,formVal,h0,Gf2.dot_zero,Bool.false_xor]
  · rw [if_neg h0] at hb
    simp at hb

/-- How a pass may end when the system and what it adds hold. -/
def Elim.Ok (x : ℕ → Bool) (n : ℕ) : Elim → Prop
  | .contradiction _ => False
  | .tooLarge _ => True
  | .ok g => g.Holds x n

theorem addEqs_ok (maxWork : ℕ) (eqs : List ℤ) (hc : Reads c x n v eqs)
    (he : ∀ l ∈ eqs, litVal v l = true) (hg : g.Holds x n) : (addEqs c maxWork eqs g).Ok x n := by
  induction eqs generalizing g with
  | nil => exact hg
  | cons lit eqs ih =>
    have hlit : formVal x n ((c.litForm lit).1,true ^^ (c.litForm lit).2) = false := by
      have h := (hc lit (by simp)).trans (he lit (by simp))
      unfold formVal at h ⊢
      rw [Bool.xor_left_comm,h]
      rfl
    obtain ⟨hok,hg'⟩ := addEq_ok hg hlit
    unfold addEqs
    dsimp only
    rw [hok,if_neg (by simp)]
    split_ifs
    · trivial
    · exact ih (fun l hl => hc l (by simp [hl])) (fun l hl => he l (by simp [hl])) hg'

theorem allFalse_ok (lits : List ℤ) (hc : Reads c x n v lits) (hg : g.Holds x n) :
    (allFalse c lits g).2.Holds x n ∧
      ((allFalse c lits g).1 = true → ∀ l ∈ lits, litVal v l = false) := by
  induction lits generalizing g with
  | nil => exact ⟨hg,by simp⟩
  | cons lit lits ih =>
    obtain ⟨hg',hval⟩ := litValue_ok (hc lit (by simp)) hg
    unfold allFalse
    dsimp only
    by_cases h : (litValue c g lit).1 = some false
    · rw [if_pos h]
      obtain ⟨hg'',hall⟩ := ih (fun l hl => hc l (by simp [hl])) hg'
      refine ⟨hg'',fun ht l hl => ?_⟩
      rcases List.mem_cons.mp hl with rfl | hl
      · exact hval _ h
      · exact hall ht l hl
    · rw [if_neg h]
      exact ⟨hg',by simp⟩

theorem checkClauses_ok (maxWork : ℕ) (clauses : List (List ℤ)) (hc : Reads c x n v clauses.flatten)
    (ht : ∀ d ∈ clauses, ∃ l ∈ d, litVal v l = true) (hg : g.Holds x n) :
    (checkClauses c maxWork clauses g).Ok x n := by
  induction clauses generalizing g with
  | nil => exact hg
  | cons d clauses ih =>
    obtain ⟨hg',hall⟩ := allFalse_ok d (fun l hl => hc l (by simp [hl])) hg
    have hbad : (allFalse c d g).1 = false := by
      by_contra h
      obtain ⟨l,hl,hlt⟩ := ht d (by simp)
      simp [hall (by simpa using h) l hl] at hlt
    unfold checkClauses
    dsimp only
    rw [hbad,if_neg (by simp)]
    split_ifs
    · trivial
    · exact ih (fun l hl => hc l (by
        rw [List.flatten_cons]
        exact List.mem_append_right _ hl)) (fun d hd => ht d (by simp [hd])) hg'

theorem evalGates_consistent {a : Gates} (ha : a.Ok) (h1 : nv 1 = true) :
    Consistent a.L a.R (evalGates a nv) := by
  have hstep : ∀ m, (∀ v, v = (List.range' 2 m).foldl (fun nv id =>
      if a.L id = 0 then nv
      else update nv id (litVal nv (a.L id) && litVal nv (a.R id))) nv →
      v 1 = true ∧ ∀ id < 2+m, a.L id ≠ 0 → v id = (litVal v (a.L id) && litVal v (a.R id))) := by
    intro m
    induction m with
    | zero =>
      rintro v rfl
      refine ⟨h1,fun id hid hL => ?_⟩
      have := (ha.range id hL).1
      omega
    | succ m ih =>
      rintro v hv
      obtain ⟨hu1,hu⟩ := ih _ rfl
      rw [List.range'_concat,List.foldl_append,List.foldl_cons,List.foldl_nil,Nat.one_mul] at hv
      generalize (List.range' 2 m).foldl (fun nv id =>
        if a.L id = 0 then nv
        else update nv id (litVal nv (a.L id) && litVal nv (a.R id))) nv = u
        at hv hu1 hu
      by_cases hL : a.L (2+m) = 0
      · rw [if_pos hL] at hv
        subst hv
        refine ⟨hu1,fun id hid hid0 => hu id ?_ hid0⟩
        rcases Nat.lt_succ_iff_lt_or_eq.mp hid with h | h
        · exact h
        · exact absurd (h ▸ hL) hid0
      · rw [if_neg hL] at hv
        -- the update leaves the children of every gate up to this one alone
        have hkeep : ∀ lit, idOf lit < 2+m → litVal v lit = litVal u lit := by
          intro lit hlit
          rw [litVal,litVal,hv,update_of_ne (by omega)]
        refine ⟨by rw [hv,update_of_ne (by omega)]; exact hu1,fun id hid hid0 => ?_⟩
        obtain ⟨_,hl,_,hr⟩ := ha.children id hid0
        rw [hkeep _ (by omega),hkeep _ (by omega),hv]
        by_cases heq : id = 2+m
        · subst heq
          rw [Function.update_self]
        · rw [update_of_ne heq]
          exact hu id (by omega) hid0
  obtain ⟨hv1,hv⟩ := hstep (a.N-1) _ rfl
  refine ⟨hv1,fun id hid => hv id ?_ hid⟩
  have := ha.range id hid
  omega

theorem setPivots_one (hone : 1 ∉ c.colNode) (g : Gauss) (fv : ℕ) (h1 : nv 1 = true) :
    setPivots c g fv nv 1 = true := by
  unfold setPivots
  refine List.foldlRecOn (motive := fun nv : ℕ → Bool => nv 1 = true) _ _ h1 fun nv h row _ => ?_
  split_ifs
  · exact h
  · have hne : 1 ≠ c.colNode.getD row.pcol 0 := by
      rw [List.getD_eq_getElem?_getD]
      cases hk : c.colNode[row.pcol]? with
      | none => simp
      | some id => exact fun he => hone (by simpa [he] using List.mem_of_getElem? hk)
    rw [update_of_ne hne]
    exact h

theorem drawInputs_one (c : Context) (g : Gauss) (ks : List ℕ) (rs : UInt64)
    {s : (ℕ → Bool) × ℕ} (h1 : s.1 1 = true) : (drawInputs c g ks rs s).1 1 = true := by
  induction ks generalizing rs s with
  | nil => exact h1
  | cons k ks ih =>
    unfold drawInputs
    dsimp only
    split_ifs
    · exact ih rs h1
    · refine ih _ ?_
      change update s.1 (c.colNode.getD k 0) true 1 = true
      by_cases h : 1 = c.colNode.getD k 0
      · rw [← h,Function.update_self]
      · rw [update_of_ne h]
        exact h1
    · exact ih _ h1

theorem modelPasses_consistent (ha : c.gates.Ok) (hone : 1 ∉ c.colNode) (g : Gauss) (own : Bool)
    (passes fv : ℕ) (h1 : nv 1 = true) (h : passes = 0 → Consistent c.gates.L c.gates.R nv) :
    Consistent c.gates.L c.gates.R (modelPasses c g own passes fv nv) := by
  induction passes generalizing fv nv with
  | zero => exact h rfl
  | succ passes ih =>
    have hcon := evalGates_consistent ha (setPivots_one hone g fv h1)
    unfold modelPasses
    dsimp only
    split_ifs
    all_goals first
      | exact hcon
      | exact ih _ hcon.true_one fun _ => hcon

theorem model_ok (ha : c.gates.Ok) (hone : 1 ∉ c.colNode) {seed : UInt64} {repivotOff : Bool}
    (h : model c g seed repivotOff asserts = some nv) :
    Consistent c.gates.L c.gates.R nv ∧ ∀ l ∈ asserts, litVal nv l = true := by
  unfold model at h
  simp only [Option.ite_none_right_eq_some,Option.some.injEq] at h
  obtain ⟨hall,rfl⟩ := h
  refine ⟨modelPasses_consistent ha hone _ _ 16 _ ?_ (by simp),by simpa using hall⟩
  split_ifs
  all_goals first
    | exact drawInputs_one _ _ _ _ (by simp)
    | simp

structure Result.Ok (L R : ℕ → ℤ) (asserts : List ℤ) (r : Result) : Prop where
  unsat : r.verdict = .unsat → ∀ v, Consistent L R v → ¬∀ l ∈ asserts, litVal v l = true
  sat : r.verdict = .sat → ∃ nv, r.model = some nv ∧ Consistent L R nv ∧ ∀ l ∈ asserts, litVal nv l = true

theorem Result.Ok.undecided (L R : ℕ → ℤ) (asserts : List ℤ) (st : Stats) (why : String) :
    (Result.undecided st why).Ok L R asserts :=
  ⟨by simp [Result.undecided],by simp [Result.undecided]⟩

theorem settleAndModel_ok (ha : c.gates.Ok) (hone : 1 ∉ c.colNode) (g : Gauss)
    (clauses : List (List ℤ)) (seed : UInt64) (repivotOff : Bool) (asserts : List ℤ) (st : Stats) :
    (settleAndModel c g clauses seed repivotOff asserts st).Ok
      c.gates.L c.gates.R asserts := by
  unfold settleAndModel
  dsimp only
  by_cases hs : (!(settle c 0 clauses 0 g).1) = true
  · rw [if_pos hs]
    exact .undecided _ _ _ _ _
  rw [if_neg hs]
  cases hm : model c (settle c 0 clauses 0 g).2 0 repivotOff asserts with
  | none => exact .undecided _ _ _ _ _
  | some nv =>
    refine ⟨by simp,fun _ => ⟨_,rfl,?_⟩⟩
    split_ifs
    · exact model_ok ha hone hm
    cases hm' : model c (resettle c g (settle c 0 clauses 0 g).2 clauses seed) seed repivotOff
        asserts with
    | none => exact model_ok ha hone hm
    | some nv' => exact model_ok ha hone hm'

theorem solve_ok (ha : c.gates.Ok) (hone : 1 ∉ c.colNode) {eqs : List ℤ} {clauses : List (List ℤ)}
    (hent : ∀ v, Consistent c.gates.L c.gates.R v → (∀ l ∈ asserts, litVal v l = true) →
      Reads c (colVal c.colNode v) (64*c.W) v (eqs ++ clauses.flatten) ∧
        (∀ l ∈ eqs, litVal v l = true) ∧ ∀ d ∈ clauses, ∃ l ∈ d, litVal v l = true)
    (work maxWork : ℕ) (seed : UInt64) (repivotOff : Bool) (st : Stats) :
    (solve c eqs clauses work maxWork seed repivotOff asserts st).Ok c.gates.L c.gates.R
      asserts := by
  have heqs : ∀ v, Consistent c.gates.L c.gates.R v → (∀ l ∈ asserts, litVal v l = true) →
      (addEqs c maxWork eqs ⟨c.W,[],fun _ => 0,0,work⟩).Ok (colVal c.colNode v) (64*c.W) := by
    intro v hv hall
    obtain ⟨hr,he,_⟩ := hent v hv hall
    exact addEqs_ok maxWork eqs (fun l hl => hr l (by simp [hl])) he ⟨rfl,by simp⟩
  unfold solve
  cases h1 : addEqs c maxWork eqs ⟨c.W,[],fun _ => 0,0,work⟩ with
  | contradiction g =>
    refine ⟨fun _ v hv hall => ?_,by simp [Result.unsat]⟩
    have := heqs v hv hall
    rwa [h1] at this
  | tooLarge g => exact .undecided _ _ _ _ _
  | ok g =>
    dsimp only
    cases h2 : checkClauses c maxWork clauses g with
    | contradiction g' =>
      refine ⟨fun _ v hv hall => ?_,by simp [Result.unsat]⟩
      have hg := heqs v hv hall
      rw [h1] at hg
      obtain ⟨hr,_,ht⟩ := hent v hv hall
      have := checkClauses_ok maxWork clauses (fun l hl => hr l (by simp [hl])) ht hg
      rwa [h2] at this
    | tooLarge g' => exact .undecided _ _ _ _ _
    | ok g' => exact settleAndModel_ok ha hone _ _ _ _ _ _

theorem classify_ok (hm : m.Wf) (hl : ∀ l ∈ asserts, m.Valid l) (tables : Bool) :
    ∃ r, classify m asserts tables = some r ∧ r.1.Ok ∧ r.1 = { loadGates m with sm := r.1.sm } := by
  unfold classify
  cases tables with
  | false => exact ⟨_,rfl,loadGates_ok hm,rfl⟩
  | true => exact findTables_ok (loadGates_ok hm) fun l h => (hl l h).2

theorem check_ok (hm : m.Wf) (hl : ∀ l ∈ asserts, m.Valid l) (maxWork : ℕ) (tables : Bool)
    (seed : UInt64) (repivotOff : Bool) :
    ∃ r, check m asserts maxWork tables seed repivotOff = some r ∧
      r.Ok (loadGates m).L (loadGates m).R asserts := by
  unfold check
  by_cases hempty : m.nodes.size = 0 ∨ m.nodes.size > 0x3FFFFFF0 ∨ asserts.isEmpty = true
  · rw [if_pos hempty]
    exact ⟨_,rfl,.undecided _ _ _ _ _⟩
  rw [if_neg hempty]
  generalize (if maxWork ≠ 0 then maxWork else 40000000) = budget
  obtain ⟨⟨a,nSmall⟩,hclass,ha,heq⟩ := classify_ok hm hl tables
  dsimp only at ha heq
  have hL : a.L = (loadGates m).L := by rw [heq]
  have hR : a.R = (loadGates m).R := by rw [heq]
  have hN : a.N = m.nodes.size := by rw [heq]; rfl
  have hin : ∀ l ∈ asserts, LitIn a l := fun l h => ⟨(hl l h).1,by rw [hN]; exact (hl l h).2⟩
  obtain ⟨sc,hscan,hsc⟩ := scanAsserts_ok ha (s := ⟨∅,[],[]⟩) asserts
    ⟨by simp,by simp,by simp⟩ fun l h => ⟨hin l h,fun v _ hall => hall l h⟩
  rw [hclass,← hL,← hR]
  simp only [Option.bind_eq_bind,bind_some]
  rw [hscan]
  simp only [bind_some]
  cases sc with
  | falseAssertion => exact ⟨_,rfl,fun _ => hsc,by simp [Result.unsat]⟩
  | tooLarge => exact ⟨_,rfl,.undecided _ _ _ _ _⟩
  | found c =>
    have hlits : ∀ l ∈ c.eqs ++ c.clauseLits, LitIn a l := by
      intro l hl
      rcases List.mem_append.mp hl with h | h
      · exact (hsc.eqs l h).1
      · obtain ⟨d,hd,hld⟩ := List.mem_flatten.mp h
        exact (hsc.clauses d hd).1 l hld
    obtain ⟨r,hr,hdone⟩ := findRegion_ok ha _ (regionOk_start a) rfl hlits
    dsimp only
    rw [hr]
    simp only [bind_some]
    by_cases hnone : r.order.isEmpty = true
    · rw [if_pos hnone]
      exact ⟨_,rfl,.undecided _ _ _ _ _⟩
    rw [if_neg hnone]
    generalize hW : (if (r.colNode.length + 63) / 64 = 0 then 1
      else (r.colNode.length + 63) / 64) = W
    have hcols : r.colNode.length ≤ 64*W := by
      rw [← hW]
      split_ifs <;> omega
    by_cases hlarge : r.order.length * W > budget
    · rw [if_pos hlarge]
      exact ⟨_,rfl,.undecided _ _ _ _ _⟩
    rw [if_neg hlarge]
    refine ⟨_,rfl,solve_ok (c := ⟨a,r.col,r.colNode,buildForms a r,W⟩) ha hdone.one
      (fun v hv hall => ⟨fun l hl => ?_,fun l hl => (hsc.eqs l hl).2 v hv hall,
        fun d hd => (hsc.clauses d hd).2 v hv hall⟩) _ _ _ _ _⟩
    have hforms := buildForms_val ha hv hdone.col hcols hdone.ordered
    have hready := hdone.ready (idOf l) (by
      rw [List.append_nil]
      exact List.mem_map_of_mem hl)
    have hval := addLit_val hv hdone.col hcols hforms hready (0,false)
    simpa [formVal,Context.litForm,buildForms] using hval

theorem evalNode_consistent (hm : m.Wf) (ρ : ℕ → Bool) :
    Consistent (loadGates m).L (loadGates m).R (m.evalNode ρ) := by
  refine ⟨by simp [Aig.evalNode],fun id hid => ?_⟩
  by_cases hc : 2 ≤ id ∧ id ≤ m.nodes.size ∧ m.isAndId id = true
  · have h := hm.evalLit_and ρ hc.2.2
    have hneg : ¬((id : ℤ) < 0) := by omega
    simp only [loadGates,if_pos hc]
    simpa [Aig.evalLit,hneg,litVal,idOf] using h
  · simp only [loadGates,if_neg hc] at hid
    exact absurd rfl hid

theorem Consistent.isAnd (hv : Consistent (loadGates m).L (loadGates m).R nv) {id : ℕ}
    (h : m.isAndId id = true) :
    nv id = (litVal nv (m.childrenOf id).1 && litVal nv (m.childrenOf id).2) := by
  obtain ⟨h1,h2,hne⟩ := Aig.isAndId_iff.mp h
  have hc : 2 ≤ id ∧ id ≤ m.nodes.size ∧ m.isAndId id = true := ⟨h1,h2,h⟩
  have hg := hv.gate id (by simpa only [loadGates,if_pos hc] using hne)
  simpa only [loadGates,if_pos hc] using hg

/-- What the verdict of a check says of the arena. -/
structure Result.Sound (m : Aig) (asserts : List ℤ) (r : Result) : Prop where
  unsat : r.verdict = .unsat → ¬∃ ρ, ∀ l ∈ asserts, m.evalLit ρ l = true
  sat : r.verdict = .sat → ∃ nv, r.model = some nv ∧ nv 1 = true ∧ (∀ id : ℕ, m.isAndId id = true →
      nv id = (litVal nv (m.childrenOf id).1 && litVal nv (m.childrenOf id).2)) ∧
    ∀ l ∈ asserts, litVal nv l = true

theorem Result.Ok.sound (hm : m.Wf) {r : Result} (h : r.Ok (loadGates m).L (loadGates m).R asserts) :
    r.Sound m asserts := by
  constructor
  · rintro hu ⟨ρ,hρ⟩
    exact h.unsat hu _ (evalNode_consistent hm ρ) hρ
  · intro hs
    obtain ⟨nv,hnv,hcon,hall⟩ := h.sat hs
    exact ⟨nv,hnv,hcon.true_one,fun id hid => hcon.isAnd hid,hall⟩

/-- The verdict of the check is right, and so is that of each of its two passes. -/
theorem affineCheck_sound {m : Aig} (hm : m.Wf) {asserts : List ℤ}
    (hl : ∀ l ∈ asserts, m.Valid l) (maxWork : ℕ) (seed : UInt64) (repivotOff : Bool) :
    (∃ r, affineCheck m asserts maxWork seed repivotOff = some r ∧ r.Sound m asserts) ∧
      ∀ tables, ∃ r, check m asserts maxWork tables seed repivotOff = some r ∧ r.Sound m asserts := by
  have hcheck : ∀ tables, ∃ r, check m asserts maxWork tables seed repivotOff = some r ∧
      r.Sound m asserts := by
    intro tables
    obtain ⟨r,hr,hok⟩ := check_ok hm hl maxWork tables seed repivotOff
    exact ⟨r,hr,hok.sound hm⟩
  refine ⟨?_,hcheck⟩
  obtain ⟨r,hr,hok⟩ := hcheck false
  unfold affineCheck
  rw [hr]
  simp only [Option.bind_eq_bind,bind_some]
  split_ifs
  · exact ⟨r,rfl,hok⟩
  · exact hcheck true

theorem affineCheck_sound_parity :
    let inputs := (Aig.Call.mkInput.run (Aig.Call.mkInput.run (Aig.Call.mkInput.run Aig.new).2).2).2
    let m := ((Aig.Call.mkXor 2 4).run ((Aig.Call.mkXor 3 4).run
      ((Aig.Call.mkXor 2 3).run inputs).2).2).2
    ((affineCheck m [-7,-10,-13] 0 0 false).map Result.verdict = some .unsat ∧
      ¬∃ ρ, ∀ l ∈ [(-7 : ℤ),-10,-13], m.evalLit ρ l = true) ∧
    ∃ nv, (affineCheck m [-7,-10] 0 0 false).map (fun r => (r.verdict,r.model)) =
        some (.sat,some nv) ∧ ∀ l ∈ [(-7 : ℤ),-10], litVal nv l = true := by
  intro inputs m
  have hunsat : (affineCheck m [-7,-10,-13] 0 0 false).map Result.verdict = some .unsat := by
    decide +kernel
  have hsat : (affineCheck m [-7,-10] 0 0 false).map Result.verdict = some .sat := by
    decide +kernel
  have hm : m.Wf := ((((((Aig.Reachable.new.call .mkInput (by decide)).call .mkInput
    (by decide)).call .mkInput (by decide)).call (.mkXor 2 3) (by decide)).call (.mkXor 3 4)
    (by decide +kernel)).call (.mkXor 2 4) (by decide +kernel)).wf
  obtain ⟨r,hr,hok⟩ := (affineCheck_sound hm (by decide +kernel : ∀ l ∈ [-7,-10,-13], m.Valid l)
    0 0 false).1
  obtain ⟨r',hr',hok'⟩ := (affineCheck_sound hm (by decide +kernel : ∀ l ∈ [-7,-10], m.Valid l)
    0 0 false).1
  rw [hr] at hunsat
  rw [hr'] at hsat
  have hverdict : r'.verdict = .sat := by simpa using hsat
  obtain ⟨nv,hnv,_,_,hall⟩ := hok'.sat hverdict
  refine ⟨⟨by rw [hr]; exact hunsat,hok.unsat (by simpa using hunsat)⟩,nv,?_,hall⟩
  simp [hr',hverdict,hnv]

end Affine
end DvSolve
