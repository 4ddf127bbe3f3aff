import DvSolve.AffineTable

/-! Soundness of the scan of the assertions.
Wherever the gates are respected and every assertion is true, every equation holds
and every clause has a true literal. -/
namespace DvSolve
namespace Affine

open Loop

variable {a : Gates} {v : ℕ → Bool}

def LitIn (a : Gates) (lit : ℤ) : Prop := lit ≠ 0 ∧ idOf lit ≤ a.N

theorem LitIn.neg {lit : ℤ} (h : LitIn a lit) : LitIn a (-lit) :=
  ⟨neg_ne_zero.mpr h.1,by simpa [idOf] using h.2⟩

theorem Gates.Ok.litIn (ha : a.Ok) {id : ℕ} (h : a.L id ≠ 0) :
    LitIn a (a.L id) ∧ LitIn a (a.R id) := by
  obtain ⟨_,hl,_,hr⟩ := ha.children id h
  have hid := ha.range id h
  unfold LitIn idOf at *
  omega

theorem litVal_true {L R : ℕ → ℤ} (hv : Consistent L R v) :
    litVal v aigTrue = true := by
  simpa [litVal,idOf,aigTrue] using hv.true_one

theorem litVal_false {L R : ℕ → ℤ} (hv : Consistent L R v) :
    litVal v aigFalse = false := by
  simpa [litVal,idOf,aigFalse] using hv.true_one

theorem litVal_pos (v : ℕ → Bool) {lit : ℤ} (h : 0 < lit) : litVal v lit = v (idOf lit) := by
  rw [litVal,decide_eq_false (by omega),Bool.xor_false]

@[simp] theorem litVal_natCast (v : ℕ → Bool) (id : ℕ) : litVal v id = v id := by
  rw [litVal,decide_eq_false (by omega),Bool.xor_false]
  rfl

def Met (s : ClauseScan) (c : ℤ) : Prop :=
  c = aigTrue ∨ -c ∈ s.lits ∨ c ∈ s.stack ∨ (0 < c ∧ idOf c ∈ s.marked)

theorem Met.mono {s s' : ClauseScan} {c d : ℤ} {stack : List ℤ} (h : Met s c)
    (hs : s.stack = d :: stack) (hd : Met s' d) (hlits : ∀ l ∈ s.lits, l ∈ s'.lits)
    (hstack : ∀ l ∈ stack, l ∈ s'.stack) (hmarked : s.marked ⊆ s'.marked) : Met s' c := by
  rcases h with h | h | h | h
  · exact .inl h
  · exact .inr (.inl (hlits _ h))
  · rw [hs] at h
    rcases List.mem_cons.mp h with rfl | h
    · exact hd
    · exact .inr (.inr (.inl (hstack _ h)))
  · exact .inr (.inr (.inr ⟨h.1,hmarked h.2⟩))

/-- Invariant of the scan of the tree below `id`. -/
structure ClauseOk (a : Gates) (id : ℕ) (s : ClauseScan) : Prop where
  root : Met s id
  gate : ∀ g ∈ s.marked, a.L g ≠ 0 ∧ Met s (a.L g) ∧ Met s (a.R g)
  stack : ∀ c ∈ s.stack, LitIn a c
  lits : ∀ c ∈ s.lits, LitIn a c

/-- Every gate expanded is true when every literal found is false. -/
theorem ClauseOk.sound (ha : a.Ok) {id : ℕ} {s : ClauseScan} (hs : ClauseOk a id s)
    (hend : s.stack = []) (hv : Consistent a.L a.R v) (hl : ∀ c ∈ s.lits, litVal v c = false)
    (hid : id ≠ 0) : v id = true := by
  have hmet : ∀ c, Met s c → c ≠ 0 → (0 < c → idOf c ∈ s.marked → v (idOf c) = true) →
      litVal v c = true := by
    intro c h hc hgate
    rcases h with rfl | h | h | h
    · exact litVal_true hv
    · have := hl _ h
      rw [litVal_neg v hc] at this
      simpa using this
    · simp [hend] at h
    · rw [litVal_pos v h.1]
      exact hgate h.1 h.2
  have hmarked : ∀ g, g ∈ s.marked → v g = true := by
    intro g
    induction g using Nat.strong_induction_on with
    | _ g ih =>
      intro hg
      obtain ⟨hL,h1,h2⟩ := hs.gate g hg
      obtain ⟨hl,hll,hr,hrr⟩ := ha.children g hL
      have hin := ha.litIn hL
      have e1 := hmet _ h1 hin.1.1 fun _ h => ih _ hll h
      have e2 := hmet _ h2 hin.2.1 fun _ h => ih _ hrr h
      rw [hv.gate g hL,e1,e2]
      rfl
  have := hmet id hs.root (by exact_mod_cast hid) fun _ h => hmarked _ h
  rwa [litVal_natCast] at this

theorem clauseRound_good (ha : a.Ok) (limit id : ℕ) (hid : id ≠ 0) (s : ClauseScan)
    (hs : ClauseOk a id s) :
    (clauseRound a limit s).Good (ClauseOk a id)
      (fun r => ∀ lits, r = some lits → (∀ l ∈ lits, LitIn a l) ∧
        ∀ v, Consistent a.L a.R v → v id = false → ∃ l ∈ lits, litVal v l = true)
      (fun s => searchVariant 2 (Finset.range (a.N+1)) s.marked s.stack.length) s := by
  unfold clauseRound
  cases hst : s.stack with
  | nil =>
    intro lits h
    obtain rfl : s.lits = lits := by simpa using h
    refine ⟨hs.lits,fun v hv hf => ?_⟩
    by_contra hno
    push Not at hno
    have := hs.sound ha hst hv (fun c hc => by simpa using hno c hc) hid
    simp [hf] at this
  | cons c stack =>
    dsimp only
    have hc : LitIn a c := hs.stack c (by simp [hst])
    have hrest : ∀ d ∈ stack, LitIn a d := fun d hd => hs.stack d (by simp [hst,hd])
    by_cases hgate : c > 0 ∧ a.L (idOf c) ≠ 0 ∧ (!gateAffine a (idOf c)) = true
    · rw [if_pos hgate]
      by_cases hm : idOf c ∈ s.marked
      · rw [if_pos hm]
        have hkeep : ∀ d, Met s d → Met { s with stack := stack } d := fun d h =>
          h.mono hst (.inr (.inr (.inr ⟨hgate.1,hm⟩))) (fun _ h => h) (fun _ h => h) (le_refl _)
        refine ⟨⟨hkeep _ hs.root,fun g hg => ?_,hrest,hs.lits⟩,?_⟩
        · obtain ⟨hL,h1,h2⟩ := hs.gate g hg
          exact ⟨hL,hkeep _ h1,hkeep _ h2⟩
        · exact searchVariant_mono 2 (le_refl _) (by simp [hst])
      · rw [if_neg hm]
        let s' : ClauseScan :=
          ⟨a.R (idOf c) :: a.L (idOf c) :: stack,insert (idOf c) s.marked,s.lits⟩
        have hkeep : ∀ d, Met s d → Met s' d := fun d h =>
          h.mono hst (.inr (.inr (.inr ⟨hgate.1,Finset.mem_insert_self _ _⟩)))
            (fun _ h => h) (fun _ h => by simp [s',h]) (Finset.subset_insert _ _)
        have hin := ha.litIn hgate.2.1
        refine ⟨⟨hkeep _ hs.root,fun g hg => ?_,fun d hd => ?_,hs.lits⟩,?_⟩
        · rcases Finset.mem_insert.mp hg with rfl | hg
          · exact ⟨hgate.2.1,.inr (.inr (.inl (by simp))),.inr (.inr (.inl (by simp)))⟩
          · obtain ⟨hL,h1,h2⟩ := hs.gate g hg
            exact ⟨hL,hkeep _ h1,hkeep _ h2⟩
        · rcases List.mem_cons.mp hd with rfl | hd
          · exact hin.2
          · rcases List.mem_cons.mp hd with rfl | hd
            · exact hin.1
            · exact hrest d hd
        · refine searchVariant_visit 2 (Finset.mem_range.mpr ?_) hm (by simp [hst])
          exact Nat.lt_succ_of_le hc.2
    · rw [if_neg hgate]
      by_cases htrue : c ≠ aigTrue
      · rw [if_pos htrue]
        by_cases hlim : s.lits.length ≥ limit
        · rw [if_pos hlim]
          intro lits h
          simp at h
        · rw [if_neg hlim]
          have hkeep : ∀ d, Met s d → Met { s with stack := stack, lits := s.lits ++ [-c] } d :=
            fun d h => h.mono hst (.inr (.inl (by simp))) (fun _ h => by simp [h])
              (fun _ h => h) (le_refl _)
          refine ⟨⟨hkeep _ hs.root,fun g hg => ?_,hrest,fun d hd => ?_⟩,?_⟩
          · obtain ⟨hL,h1,h2⟩ := hs.gate g hg
            exact ⟨hL,hkeep _ h1,hkeep _ h2⟩
          · rcases List.mem_append.mp hd with hd | hd
            · exact hs.lits d hd
            · obtain rfl : d = -c := by simpa using hd
              exact hc.neg
          · exact searchVariant_mono 2 (le_refl _) (by simp [hst])
      · rw [if_neg htrue]
        push Not at htrue
        have hkeep : ∀ d, Met s d → Met { s with stack := stack } d := fun d h =>
          h.mono hst (.inl htrue) (fun _ h => h) (fun _ h => h) (le_refl _)
        refine ⟨⟨hkeep _ hs.root,fun g hg => ?_,hrest,hs.lits⟩,?_⟩
        · obtain ⟨hL,h1,h2⟩ := hs.gate g hg
          exact ⟨hL,hkeep _ h1,hkeep _ h2⟩
        · exact searchVariant_mono 2 (le_refl _) (by simp [hst])

theorem scanClause_ok (ha : a.Ok) (limit : ℕ) {id : ℕ} (hid : id ≠ 0) (hN : id ≤ a.N) :
    ∃ r, scanClause a limit id = some r ∧ ∀ lits, r = some lits → (∀ l ∈ lits, LitIn a l) ∧
        ∀ v, Consistent a.L a.R v → v id = false → ∃ l ∈ lits, litVal v l = true := by
  refine loop_spec _ (clauseRound_good ha limit id hid) _ _ ⟨.inr (.inr (.inl (by simp))),
    by simp,fun c hc => ?_,by simp⟩ ?_
  · obtain rfl : c = id := by simpa using hc
    exact ⟨by exact_mod_cast hid,by simpa [idOf] using hN⟩
  · simp only [searchVariant,Finset.sdiff_empty,Finset.card_range,List.length_singleton]
    omega

/-- The assertions make `lit` true. -/
def Entailed (a : Gates) (asserts : List ℤ) (lit : ℤ) : Prop :=
  LitIn a lit ∧ ∀ v, Consistent a.L a.R v → (∀ l ∈ asserts, litVal v l = true) → litVal v lit = true

def EntailedClause (a : Gates) (asserts : List ℤ) (c : List ℤ) : Prop :=
  (∀ l ∈ c, LitIn a l) ∧ ∀ v, Consistent a.L a.R v → (∀ l ∈ asserts, litVal v l = true) →
    ∃ l ∈ c, litVal v l = true

structure ConjOk (a : Gates) (asserts : List ℤ) (s : Conjuncts × List ℤ) : Prop where
  stack : ∀ c ∈ s.2, Entailed a asserts c
  eqs : ∀ c ∈ s.1.eqs, Entailed a asserts c
  clauses : ∀ c ∈ s.1.clauses, EntailedClause a asserts c

def Scan.Ok (a : Gates) (asserts : List ℤ) : Scan → Prop
  | .falseAssertion =>
    ∀ v, Consistent a.L a.R v → ¬∀ l ∈ asserts, litVal v l = true
  | .tooLarge => True
  | .found s => ConjOk a asserts (s,[])

/-- Positive literals of the arena, those a scan expands. -/
noncomputable def positiveLits (a : Gates) : Finset ℤ := Finset.Ioc 0 (a.N : ℤ)

theorem conjRound_good (ha : a.Ok) (asserts : List ℤ) (s : Conjuncts × List ℤ)
    (hs : ConjOk a asserts s) :
    (conjRound a s).Good (ConjOk a asserts) (fun r => ∃ r', r = some r' ∧ r'.Ok a asserts)
      (fun s => searchVariant 2 (positiveLits a) s.1.seen s.2.length) s := by
  obtain ⟨s,conj⟩ := s
  unfold conjRound
  cases conj with
  | nil => exact ⟨_,rfl,hs⟩
  | cons lit conj =>
    dsimp only
    obtain ⟨hlit,hent⟩ := hs.stack lit (by simp)
    have hrest : ∀ c ∈ conj, Entailed a asserts c := fun c hc => hs.stack c (by simp [hc])
    have hdrop : ConjOk a asserts (s,conj) := ⟨hrest,hs.eqs,hs.clauses⟩
    have hsub : s.seen ⊆ insert lit s.seen := Finset.subset_insert _ _
    by_cases h1 : lit = aigTrue
    · rw [if_pos h1]
      exact ⟨hdrop,searchVariant_mono 2 (le_refl _) (by simp)⟩
    rw [if_neg h1]
    by_cases h2 : lit = aigFalse
    · rw [if_pos h2]
      refine ⟨_,rfl,fun v hv hall => ?_⟩
      have := hent v hv hall
      rw [h2,litVal_false hv] at this
      simp at this
    rw [if_neg h2]
    by_cases h3 : lit ∈ s.seen
    · rw [if_pos h3]
      exact ⟨hdrop,searchVariant_mono 2 (le_refl _) (by simp)⟩
    rw [if_neg h3]
    by_cases h4 : a.L (idOf lit) ≠ 0 ∧ (!gateAffine a (idOf lit)) = true ∧ lit > 0
    · rw [if_pos h4]
      have hin := ha.litIn h4.1
      -- a true AND makes both children true
      have hboth : ∀ v, Consistent a.L a.R v → (∀ l ∈ asserts, litVal v l = true) →
          litVal v (a.L (idOf lit)) = true ∧ litVal v (a.R (idOf lit)) = true := by
        intro v hv hall
        have h := hent v hv hall
        rw [litVal_pos v h4.2.2,hv.gate _ h4.1] at h
        simpa using h
      refine ⟨⟨fun c hc => ?_,hs.eqs,hs.clauses⟩,?_⟩
      · rcases List.mem_cons.mp hc with rfl | hc
        · exact ⟨hin.2,fun v hv hall => (hboth v hv hall).2⟩
        · rcases List.mem_cons.mp hc with rfl | hc
          · exact ⟨hin.1,fun v hv hall => (hboth v hv hall).1⟩
          · exact hrest c hc
      · refine searchVariant_visit 2 (Finset.mem_Ioc.mpr ⟨h4.2.2,?_⟩) h3 (by simp)
        have := hlit.2
        unfold idOf at this
        omega
    rw [if_neg h4]
    by_cases h5 : a.L (idOf lit) ≠ 0 ∧ (!gateAffine a (idOf lit)) = true
    · rw [if_pos h5]
      have hneg : lit < 0 := by
        have : ¬lit > 0 := fun h => h4 ⟨h5.1,h5.2,h⟩
        have := hlit.1
        omega
      have hid : idOf lit ≠ 0 := by simpa [idOf] using hlit.1
      obtain ⟨r,hr,hok⟩ :=
        scanClause_ok ha (2 * (a.N+1) - s.clauseLits.length) hid hlit.2
      rw [hr]
      cases r with
      | none => exact ⟨_,rfl,trivial⟩
      | some c =>
        obtain ⟨hcin,hcv⟩ := hok c rfl
        refine ⟨⟨hrest,hs.eqs,fun d hd => ?_⟩,searchVariant_mono 2 hsub (by simp)⟩
        rcases List.mem_append.mp hd with hd | hd
        · exact hs.clauses d hd
        · obtain rfl : d = c := by simpa using hd
          refine ⟨hcin,fun v hv hall => hcv v hv ?_⟩
          have := hent v hv hall
          simpa [litVal,hneg] using this
    rw [if_neg h5]
    refine ⟨⟨hrest,fun c hc => ?_,hs.clauses⟩,searchVariant_mono 2 hsub (by simp)⟩
    rcases List.mem_append.mp hc with hc | hc
    · exact hs.eqs c hc
    · obtain rfl : c = lit := by simpa using hc
      exact ⟨hlit,hent⟩

theorem positiveLits_card (a : Gates) : (positiveLits a).card = a.N := by
  simp [positiveLits]

theorem scanConj_ok (ha : a.Ok) {asserts : List ℤ} {s : Conjuncts} (hs : ConjOk a asserts (s,[]))
    {root : ℤ} (hr : Entailed a asserts root) :
    ∃ r, scanConj a s root = some r ∧ r.Ok a asserts := by
  have hstart : ConjOk a asserts (s,[root]) :=
    ⟨fun c hc => by obtain rfl : c = root := by simpa using hc
                    exact hr,hs.eqs,hs.clauses⟩
  have hvariant : searchVariant 2 (positiveLits a) s.seen 1 < 2 * a.N + 4 := by
    have hle := Finset.card_le_card (Finset.sdiff_subset (s := positiveLits a) (t := s.seen))
    rw [positiveLits_card] at hle
    unfold searchVariant
    omega
  obtain ⟨_,h,r,rfl,hok⟩ := loop_spec _ (conjRound_good ha asserts) _ _ hstart hvariant
  exact ⟨r,by rw [scanConj,h]; rfl,hok⟩

theorem scanAsserts_ok (ha : a.Ok) {asserts : List ℤ} (rest : List ℤ) {s : Conjuncts}
    (hs : ConjOk a asserts (s,[])) (hr : ∀ l ∈ rest, Entailed a asserts l) :
    ∃ r, scanAsserts a rest s = some r ∧ r.Ok a asserts := by
  induction rest generalizing s with
  | nil => exact ⟨_,rfl,hs⟩
  | cons root rest ih =>
    obtain ⟨r,hscan,hok⟩ := scanConj_ok ha hs (hr root (by simp))
    cases r with
    | found s' =>
      obtain ⟨r',h',hok'⟩ := ih hok fun l hl => hr l (by simp [hl])
      exact ⟨r',by simp [scanAsserts,hscan,h'],hok'⟩
    | falseAssertion => exact ⟨_,by simp [scanAsserts,hscan],hok⟩
    | tooLarge => exact ⟨_,by simp [scanAsserts,hscan],hok⟩

end Affine
end DvSolve
