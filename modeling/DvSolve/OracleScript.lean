import DvSolve.Oracle

/-! What the oracle's script means.
The declared ranges as they are written out, the patterns of pinned and excluded
values, and what dropping a part of the script does to its declarations. -/
namespace DvSolve
namespace Oracle
open Function

variable {w : ℕ} {cs : List Cmd} {σ : Valuation} {D : ℕ → Prop} {k k₀ k' : ℕ → Option ℕ}

theorem emitValue_cast (value : ℤ) (w : ℕ) : (emitValue value w : ℤ) = value % 2^w :=
  Int.toNat_of_nonneg (Int.emod_nonneg value (by positivity))

theorem emitValue_of_nonneg {value : ℤ} (h0 : 0 ≤ value) (h : value < 2^w) :
    (emitValue value w : ℤ) = value := by
  rw [emitValue_cast,Int.emod_eq_of_lt h0 h]

theorem pow_split (hw : 0 < w) : (2 : ℤ)^w = 2*2^(w-1) := by
  obtain ⟨w,rfl⟩ : ∃ n, w = n+1 := ⟨w-1,by omega⟩
  rw [Nat.add_sub_cancel,pow_succ]
  ring

theorem signedValue_bounds {u : ℕ} (hw : 0 < w) (hu : u < 2^w) :
    -2^(w-1) ≤ signedValue w u ∧ signedValue w u < 2^(w-1) := by
  have hp := pow_split hw
  have hu' : (u : ℤ) < 2^w := by exact_mod_cast hu
  unfold signedValue
  split
  · rename_i h
    have : (2 : ℤ)^(w-1) ≤ u := by exact_mod_cast h
    constructor <;> omega
  · rename_i h
    have : (u : ℤ) < 2^(w-1) := by exact_mod_cast not_le.mp h
    constructor <;> omega

theorem signedValue_emitValue {value : ℤ} (hw : 0 < w) (h0 : -2^(w-1) ≤ value) (h : value < 2^(w-1)) :
    signedValue w (emitValue value w) = value := by
  have hp := pow_split hw
  unfold signedValue
  rcases lt_or_ge value 0 with hneg | hnn
  · have hcast : (emitValue value w : ℤ) = value+2^w := by
      rw [emitValue_cast,← Int.add_emod_right,Int.emod_eq_of_lt (by omega) (by omega)]
    have : 2^(w-1) ≤ emitValue value w := by
      zify
      omega
    rw [if_pos this]
    omega
  · have hcast := emitValue_of_nonneg hnn (show value < 2^w by omega)
    have : ¬ 2^(w-1) ≤ emitValue value w := by
      zify
      omega
    rw [if_neg this,hcast]

theorem toInt_lo (x : BitVec 64) : -2^63 ≤ x.toInt ∧ x.toInt < 2^63 := by
  constructor
  · have := BitVec.le_toInt x
    simpa using this
  · have := @BitVec.toInt_lt 64 x
    simpa using this

theorem emitValue_toInt (x : BitVec 64) : emitValue x.toInt 64 = x.toNat := by
  have h := emitValue_cast x.toInt 64
  have hmod : x.toInt % 2^64 = x.toNat := by
    rw [BitVec.toInt_eq_toNat_cond]
    split <;> omega
  rw [hmod] at h
  exact_mod_cast h

theorem clamp_iff {lo hi tmin tmax r : ℤ} (h0 : tmin ≤ r) (h1 : r ≤ tmax) :
    lo ≤ r ∧ r ≤ hi ↔ max lo tmin ≤ r ∧ r ≤ min hi tmax := by
  omega

theorem signedRange_models {id : ℕ} {lo hi : ℤ} (hw : 0 < w) (hlo : -2^(w-1) ≤ lo ∧ lo < 2^(w-1))
    (hhi : -2^(w-1) ≤ hi ∧ hi < 2^(w-1)) (σ : Valuation) :
    Models [.range id w true (emitValue lo w) (emitValue hi w)] σ ↔
      lo ≤ signedValue w (σ id) ∧ signedValue w (σ id) ≤ hi := by
  simp only [Models,List.mem_singleton,forall_eq,Cmd.Holds]
  rw [signedValue_emitValue hw hlo.1 hlo.2,signedValue_emitValue hw hhi.1 hhi.2]

theorem unsignedRange_models {id : ℕ} {lo hi : ℤ} (hlo : 0 ≤ lo) (hhi : hi < 2^w) (hle : lo ≤ hi)
    (σ : Valuation) :
    Models [.range id w false (emitValue lo w) (emitValue hi w)] σ ↔
      lo ≤ (σ id : ℤ) ∧ (σ id : ℤ) ≤ hi := by
  simp only [Models,List.mem_singleton,forall_eq,Cmd.Holds]
  have hl := emitValue_of_nonneg hlo (show lo < 2^w by omega)
  have hh := emitValue_of_nonneg (show 0 ≤ hi by omega) hhi
  constructor
  · intro h
    zify at h
    omega
  · intro h
    zify
    omega

theorem Models.cons {c : Cmd} :
    Models (c::cs) σ ↔ c.Holds σ ∧ Models cs σ := by
  simp [Models]

theorem Models.append {cs' : List Cmd} :
    Models (cs++cs') σ ↔ Models cs σ ∧ Models cs' σ := by
  simp only [Models,List.mem_append]
  exact ⟨fun h => ⟨fun c hc => h c (.inl hc),fun c hc => h c (.inr hc)⟩,
    fun h c hc => hc.elim (h.1 c) (h.2 c)⟩

theorem Models.nil : Models [] σ := by simp [Models]

theorem emitVarDecl_models {v : VarSpec} (hw : 0 < v.width ∧ v.width ≤ 64) (σ : Valuation) :
    Models (emitVarDecl v.id v.width v.signed v.lo v.hi) σ ↔ σ v.id < 2^v.width ∧ v.Admits (σ v.id) := by
  obtain ⟨id,w,s,aux,lo,hi⟩ := v
  obtain ⟨hw0,hw64⟩ := hw
  simp only at hw0 hw64
  have hlo := toInt_lo lo
  have hhi := toInt_lo hi
  unfold emitVarDecl VarSpec.Admits
  simp only [VarSpec.ty,Ty.read,if_neg (show ¬ w = 0 by omega),if_neg (show ¬ 64 < w by omega)]
  rw [Models.cons]
  apply and_congr_right
  intro hu
  have hsb := signedValue_bounds hw0 hu
  have hu' : (σ id : ℤ) < 2^w := by exact_mod_cast hu
  by_cases h64 : w = 64
  · subst h64
    cases s with
    | true =>
      simp only [if_true,true_or,reduceCtorEq,and_false,if_false,lt_irrefl]
      split
      · rename_i hfull
        simp only [hfull.1,hfull.2,Models.nil,true_iff]
        rw [BitVec.toInt_intMin,BitVec.toInt_intMax]
        omega
      · exact (signedRange_models (by norm_num) hlo hhi σ)
    | false =>
      simp only [Bool.false_eq_true,if_true,and_self,if_false,lt_irrefl]
      split
      · rename_i hfull
        simp only [hfull.1,hfull.2,Models.nil,true_iff]
        exact ⟨Nat.zero_le _,by have : (-1 : BitVec 64).toNat = 2^64-1 := by decide
                                omega⟩
      · simp only [Models,List.mem_singleton,forall_eq,Cmd.Holds,emitValue_toInt]
  · have hlt : w < 64 := by omega
    simp only [h64,false_and,if_false,or_false,hlt,if_true]
    cases s with
    | true =>
      simp only [if_true]
      split
      · rename_i hfull
        simp only [Models.nil,true_iff]
        omega
      · rw [clamp_iff hsb.1 (show signedValue w (σ id) ≤ 2^(w-1)-1 by omega)]
        split
        · rename_i hempty
          simp only [Models,List.mem_singleton,forall_eq,Cmd.Holds,false_iff]
          omega
        · rw [signedRange_models hw0 (by omega) (by omega)]
    | false =>
      simp only [Bool.false_eq_true,if_false]
      split
      · rename_i hfull
        simp only [Models.nil,true_iff]
        omega
      · rw [clamp_iff (show (0 : ℤ) ≤ σ id by omega) (show (σ id : ℤ) ≤ 2^w-1 by omega)]
        split
        · rename_i hempty
          simp only [Models,List.mem_singleton,forall_eq,Cmd.Holds,false_iff]
          omega
        · rw [unsignedRange_models (le_max_right _ _) (by omega) (by omega)]

def Cmd.declares : Cmd → List ℕ
  | .declare id _ => [id]
  | _ => []

def Cmd.mentions : Cmd → List ℕ
  | .declare id _ | .range id _ _ _ _ | .equal id _ _ | .distinct id _ _ => [id]
  | .never => []
  | .term _ uses _ => uses.map Prod.fst

theorem scan_append (k : ℕ → Option ℕ) (a b : List Cmd) :
    scan k (a++b) = (scan k a).bind (fun k' => scan k' b) := by
  induction a generalizing k with
  | nil => rfl
  | cons c a ih => cases h : c.scan k <;> simp [scan,h,ih]

/-- A command that names nothing in `D` scans the same whatever is known of `D`. -/
theorem Cmd.scan_agree {c : Cmd} (hagree : ∀ i, ¬ D i → k₀ i = k i) (hm : ∀ i ∈ c.mentions, ¬ D i)
    (hs : c.scan k = some k') :
    ∃ k₀', c.scan k₀ = some k₀' ∧ (∀ i, ¬ D i → k₀' i = k' i) ∧ ∀ i, D i → k₀' i = k₀ i := by
  cases c with
  | declare id w =>
    have hid : ¬ D id := hm id (by simp [Cmd.mentions])
    simp only [Cmd.scan] at hs ⊢
    rw [hagree id hid]
    split at hs
    · rename_i hnew
      obtain rfl := Option.some.inj hs
      rw [if_pos hnew]
      refine ⟨_,rfl,fun i hi => ?_,fun i hi => update_of_ne (by rintro rfl; exact hid hi) _ _⟩
      by_cases h : i = id
      · rw [h,update_self,update_self]
      · rw [update_of_ne h,update_of_ne h,hagree i hi]
    · cases hs
  | never =>
    obtain rfl := Option.some.inj hs
    exact ⟨k₀,rfl,hagree,fun _ _ => rfl⟩
  | term names uses holds =>
    simp only [Cmd.scan] at hs ⊢
    split at hs
    · rename_i huses
      obtain rfl := Option.some.inj hs
      rw [if_pos]
      · exact ⟨k₀,rfl,hagree,fun _ _ => rfl⟩
      · intro u hu
        rw [hagree u.1 (hm u.1 (List.mem_map_of_mem hu))]
        exact huses u hu
    · cases hs
  | range id w s lo hi | equal id v w | distinct id v w =>
    have hid : ¬ D id := hm id (by simp [Cmd.mentions])
    simp only [Cmd.scan] at hs ⊢
    rw [hagree id hid]
    split at hs
    · rename_i hk
      obtain rfl := Option.some.inj hs
      rw [if_pos hk]
      exact ⟨k₀,rfl,hagree,fun _ _ => rfl⟩
    · cases hs

theorem scan_agree (hagree : ∀ i, ¬ D i → k₀ i = k i) (hm : ∀ c ∈ cs, ∀ i ∈ c.mentions, ¬ D i)
    (hs : scan k cs = some k') :
    ∃ k₀', scan k₀ cs = some k₀' ∧ (∀ i, ¬ D i → k₀' i = k' i) ∧ ∀ i, D i → k₀' i = k₀ i := by
  induction cs generalizing k k₀ with
  | nil =>
    obtain rfl := Option.some.inj hs
    exact ⟨k₀,rfl,hagree,fun _ _ => rfl⟩
  | cons c cs ih =>
    obtain ⟨k₁,hk₁,hs'⟩ := Option.bind_eq_some_iff.mp hs
    obtain ⟨k₀₁,hk₀₁,hag,hkeep⟩ := Cmd.scan_agree hagree (hm c (by simp)) hk₁
    obtain ⟨k₀',hk₀',hag',hkeep'⟩ := ih hag (fun c' hc' => hm c' (List.mem_cons_of_mem _ hc')) hs'
    refine ⟨k₀',?_,hag',fun i hi => (hkeep' i hi).trans (hkeep i hi)⟩
    simp only [scan,hk₀₁,Option.bind_some,hk₀']

/-- Commands that declare only ids of `D` change nothing outside it. -/
theorem scan_declares (hd : ∀ c ∈ cs, ∀ i ∈ c.declares, D i) (hs : scan k cs = some k') (i : ℕ)
    (hi : ¬ D i) :
    k' i = k i := by
  induction cs generalizing k with
  | nil => rw [Option.some.inj hs]
  | cons c cs ih =>
    obtain ⟨k₁,hk₁,hs'⟩ := Option.bind_eq_some_iff.mp hs
    rw [ih (fun c' hc' => hd c' (List.mem_cons_of_mem _ hc')) hs']
    cases c with
    | declare id w =>
      simp only [Cmd.scan] at hk₁
      split at hk₁
      · rw [← Option.some.inj hk₁]
        apply update_of_ne
        rintro rfl
        exact hi (hd _ List.mem_cons_self _ (by simp [Cmd.declares]))
      · cases hk₁
    | never => rw [Option.some.inj hk₁]
    | range | equal | distinct | term =>
      simp only [Cmd.scan] at hk₁
      split at hk₁
      · rw [Option.some.inj hk₁]
      · cases hk₁

/-- Dropping entries leaves the rest of the script well formed, when what is kept names
nothing that is dropped (`D`). -/
theorem scan_filter {keep : OEntry → Bool} {es : List OEntry} (hagree : ∀ i, ¬ D i → k₀ i = k i)
    (hk : ∀ e ∈ es, keep e = true → ∀ c ∈ e.text, ∀ i ∈ c.mentions, ¬ D i)
    (hd : ∀ e ∈ es, keep e = false → ∀ c ∈ e.text, ∀ i ∈ c.declares, D i)
    (hs : scan k (es.flatMap OEntry.text) = some k') :
    ∃ k₀', scan k₀ ((es.filter keep).flatMap OEntry.text) = some k₀' ∧
      (∀ i, ¬ D i → k₀' i = k' i) ∧ ∀ i, D i → k₀' i = k₀ i := by
  induction es generalizing k k₀ with
  | nil =>
    obtain rfl := Option.some.inj hs
    exact ⟨k₀,rfl,hagree,fun _ _ => rfl⟩
  | cons e es ih =>
    rw [List.flatMap_cons,scan_append] at hs
    obtain ⟨k₁,hk₁,hs'⟩ := Option.bind_eq_some_iff.mp hs
    have hk' := fun e' he' => hk e' (List.mem_cons_of_mem e he')
    have hd' := fun e' he' => hd e' (List.mem_cons_of_mem e he')
    cases hkeep : keep e with
    | true =>
      obtain ⟨k₀₁,hk₀₁,hag,hold⟩ := scan_agree hagree (hk e (by simp) hkeep) hk₁
      obtain ⟨k₀',hk₀',hag',hold'⟩ := ih hag hk' hd' hs'
      refine ⟨k₀',?_,hag',fun i hi => (hold' i hi).trans (hold i hi)⟩
      rw [List.filter_cons_of_pos hkeep,List.flatMap_cons,scan_append,hk₀₁]
      exact hk₀'
    | false =>
      have hag : ∀ i, ¬ D i → k₀ i = k₁ i := fun i hi => by
        rw [hagree i hi,scan_declares (hd e (by simp) hkeep) hk₁ i hi]
      rw [List.filter_cons_of_neg (by simp [hkeep])]
      exact ih hag hk' hd' hs'

end Oracle
end DvSolve
