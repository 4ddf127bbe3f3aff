import DvSolve.DistSem
import DvSolve.TrailSem

/-! Domains as offsets from their first value, and what `_pick_avoiding_holes` gives of them
when the holes are in signed order. -/
namespace DvSolve
namespace Pick

open Solver DvSolve.Dist
open BitVec (le_def ofNat slt_iff_toInt_lt toNat_add toNat_ofNat toNat_sub)
open List (mem_cons)
open Nat (mod_eq_of_lt)

variable {v : Variable} {lo hi x : BitVec 64} {holes : List (BitVec 64)}

/-- From the first to the last value in the variable's order. -/
def Between (v : Variable) (lo hi x : BitVec 64) : Prop := rank v lo ≤ rank v x ∧ rank v x ≤ rank v hi

theorem rank_eq_add (h : rank v lo ≤ rank v x) : rank v x = rank v lo+(x-lo).toNat := by
  rw [toNat_sub]
  unfold rank at *
  split_ifs at *
  · omega
  · simp only [BitVec.toInt_eq_toNat_cond] at *
    split_ifs at * <;> omega

theorem between_iff (hle : rank v lo ≤ rank v hi) :
    Between v lo hi x ↔ (x-lo).toNat ≤ (hi-lo).toNat := by
  refine ⟨fun h => ?_,rank_between hle⟩
  have hx := rank_eq_add h.1
  have hhi := rank_eq_add hle
  have h2 := h.2
  omega

theorem between_unsigned (hs : v.signed = false) (h0 : 0 ≤ rank v lo) (hle : rank v lo ≤ rank v hi) :
    Between v lo hi x ↔ lo ≤ x ∧ x ≤ hi := by
  unfold Between
  rw [le_def,le_def]
  unfold rank at *
  rw [hs] at *
  split_ifs at *
  · omega
  · simp only [BitVec.toInt_eq_toNat_cond] at *
    split_ifs at * <;> omega

def Sorted (holes : List (BitVec 64)) : Prop := holes.Pairwise fun a b => a.toInt < b.toInt

def inRange (lo hi h : BitVec 64) : Bool := !h.slt lo && !hi.slt h

theorem inRange_iff {h : BitVec 64} : inRange lo hi h = true ↔ lo.toInt ≤ h.toInt ∧ h.toInt ≤ hi.toInt := by
  rw [inRange,Bool.and_eq_true,Bool.not_eq_true',Bool.not_eq_true',← Bool.not_eq_true,
    ← Bool.not_eq_true,slt_iff_toInt_lt,slt_iff_toInt_lt,not_lt,not_lt]

theorem offset_eq {h : BitVec 64} (h1 : lo.toInt ≤ h.toInt) : ((h-lo).toNat : ℤ) = h.toInt-lo.toInt := by
  rw [toNat_sub]
  simp only [BitVec.toInt_eq_toNat_cond] at *
  split_ifs at * <;> omega

theorem toInt_of_offset (hle : lo.toInt ≤ hi.toInt) (hx : (x-lo).toNat ≤ (hi-lo).toNat) :
    x.toInt = lo.toInt+(x-lo).toNat ∧ x.toInt ≤ hi.toInt := by
  rw [toNat_sub,toNat_sub] at *
  simp only [BitVec.toInt_eq_toNat_cond] at *
  split_ifs at * <;> omega

/-- The `k`-th value left is in the range and, where the holes count, none of them. -/
theorem kthValue_spec (hle : lo.toInt ≤ hi.toInt) (hs : Sorted holes) (cur k : BitVec 64)
    (hcur : ∀ h ∈ holes, inRange lo hi h = true → (cur-lo).toNat ≤ (h-lo).toNat)
    (hk : (cur-lo).toNat+k.toNat+holes.countP (inRange lo hi) ≤ (hi-lo).toNat) :
    (kthValue lo hi holes cur k-lo).toNat ≤ (hi-lo).toNat ∧ kthValue lo hi holes cur k ∉ holes ∧
      (cur-lo).toNat ≤ (kthValue lo hi holes cur k-lo).toNat := by
  induction holes generalizing cur k with
  | nil =>
    simp only [kthValue,List.not_mem_nil,not_false_iff,true_and]
    have hoff : (cur+k-lo).toNat = (cur-lo).toNat+k.toNat := by
      rw [show cur+k-lo = (cur-lo)+k by bv_omega,toNat_add,mod_eq_of_lt (by omega)]
    omega
  | cons h hs' ih =>
    obtain ⟨hlt,hs⟩ := List.pairwise_cons.mp hs
    have hoff : ∀ j : BitVec 64, (cur-lo).toNat+j.toNat ≤ (hi-lo).toNat →
        (cur+j-lo).toNat = (cur-lo).toNat+j.toNat := fun j hj => by
      rw [show cur+j-lo = (cur-lo)+j by bv_omega,toNat_add,mod_eq_of_lt (by omega)]
    rw [kthValue]
    by_cases hlow : h.slt lo = true
    · rw [if_pos hlow]
      have hout : inRange lo hi h = false := by simp [inRange,hlow]
      rw [List.countP_cons_of_neg (by simp [hout])] at hk
      obtain ⟨h1,h2,h3⟩ := ih hs cur k (fun g hg => hcur g (by simp [hg])) hk
      refine ⟨h1,?_,h3⟩
      rw [mem_cons,not_or]
      refine ⟨fun he => ?_,h2⟩
      have hin := toInt_of_offset hle h1
      rw [he] at hin
      rw [slt_iff_toInt_lt] at hlow
      omega
    · rw [if_neg hlow]
      rw [slt_iff_toInt_lt,not_lt] at hlow
      by_cases hhigh : hi.slt h = true
      · rw [if_pos hhigh]
        rw [slt_iff_toInt_lt] at hhigh
        have hsum := hoff k (by omega)
        refine ⟨by omega,fun hmem => ?_,by omega⟩
        have hin := toInt_of_offset hle (x:=cur+k) (by omega)
        rcases mem_cons.mp hmem with he | hmem
        · rw [he] at hin
          omega
        · have := hlt _ hmem
          omega
      · rw [if_neg hhigh]
        rw [slt_iff_toInt_lt,not_lt] at hhigh
        have hin : inRange lo hi h = true := inRange_iff.mpr ⟨hlow,hhigh⟩
        rw [List.countP_cons_of_pos hin] at hk
        have hch := hcur h (by simp) hin
        have hgap : (h-cur).toNat = (h-lo).toNat-(cur-lo).toNat := by
          rw [show h-cur = (h-lo)-(cur-lo) by bv_omega,BitVec.toNat_sub_of_le]
          rwa [le_def]
        have hd := offset_eq hlow
        by_cases hk' : k < h-cur
        · rw [if_pos hk']
          rw [BitVec.lt_def,hgap] at hk'
          have hsum := hoff k (by omega)
          refine ⟨by omega,fun hmem => ?_,by omega⟩
          have hcin := toInt_of_offset hle (x:=cur+k) (by omega)
          rcases mem_cons.mp hmem with he | hmem
          · rw [he] at hsum
            omega
          · have := hlt _ hmem
            omega
        · rw [if_neg hk']
          rw [BitVec.lt_def,not_lt,hgap] at hk'
          have hnext : (h+1#64-lo).toNat = (h-lo).toNat+1 := by
            rw [show h+1#64-lo = (h-lo)+1#64 by bv_omega,toNat_add,toNat_ofNat,
              mod_eq_of_lt (show 1 < 2^64 by omega),mod_eq_of_lt (by omega)]
          have hrest : (k-(h-cur)).toNat = k.toNat-(h-cur).toNat := by
            rw [BitVec.toNat_sub_of_le]
            rw [le_def,hgap]
            exact hk'
          obtain ⟨h1,h2,h3⟩ := ih hs (h+1#64) (k-(h-cur)) (fun g hg hgin => by
            have hg' := hlt g hg
            have := offset_eq (inRange_iff.mp hgin).1
            omega) (by rw [hnext,hrest]; omega)
          refine ⟨h1,?_,by omega⟩
          rw [mem_cons,not_or]
          refine ⟨fun he => ?_,h2⟩
          rw [he] at h3
          omega

theorem inRange_crossed (h : hi.toInt < lo.toInt) (x : BitVec 64) : inRange lo hi x = false := by
  rw [← Bool.not_eq_true,inRange_iff]
  omega

theorem kthValue_crossed (h : hi.toInt < lo.toInt) (cur k : BitVec 64) :
    kthValue lo hi holes cur k = cur+k := by
  induction holes with
  | nil => rfl
  | cons x hs ih =>
    rw [kthValue]
    split_ifs with h1 h2
    · exact ih
    · rfl
    · rfl
    · have := inRange_crossed h x
      rw [inRange,Bool.eq_false_iff.mpr h1,Bool.eq_false_iff.mpr h2] at this
      cases this

theorem countP_inRange_le (hs : Sorted holes) (hle : lo.toInt ≤ hi.toInt) :
    holes.countP (inRange lo hi) ≤ (hi-lo).toNat+1 := by
  rw [List.countP_eq_length_filter,← List.length_map (fun h => (h-lo).toNat)]
  have hin : ∀ h ∈ holes.filter (inRange lo hi), lo.toInt ≤ h.toInt ∧ h.toInt ≤ hi.toInt :=
    fun h hh => inRange_iff.mp (List.mem_filter.mp hh).2
  refine length_le_of_nodup ?_ fun n hn => ?_
  · refine List.Nodup.map_on (fun a ha b hb heq => ?_) ?_
    · have h1 := offset_eq (hin a ha).1
      have h2 := offset_eq (hin b hb).1
      exact BitVec.eq_of_toInt_eq (by omega)
    · exact (hs.filter _).imp fun h he => by
        rw [he] at h
        omega
  · obtain ⟨h,hh,rfl⟩ := List.mem_map.mp hn
    have h1 := offset_eq (hin h hh).1
    have h2 := offset_eq hle
    have := (hin h hh).2
    omega

theorem rejectHoles_some {n : ℕ} {s s' : BitVec 64} (hle : rank v lo ≤ rank v hi)
    (h : rejectHoles holes lo hi n s = (some x,s')) :
    rank v lo ≤ rank v x ∧ rank v x ≤ rank v hi ∧ x ∉ holes := by
  induction n generalizing s with
  | zero => simp [rejectHoles] at h
  | succ n ih =>
    simp only [rejectHoles] at h
    split_ifs at h with hmem
    · exact ih h
    · obtain ⟨rfl,-⟩ : (randRange64 s lo hi).1 = x ∧ _ := by simpa using h
      obtain ⟨h1,h2⟩ := randRange64_mem s hle
      exact ⟨h1,h2,hmem⟩

theorem lastResort_mem (hs : Sorted holes) (r : BitVec 64)
    (hlt : ¬hi-lo+1#64 ≤ ofNat 64 (holes.countP (inRange lo hi))) :
    (kthValue lo hi holes lo (r%(hi-lo+1#64-ofNat 64 (holes.countP (inRange lo hi))))-lo).toNat ≤
      (hi-lo).toNat ∧ (lo.toInt ≤ hi.toInt →
      kthValue lo hi holes lo (r%(hi-lo+1#64-ofNat 64 (holes.countP (inRange lo hi)))) ∉ holes) := by
  have hspan : (hi-lo+1#64).toNat = (hi-lo).toNat+1 := by
    rw [le_def] at hlt
    bv_omega
  rw [le_def,not_le,hspan,toNat_ofNat] at hlt
  generalize hm : hi-lo+1#64-ofNat 64 (holes.countP (inRange lo hi)) = m
  have hmod : ∀ c, holes.countP (inRange lo hi) = c → c < 2^64 → c < (hi-lo).toNat+1 →
      (r%m).toNat < (hi-lo).toNat+1-c := by
    intro c hc hc64 hcS
    have hmn : m.toNat = (hi-lo).toNat+1-c := by
      rw [← hm,hc,BitVec.toNat_sub_of_le,hspan,toNat_ofNat,mod_eq_of_lt hc64]
      rw [le_def,hspan,toNat_ofNat,mod_eq_of_lt hc64]
      omega
    rw [BitVec.toNat_umod,hmn]
    exact Nat.mod_lt _ (by omega)
  by_cases hcross : hi.toInt < lo.toInt
  · have hzero : holes.countP (inRange lo hi) = 0 :=
      List.countP_eq_zero.mpr fun a _ => by simp [inRange_crossed hcross a]
    have hr := hmod 0 hzero (by omega) (by omega)
    rw [kthValue_crossed hcross]
    refine ⟨?_,fun hle => absurd hle (by omega)⟩
    rw [show lo+r%m-lo = r%m by bv_omega]
    omega
  · rw [not_lt] at hcross
    have hcount := countP_inRange_le hs hcross
    rw [mod_eq_of_lt (by omega)] at hlt
    have hr := hmod _ rfl (by omega) hlt
    have hspec := kthValue_spec hcross hs lo (r%m) (fun h _ _ => by simp) (by
      rw [show lo-lo = 0#64 by bv_omega]
      simp only [toNat_ofNat,Nat.zero_mod]
      omega)
    exact ⟨hspec.1,fun _ => hspec.2.1⟩

theorem pickAvoidingHoles_mem (hs : Sorted holes) (hle : rank v lo ≤ rank v hi) (s : BitVec 64)
    (hx : rank v lo ≤ rank v x ∧ rank v x ≤ rank v hi) :
    rank v lo ≤ rank v (pickAvoidingHoles holes x s lo hi).1 ∧
      rank v (pickAvoidingHoles holes x s lo hi).1 ≤ rank v hi := by
  unfold pickAvoidingHoles
  split_ifs with hmem
  · split
    · rename_i y s' heq
      obtain ⟨h1,h2,_⟩ := rejectHoles_some hle heq
      exact ⟨h1,h2⟩
    · dsimp only
      split_ifs with hfull
      · exact ⟨le_rfl,hle⟩
      · exact rank_between hle (lastResort_mem hs _ hfull).1
  · exact hx

variable {es : List Entry}

theorem rollEntry_clip {es : List Entry} {roll cum : BitVec 64} {r : BitVec 64 × BitVec 64}
    (h : rollEntry v lo hi roll cum es = some r) :
    ∃ e ∈ es, e.live v lo hi = true ∧ e.clip v lo hi = r := by
  induction es generalizing cum with
  | nil => cases h
  | cons e es ih =>
    rw [rollEntry] at h
    split_ifs at h with hlive
    · exact ⟨e,by simp,hlive,Option.some.inj h⟩
    · obtain ⟨e',he',hrest⟩ := ih h
      exact ⟨e',by simp [he'],hrest⟩
    · obtain ⟨e',he',hrest⟩ := ih h
      exact ⟨e',by simp [he'],hrest⟩

theorem pickValueDist_between (es : List Entry) (s : BitVec 64) (hle : rank v lo ≤ rank v hi) :
    Between v lo hi (pickValueDist v es s lo hi).1 := by
  unfold pickValueDist
  dsimp only
  split_ifs
  · exact randRange64_mem s hle
  · split
    · rename_i r hroll
      obtain ⟨e,he,hlive,rfl⟩ := rollEntry_clip hroll
      have hclip : rank v (e.clip v lo hi).1 ≤ rank v (e.clip v lo hi).2 := by
        simp only [Entry.clip,rank_max,rank_min]
        exact (Entry.live_iff.mp hlive).2
      exact (Entry.clip_mem hlive (randRange64_mem _ hclip)).2
    · exact randRange64_mem _ hle

theorem foldl_dead (h : ¬∃ e ∈ es, e.live v lo hi = true) (t : BitVec 64) :
    es.foldl (fun t e => if e.live v lo hi then t+e.effective v lo hi else t) t = t := by
  induction es with
  | nil => rfl
  | cons e es ih =>
    rw [List.foldl_cons,if_neg fun he => h ⟨e,by simp,he⟩]
    exact ih fun hex => h (hex.imp fun _ he => ⟨List.mem_cons_of_mem _ he.1,he.2⟩)

theorem rollEntry_isSome {roll : BitVec 64} (cum : BitVec 64) (hlive : ∃ e ∈ es, e.live v lo hi = true)
    (hroll : roll < es.foldl (fun t e => if e.live v lo hi then t+e.effective v lo hi else t) cum) :
    (rollEntry v lo hi roll cum es).isSome := by
  induction es generalizing cum with
  | nil => simp at hlive
  | cons e es ih =>
    rw [List.foldl_cons] at hroll
    rw [rollEntry]
    split_ifs at hroll ⊢ with he hlt
    · rfl
    · by_cases hrest : ∃ e ∈ es, e.live v lo hi = true
      · exact ih _ hrest hroll
      · rw [foldl_dead hrest] at hroll
        exact absurd hroll hlt
    · obtain ⟨e',he',hl⟩ := hlive
      rcases mem_cons.mp he' with rfl | he'
      · exact absurd hl he
      · exact ih cum ⟨e',he',hl⟩ hroll

/-- A draw is in a range with a weight when the sum of the weights that meet the domain is not
zero. -/
theorem pickValueDist_inDist (s : BitVec 64) (h : totalWeight v lo hi es ≠ 0#64) :
    InDist v es (pickValueDist v es s lo hi).1 := by
  have hlive : ∃ e ∈ es, e.live v lo hi = true := by
    by_contra hnone
    exact h (foldl_dead hnone 0#64)
  have hroll : (rand64 s).1%totalWeight v lo hi es < totalWeight v lo hi es :=
    BitVec.umod_lt _ (by bv_omega)
  obtain ⟨r,hr⟩ := Option.isSome_iff_exists.mp (rollEntry_isSome 0#64 hlive hroll)
  obtain ⟨e,he,hl,rfl⟩ := rollEntry_clip hr
  have hclip : rank v (e.clip v lo hi).1 ≤ rank v (e.clip v lo hi).2 := by
    simp only [Entry.clip,rank_max,rank_min]
    exact (Entry.live_iff.mp hl).2
  unfold pickValueDist
  simp only [h,if_false]
  rw [hr]
  exact ⟨e,he,(Entry.clip_mem hl (randRange64_mem _ hclip)).1⟩

end Pick
end DvSolve
