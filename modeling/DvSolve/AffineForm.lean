import DvSolve.AffineScan
import DvSolve.Gf2

/-! The affine region and its forms.
The region lists the affine gates below the literals after the nodes their forms are
made of, and gives every other node a column; read in that order, the form of a gate
has the gate's value wherever the gates are respected. -/
namespace DvSolve
namespace Affine

open Loop
open Function (update_of_ne)
open List (mem_cons singleton_sublist)

variable {id : ℕ} {roots : List ℕ} {s : Region} {e : ℕ × Bool} {stack : List (ℕ × Bool)}
  {forms : ℕ → Form}

/-- The form of node `c` can be read: the constant, a gate listed, or a column. -/
def Ready (a : Gates) (col : ℕ → Option ℕ) (order : List ℕ) (c : ℕ) : Prop :=
  c = 1 ∨ (gateAffine a c = true ∧ c ∈ order) ∨ (gateAffine a c = false ∧ (col c).isSome = true)

/-- Gates listed after the nodes their forms are made of. -/
inductive Ordered (a : Gates) (col : ℕ → Option ℕ) : List ℕ → Prop
  | nil : Ordered a col []
  | snoc {order : List ℕ} {id : ℕ} : Ordered a col order → gateAffine a id = true →
    (∀ c ∈ formNodes a id, Ready a col order c) → Ordered a col (order ++ [id])

def ColLe (col col' : ℕ → Option ℕ) : Prop := ∀ c, (col c).isSome = true → (col' c).isSome = true

theorem Ready.mono {a : Gates} {col col' : ℕ → Option ℕ} {order order' : List ℕ} {c : ℕ}
    (h : Ready a col order c) (hcol : ColLe col col') (ho : ∀ d ∈ order, d ∈ order') :
    Ready a col' order' c := by
  rcases h with h | h | h
  · exact .inl h
  · exact .inr (.inl ⟨h.1,ho _ h.2⟩)
  · exact .inr (.inr ⟨h.1,hcol _ h.2⟩)

theorem Ordered.mono {a : Gates} {col col' : ℕ → Option ℕ} {order : List ℕ}
    (h : Ordered a col order) (hcol : ColLe col col') : Ordered a col' order := by
  induction h with
  | nil => exact .nil
  | snoc _ hid hc ih => exact ih.snoc hid fun c h => (hc c h).mono hcol fun _ h => h

theorem colLe_update (col : ℕ → Option ℕ) (id k : ℕ) :
    ColLe col (Function.update col id (some k)) := by
  intro c h
  by_cases hc : c = id
  · simp [hc]
  · simpa [update_of_ne hc] using h

theorem formNodes_ok {a : Gates} (ha : a.Ok) (h : gateAffine a id = true) :
    id ≤ a.N ∧ (∀ c ∈ formNodes a id, c < id) ∧ (formNodes a id).length ≤ smLeaves := by
  unfold formNodes
  cases hsm : a.sm id with
  | some t =>
    have ht := ha.table id t hsm
    exact ⟨(ha.range id ht.gate).2,fun c hc => (ht.below c hc).2,ht.length⟩
  | none =>
    obtain ⟨hg,_,h1,_,h2⟩ := ha.xor_gate id (by simpa [gateAffine,hsm] using h)
    refine ⟨(ha.range id hg).2,fun c hc => ?_,by simp [smLeaves]⟩
    rcases mem_cons.mp hc with rfl | hc
    · exact h1
    · obtain rfl : c = idOf (a.xb id) := by simpa using hc
      exact h2

theorem pair_sublist {α : Type} {x y : α} {l : List α} (hx : x ∈ l) (hy : y ∈ l) (h : x ≠ y) :
    [x,y].Sublist l ∨ [y,x].Sublist l := by
  induction l with
  | nil => simp at hx
  | cons z l ih =>
    rcases mem_cons.mp hx with rfl | hx'
    · have hy' : y ∈ l := (mem_cons.mp hy).resolve_left (Ne.symm h)
      exact .inl ((singleton_sublist.mpr hy').cons_cons x)
    · rcases mem_cons.mp hy with rfl | hy'
      · exact .inr ((singleton_sublist.mpr hx').cons_cons y)
      · exact (ih hx' hy').imp (fun h => h.cons z) fun h => h.cons z

/-- Invariant of the search from `roots`. A marked entry stands below the nodes it waits for, which
have smaller ids. -/
structure RegionOk (a : Gates) (roots : List ℕ) (s : Region) : Prop where
  root : ∀ c ∈ roots, c ∈ s.seen ∨ (c,false) ∈ s.stack
  above : s.stack.Pairwise fun e m => m.2 = true → e.1 < m.1
  waits : ∀ id, (id,true) ∈ s.stack → gateAffine a id = true ∧
    ∀ c ∈ formNodes a id, Ready a s.col s.order c ∨ ∃ b, [(c,b),(id,true)].Sublist s.stack
  seen : ∀ c ∈ s.seen, Ready a s.col s.order c ∨ (c,true) ∈ s.stack
  ordered : Ordered a s.col s.order
  col : ∀ c k, s.col c = some k → s.colNode[k]? = some c
  one : 1 ∉ s.colNode
  range : ∀ e ∈ s.stack, e.1 ≤ a.N

theorem RegionOk.lt {a : Gates} (hs : RegionOk a roots s) {m : ℕ × Bool} (h : [e,m].Sublist s.stack)
    (hm : m.2 = true) : e.1 < m.1 :=
  List.pairwise_iff_forall_sublist.mp hs.above h hm

theorem RegionOk.top_lt {a : Gates} (hs : RegionOk a roots s) {m : ℕ × Bool}
    (hst : s.stack = e :: stack) (hm : m ∈ stack) (ht : m.2 = true) : e.1 < m.1 :=
  hs.lt (by rw [hst]; exact (singleton_sublist.mpr hm).cons_cons e) ht

theorem RegionOk.above_tail {a : Gates} (hs : RegionOk a roots s) (hst : s.stack = e :: stack) :
    stack.Pairwise fun e m => m.2 = true → e.1 < m.1 :=
  (List.pairwise_cons.mp (hst ▸ hs.above)).2

/-- Entries left when the top `(id,b)` is popped: whoever waited for it now finds it
ready or as another entry `(id,b')`. -/
theorem RegionOk.waits_pop {a : Gates} (hs : RegionOk a roots s) {b : Bool}
    (hst : s.stack = (id,b) :: stack) {col : ℕ → Option ℕ} {order : List ℕ}
    {stack' : List (ℕ × Bool)} (hcol : ColLe s.col col) (ho : ∀ d ∈ s.order, d ∈ order)
    (hsub : stack.Sublist stack') (w : ℕ) (hw : (w,true) ∈ stack)
    (hid : id < w → Ready a col order id ∨ ∃ b', [(id,b'),(w,true)].Sublist stack') :
    gateAffine a w = true ∧
      ∀ c ∈ formNodes a w, Ready a col order c ∨ ∃ b', [(c,b'),(w,true)].Sublist stack' := by
  obtain ⟨haff,hwait⟩ := hs.waits w (by simp [hst,hw])
  refine ⟨haff,fun c hc => ?_⟩
  rcases hwait c hc with h | ⟨b',h⟩
  · exact .inl (h.mono hcol ho)
  · rw [hst] at h
    have hlt : id < w := hs.top_lt hst hw rfl
    cases h with
    | cons _ h => exact .inr ⟨b',h.trans hsub⟩
    | cons_cons _ h => exact hid hlt

theorem RegionOk.root_visit {a : Gates} (hs : RegionOk a roots s)
    (hst : s.stack = (id,false) :: stack) {c : ℕ} (hc : c ∈ roots) :
    c ∈ insert id s.seen ∨ (c,false) ∈ stack := by
  rcases hs.root c hc with h | h
  · exact .inl (Finset.mem_insert_of_mem h)
  · rw [hst] at h
    rcases mem_cons.mp h with h | h
    · obtain rfl : c = id := by simpa using h
      exact .inl (Finset.mem_insert_self _ _)
    · exact .inr h

theorem RegionOk.leave {a : Gates} (hs : RegionOk a roots s) (hst : s.stack = (id,true) :: stack) :
    RegionOk a roots { s with stack := stack, order := s.order ++ [id] } := by
  obtain ⟨haff,hwait⟩ := hs.waits id (by simp [hst])
  have hready : ∀ c ∈ formNodes a id, Ready a s.col s.order c := by
    intro c hc
    rcases hwait c hc with h | ⟨b,h⟩
    · exact h
    · rw [hst] at h
      -- nothing above the top: an entry below it has a larger id
      have hlt := hs.lt (by rw [hst]; exact h) rfl
      cases h with
      | cons _ h =>
        have := hs.top_lt hst (h.subset (a := (id,true)) (by simp)) rfl
        simp at this
      | cons_cons _ h => simp at hlt
  have hincl : ∀ d ∈ s.order, d ∈ s.order ++ [id] := fun d hd => by simp [hd]
  have hnow : Ready a s.col (s.order ++ [id]) id := .inr (.inl ⟨haff,by simp⟩)
  have hroot : ∀ c ∈ roots, c ∈ s.seen ∨ (c,false) ∈ stack := fun c hc => by
    simpa [hst] using hs.root c hc
  refine ⟨hroot,hs.above_tail hst,fun w hw => ?_,fun c hc => ?_,
    hs.ordered.snoc haff hready,hs.col,hs.one,fun e he => hs.range e (by simp [hst,he])⟩
  · exact hs.waits_pop hst (fun _ h => h) hincl (List.Sublist.refl _) w hw fun _ => .inl hnow
  · rcases hs.seen c hc with h | h
    · exact .inl (h.mono (fun _ h => h) hincl)
    · rw [hst] at h
      rcases mem_cons.mp h with h | h
      · obtain rfl : c = id := by simpa using h
        exact .inl hnow
      · exact .inr h

theorem RegionOk.drop {a : Gates} (hs : RegionOk a roots s) (hst : s.stack = (id,false) :: stack)
    (hid : id ∈ s.seen) :
    RegionOk a roots { s with stack := stack } := by
  have hwhere : Ready a s.col s.order id ∨ (id,true) ∈ stack := by
    refine (hs.seen id hid).imp_right fun h => ?_
    rw [hst] at h
    simpa using h
  have hroot : ∀ c ∈ roots, c ∈ s.seen ∨ (c,false) ∈ stack := fun c hc => by
    rcases hs.root c hc with h | h
    · exact .inl h
    · rw [hst] at h
      rcases mem_cons.mp h with h | h
      · obtain rfl : c = id := by simpa using h
        exact .inl hid
      · exact .inr h
  refine ⟨hroot,hs.above_tail hst,fun w hw => ?_,fun c hc => ?_,
    hs.ordered,hs.col,hs.one,fun e he => hs.range e (by simp [hst,he])⟩
  · refine hs.waits_pop hst (fun _ h => h) (fun _ h => h) (List.Sublist.refl _) w hw fun hlt => ?_
    refine hwhere.imp_right fun h => ⟨true,?_⟩
    rcases pair_sublist h hw (by simp; omega) with h' | h'
    · exact h'
    · have hlt' : w < id := hs.lt (by rw [hst]; exact h'.cons _) rfl
      omega
  · refine (hs.seen c hc).imp_right fun h => ?_
    rw [hst] at h
    simpa using h

/-- A node that is no affine gate is seen: it is the constant or gets a column. -/
theorem RegionOk.leaf {a : Gates} (hs : RegionOk a roots s) (hst : s.stack = (id,false) :: stack)
    {col : ℕ → Option ℕ} {colNode : List ℕ} (hcol : ColLe s.col col) (hnow : Ready a col s.order id)
    (hk : ∀ c k, col c = some k → colNode[k]? = some c) (hone : 1 ∉ colNode) :
    RegionOk a roots { s with seen := insert id s.seen, stack := stack, col := col, colNode := colNode } := by
  refine ⟨fun c hc => hs.root_visit hst hc,hs.above_tail hst,fun w hw => ?_,fun c hc => ?_,
    hs.ordered.mono hcol,hk,hone,fun e he => hs.range e (by simp [hst,he])⟩
  · exact hs.waits_pop hst hcol (fun _ h => h) (List.Sublist.refl _) w hw fun _ => .inl hnow
  · rcases Finset.mem_insert.mp hc with rfl | hc
    · exact .inl hnow
    · rcases hs.seen c hc with h | h
      · exact .inl (h.mono hcol fun _ h => h)
      · rw [hst] at h
        exact .inr (by simpa using h)

theorem RegionOk.enter {a : Gates} (ha : a.Ok) (hs : RegionOk a roots s)
    (hst : s.stack = (id,false) :: stack) (haff : gateAffine a id = true) :
    RegionOk a roots { s with
      seen := insert id s.seen
      stack := ((formNodes a id).map fun c => (c,false)).reverse ++ (id,true) :: stack } := by
  obtain ⟨hN,hlt,_⟩ := formNodes_ok ha haff
  have hsub : stack.Sublist
      (((formNodes a id).map fun c => (c,false)).reverse ++ (id,true) :: stack) :=
    (List.sublist_cons_self _ _).trans (List.sublist_append_right _ _)
  have hnew : ∀ e ∈ ((formNodes a id).map fun c => (c,false)).reverse,
      e.1 ∈ formNodes a id ∧ e.2 = false := by
    intro e he
    obtain ⟨c,hc,rfl⟩ := List.mem_map.mp (List.mem_reverse.mp he)
    exact ⟨hc,rfl⟩
  refine ⟨fun c hc => (hs.root_visit hst hc).imp_right fun h => hsub.subset h,?_,
    fun w hw => ?_,fun c hc => ?_,hs.ordered,hs.col,hs.one,fun e he => ?_⟩
  · refine List.pairwise_append.mpr ⟨?_,List.pairwise_cons.mpr ⟨?_,hs.above_tail hst⟩,?_⟩
    · exact List.pairwise_of_forall_mem_list fun e _ m hm ht => by simp [(hnew m hm).2] at ht
    · exact fun m hm ht => hs.top_lt (e := (id,false)) hst hm ht
    · intro e he m hm ht
      have h1 := hlt _ (hnew e he).1
      rcases mem_cons.mp hm with rfl | hm
      · exact h1
      · exact h1.trans (hs.top_lt (e := (id,false)) hst hm ht)
  · rcases List.mem_append.mp hw with hw | hw
    · have := (hnew _ hw).2
      simp at this
    rcases mem_cons.mp hw with hw | hw
    · obtain rfl : w = id := by simpa using hw
      refine ⟨haff,fun c hc => .inr ⟨false,?_⟩⟩
      rw [← List.singleton_append]
      refine List.Sublist.append ?_ ?_
      · exact singleton_sublist.mpr (by simpa using hc)
      · exact singleton_sublist.mpr (by simp)
    · refine hs.waits_pop hst (fun _ h => h) (fun _ h => h) hsub w hw fun _ => .inr ⟨true,?_⟩
      exact ((singleton_sublist.mpr hw).cons_cons _).trans (List.sublist_append_right _ _)
  · rcases Finset.mem_insert.mp hc with rfl | hc
    · exact .inr (by simp)
    · refine (hs.seen c hc).imp_right fun h => ?_
      rw [hst] at h
      have : (c,true) ∈ stack := by simpa using h
      exact hsub.subset this
  · rcases List.mem_append.mp he with he | he
    · have := hlt _ (hnew e he).1
      omega
    rcases mem_cons.mp he with rfl | he
    · exact hN
    · exact hs.range e (by simp [hst,he])

theorem regionRound_good {a : Gates} (ha : a.Ok) (roots : List ℕ) (s : Region)
    (hs : RegionOk a roots s) :
    (regionRound a s).Good (RegionOk a roots) (fun r => RegionOk a roots r ∧ r.stack = [])
      (fun s => searchVariant (smLeaves+1) (Finset.range (a.N+1)) s.seen s.stack.length) s := by
  unfold regionRound
  cases hst : s.stack with
  | nil => exact ⟨hs,hst⟩
  | cons e stack =>
    obtain ⟨id,b⟩ := e
    cases b with
    | true => exact ⟨hs.leave hst,searchVariant_mono _ (le_refl _) (by simp [hst])⟩
    | false =>
      dsimp only
      by_cases hid : id ∈ s.seen
      · rw [if_pos hid]
        exact ⟨hs.drop hst hid,searchVariant_mono _ (le_refl _) (by simp [hst])⟩
      rw [if_neg hid]
      have hsub : s.seen ⊆ insert id s.seen := Finset.subset_insert _ _
      by_cases hone : id = 1
      · rw [if_pos hone]
        exact ⟨hs.leaf hst (fun _ h => h) (.inl hone) hs.col hs.one,
          searchVariant_mono _ hsub (by simp [hst])⟩
      rw [if_neg hone]
      by_cases haff : gateAffine a id = true
      · rw [if_pos haff]
        refine ⟨hs.enter ha hst haff,?_⟩
        have hN := (formNodes_ok ha haff).1
        have hlen := (formNodes_ok ha haff).2.2
        refine searchVariant_visit _ (Finset.mem_range.mpr (by omega)) hid ?_
        simp only [hst,List.length_append,List.length_reverse,List.length_map,List.length_cons]
        omega
      · rw [if_neg haff]
        have haff : gateAffine a id = false := by simpa using haff
        refine ⟨hs.leaf hst (colLe_update _ _ _) (.inr (.inr ⟨haff,by simp⟩)) ?_ ?_,
          searchVariant_mono _ hsub (by simp [hst])⟩
        · intro c k hk
          by_cases hc : c = id
          · subst hc
            obtain rfl : s.colNode.length = k := by simpa using hk
            simp
          · rw [update_of_ne hc] at hk
            have hck := hs.col c k hk
            rw [List.getElem?_append_left (List.getElem?_eq_some_iff.mp hck).1]
            exact hck
        · simp only [List.mem_append,List.mem_singleton,not_or]
          exact ⟨hs.one,fun h => hone h.symm⟩

structure RegionDone (a : Gates) (roots : List ℕ) (r : Region) : Prop where
  ready : ∀ c ∈ roots, Ready a r.col r.order c
  ordered : Ordered a r.col r.order
  col : ∀ c k, r.col c = some k → r.colNode[k]? = some c
  one : 1 ∉ r.colNode

theorem RegionOk.done {a : Gates} (hs : RegionOk a roots s) (hend : s.stack = []) :
    RegionDone a roots s := by
  refine ⟨fun c hc => ?_,hs.ordered,hs.col,hs.one⟩
  have hseen : c ∈ s.seen := by simpa [hend] using hs.root c hc
  simpa [hend] using hs.seen c hseen

theorem RegionOk.start {a : Gates} (hs : RegionOk a roots s) (hend : s.stack = []) (hid : id ≤ a.N) :
    RegionOk a (id :: roots) { s with stack := [(id,false)] } := by
  refine ⟨fun c hc => ?_,by simp,fun w hw => by simp at hw,fun c hc => ?_,hs.ordered,hs.col,
    hs.one,fun e he => ?_⟩
  · rcases mem_cons.mp hc with rfl | hc
    · exact .inr (by simp)
    · exact .inl (by simpa [hend] using hs.root c hc)
  · exact .inl (by simpa [hend] using hs.seen c hc)
  · obtain rfl : e = (id,false) := by simpa using he
    exact hid

theorem findRegion_ok {a : Gates} (ha : a.Ok) (lits : List ℤ) (hs : RegionOk a roots s)
    (hend : s.stack = []) (hl : ∀ l ∈ lits, LitIn a l) :
    ∃ r, findRegion a lits s = some r ∧ RegionDone a (lits.map idOf ++ roots) r := by
  induction lits generalizing s roots with
  | nil => exact ⟨s,rfl,hs.done hend⟩
  | cons lit lits ih =>
    have hvariant : searchVariant (smLeaves+1) (Finset.range (a.N+1)) s.seen 1 <
        (smLeaves+2) * (a.N+1) + 2 := by
      have hle := Finset.card_le_card (Finset.sdiff_subset (s := Finset.range (a.N+1)) (t := s.seen))
      rw [Finset.card_range] at hle
      simp only [searchVariant,smLeaves]
      omega
    obtain ⟨s',h,hs',hend'⟩ := loop_spec _ (regionRound_good ha (idOf lit :: roots)) _ _
      (hs.start hend (hl lit (by simp)).2) hvariant
    obtain ⟨r,hr,hdone⟩ := ih hs' hend' fun l hl' => hl l (by simp [hl'])
    refine ⟨r,by rw [findRegion,h]; exact hr,⟨fun c hc => ?_,hdone.ordered,hdone.col,hdone.one⟩⟩
    refine hdone.ready c ?_
    simp only [List.map_cons,List.cons_append,mem_cons,List.mem_append] at hc ⊢
    tauto

theorem regionOk_start (a : Gates) : RegionOk a [] .start :=
  ⟨by simp,List.Pairwise.nil,by simp [Region.start],by simp [Region.start],.nil,
    by simp [Region.start],by simp [Region.start],by simp [Region.start]⟩

def formVal (x : ℕ → Bool) (n : ℕ) (f : Form) : Bool := Gf2.dot x f.1 n ^^ f.2

def colVal (colNode : List ℕ) (v : ℕ → Bool) (k : ℕ) : Bool := v (colNode.getD k 0)

def FormsOk (order : List ℕ) (forms : ℕ → Form) (x : ℕ → Bool) (n : ℕ) (v : ℕ → Bool) : Prop :=
  ∀ id ∈ order, formVal x n (forms id) = v id

section Values

variable {a : Gates} {col : ℕ → Option ℕ} {colNode order : List ℕ} {n : ℕ} {v : ℕ → Bool}

theorem addLit_val (hv : Consistent a.L a.R v) (hcol : ∀ c k, col c = some k → colNode[k]? = some c)
    (hn : colNode.length ≤ n) (hf : FormsOk order forms (colVal colNode v) n v) {lit : ℤ}
    (hr : Ready a col order (idOf lit)) (f : Form) :
    formVal (colVal colNode v) n (addLit a col forms lit f) =
      (formVal (colVal colNode v) n f ^^ litVal v lit) := by
  unfold addLit
  by_cases h1 : idOf lit = 1
  · rw [if_pos h1,formVal,formVal,litVal,h1,hv.true_one]
    cases Gf2.dot (colVal colNode v) f.1 n <;> cases f.2 <;> simp
  rw [if_neg h1]
  by_cases h2 : gateAffine a (idOf lit) = true
  · rw [if_pos h2]
    obtain ⟨_,ho⟩ : gateAffine a (idOf lit) = true ∧ idOf lit ∈ order := by
      simpa [Ready,h1,h2] using hr
    rw [litVal,← hf _ ho,formVal,formVal,formVal]
    rw [Gf2.dot_xor]
    cases Gf2.dot (colVal colNode v) f.1 n <;> cases f.2 <;> simp [Bool.xor_comm]
  · rw [if_neg h2]
    obtain ⟨k,hk⟩ : ∃ k, col (idOf lit) = some k := by
      have : (col (idOf lit)).isSome = true := by simpa [Ready,h1,h2] using hr
      exact Option.isSome_iff_exists.mp this
    have hnode := hcol _ _ hk
    have hlt : k < n := (List.getElem?_eq_some_iff.mp hnode).1.trans_le hn
    have hx : colVal colNode v k = v (idOf lit) := by
      simp [colVal,List.getD_eq_getElem?_getD,hnode]
    rw [hk,Option.getD_some,formVal,formVal,litVal]
    rw [Gf2.dot_xor,Gf2.dot_two_pow _ hlt,hx]
    cases Gf2.dot (colVal colNode v) f.1 n <;> cases f.2 <;> simp

theorem addLeaves_val (hv : Consistent a.L a.R v)
    (hcol : ∀ c k, col c = some k → colNode[k]? = some c) (hn : colNode.length ≤ n)
    (hf : FormsOk order forms (colVal colNode v) n v) (pool : List ℕ)
    (hr : ∀ c ∈ pool, Ready a col order c) (f : Form) :
    formVal (colVal colNode v) n (pool.foldl (fun f (leaf : ℕ) => addLit a col forms leaf f) f) =
      (formVal (colVal colNode v) n f ^^ xorAll (pool.map v)) := by
  induction pool generalizing f with
  | nil => simp [xorAll]
  | cons leaf pool ih =>
    have hleaf : Ready a col order (idOf (leaf : ℤ)) := hr leaf (by simp)
    rw [List.foldl_cons,ih fun c hc => hr c (by simp [hc]),addLit_val hv hcol hn hf hleaf,litVal_natCast]
    simp [xorAll]

theorem gateForm_val (ha : a.Ok) (hv : Consistent a.L a.R v)
    (hcol : ∀ c k, col c = some k → colNode[k]? = some c) (hn : colNode.length ≤ n)
    (hf : FormsOk order forms (colVal colNode v) n v) (haff : gateAffine a id = true)
    (hr : ∀ c ∈ formNodes a id, Ready a col order c) :
    FormsOk (order ++ [id]) (gateForm a col forms id) (colVal colNode v) n v := by
  have hself : formVal (colVal colNode v) n (gateForm a col forms id id) = v id := by
    unfold gateForm
    rw [Function.update_self]
    unfold formNodes at hr
    cases hsm : a.sm id with
    | none =>
      have hxa : a.xa id ≠ 0 := by simpa [gateAffine,hsm] using haff
      rw [hsm] at hr
      rw [addLit_val hv hcol hn hf (hr _ (by simp)),addLit_val hv hcol hn hf (hr _ (by simp)),
        ha.xor_value id hxa v hv]
      simp [formVal]
    | some t =>
      rw [hsm] at hr
      rw [addLeaves_val hv hcol hn hf t.1 hr,(ha.table id t hsm).value v hv]
      simp [formVal]
  intro c hc
  by_cases hci : c = id
  · rw [hci]
    exact hself
  · have hco : c ∈ order := by simpa [hci] using hc
    rw [gateForm,update_of_ne hci]
    exact hf c hco

theorem buildForms_val (ha : a.Ok) (hv : Consistent a.L a.R v)
    (hcol : ∀ c k, col c = some k → colNode[k]? = some c) (hn : colNode.length ≤ n)
    (ho : Ordered a col order) :
    FormsOk order (order.foldl (gateForm a col) fun _ => (0,false)) (colVal colNode v) n v := by
  induction ho with
  | nil => exact fun id hid => by simp at hid
  | snoc _ haff hr ih =>
    rw [List.foldl_append]
    exact gateForm_val ha hv hcol hn ih haff hr

end Values

end Affine
end DvSolve
