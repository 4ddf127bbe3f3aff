import DvSolve.FieldsWord

/-! The field split.
What the walk records holds of the pool, the words are split one after another, and the
solutions over the variables of the problem stay as they were. -/
namespace DvSolve
namespace Fields

open Sv TwosComp
open Function (update update_apply)
open Option (bind_eq_some_iff)

/-- A declared, unsigned word of at most 64 bits. -/
def Splittable (p : Problem) (v W : ℕ) : Prop :=
  ∃ s, p.spec? v = some s ∧ s.width = W ∧ s.isSigned = false ∧ W ≤ 64

/-- The extracts recorded are in the pool, and a field starts at both ends of each. -/
structure Collected (p : Problem) (S : FdState) : Prop where
  uses : ∀ u ∈ S.use, ∃ W x, Splittable p u.var W ∧ u.lo ≤ u.hi ∧ u.hi < W ∧
    p.nodes[u.node]? = some (.extract x u.hi u.lo) ∧ p.nodes[x]? = some (.var u.var) ∧
    (S.w u.var).cuts u.lo = true ∧ (u.hi+1 < W → (S.w u.var).cuts (u.hi+1) = true)
  cuts : ∀ v b, (S.w v).cuts b = true → ∃ W, Splittable p v W ∧ b < W

variable {p : Problem}

theorem collected_new (p : Problem) : Collected p .new := ⟨by simp [FdState.new],by simp [FdState.new]⟩

theorem Collected.memo {S : FdState} (h : Collected p S) (memo : List (Ref × Bool)) :
    Collected p { S with memo := memo } := ⟨h.uses,h.cuts⟩

theorem fdCut_iff {cuts : ℕ → Bool} {W hi lo b : ℕ} :
    fdCut cuts W hi lo b = true ↔ cuts b = true ∨ b = lo ∨ b = hi+1 ∧ hi+1 < W := by
  unfold fdCut
  split_ifs with h
  · simp only [update_apply]
    split_ifs with hb hl
    · simp [hb,h]
    · simp [hl]
    · simp [hb,hl]
  · simp only [update_apply]
    split_ifs with hl
    · simp [hl]
    · simp [h,hl]

theorem update_cuts (f : ℕ → FdWord) (v : ℕ) (x : FdWord) (w b : ℕ) :
    (update f v x w).cuts b = if w = v then x.cuts b else (f w).cuts b := by
  rw [update_apply]
  split_ifs <;> rfl

theorem Collected.skip {S : FdState} (h : Collected p S) (v : ℕ) :
    Collected p { S with w := update S.w v { S.w v with skip := true } } := by
  have hw : ∀ w b, (update S.w v { S.w v with skip := true } w).cuts b = (S.w w).cuts b := by
    intro w b
    rw [update_cuts]
    split_ifs with hwv
    · rw [hwv]
    · rfl
  refine ⟨fun u hu => ?_,fun w b hb => ?_⟩
  · simpa only [hw] using h.uses u hu
  · exact h.cuts w b ((hw w b).symm.trans hb)

theorem Collected.record {S : FdState} (h : Collected p S) {r x : Ref} {v W hi lo : ℕ}
    {need : Bool} (hv : Splittable p v W) (hle : lo ≤ hi) (hlt : hi < W)
    (hr : p.nodes[r]? = some (.extract x hi lo)) (hx : p.nodes[x]? = some (.var v)) :
    Collected p { S with
      w := update S.w v
        { S.w v with need := need, cuts := fdCut (S.w v).cuts W hi lo }
      use := S.use ++ [⟨r,v,hi,lo⟩] } := by
  have hkeep : ∀ w b, (S.w w).cuts b = true → (update S.w v
      { S.w v with need := need, cuts := fdCut (S.w v).cuts W hi lo } w).cuts b = true := by
    intro w b hb
    rw [update_cuts]
    split_ifs with hwv
    · exact fdCut_iff.mpr (.inl (hwv ▸ hb))
    · exact hb
  refine ⟨fun u hu => ?_,fun w b hb => ?_⟩
  · rcases List.mem_append.mp hu with hu | hu
    · obtain ⟨W',x',hW,hle,hlt,hnode,hvar,hlo,hhi⟩ := h.uses u hu
      exact ⟨W',x',hW,hle,hlt,hnode,hvar,hkeep _ _ hlo,fun hlt => hkeep _ _ (hhi hlt)⟩
    · rw [List.mem_singleton.mp hu]
      refine ⟨W,x,hv,hle,hlt,hr,hx,?_,fun hlt => ?_⟩
      · simpa using fdCut_iff.mpr (.inr (.inl rfl))
      · simpa using fdCut_iff.mpr (.inr (.inr ⟨rfl,hlt⟩))
  · dsimp only at hb
    rw [update_cuts] at hb
    split_ifs at hb with hwv
    · subst hwv
      rcases fdCut_iff.mp hb with hb | rfl | ⟨rfl,hlt⟩
      · exact h.cuts w b hb
      · exact ⟨W,hv,by omega⟩
      · exact ⟨W,hv,hlt⟩
    · exact h.cuts w b hb

theorem Collected.extract {S : FdState} (h : Collected p S) (r : Ref) (need : Bool) :
    Collected p (fdExtract p r need S) := by
  unfold fdExtract
  split
  case h_1 x hi lo hr =>
    split
    case h_1 v hx =>
      split
      case h_1 s hs =>
        split_ifs with hsign hbad
        · exact h
        · exact h.skip v
        · have hv : Splittable p v s.width := by
            refine ⟨s,hs,rfl,?_,?_⟩
            · simpa using (not_or.mp hsign).1
            · exact not_lt.mp (not_or.mp hsign).2
          exact h.record hv (not_lt.mp (not_or.mp hbad).1) (not_le.mp (not_or.mp hbad).2) hr hx
      case h_2 => exact h
    case h_2 => exact h
  case h_2 => exact h

theorem foldlM_keeps {α β : Type*} {P : β → Prop} {f : β → α → Option β} {l : List α}
    (hf : ∀ b a b', P b → f b a = some b' → P b') {b b' : β} (hb : P b)
    (h : l.foldlM f b = some b') : P b' := by
  induction l generalizing b with
  | nil =>
    cases h
    exact hb
  | cons a l ih =>
    simp only [List.foldlM_cons,Option.bind_eq_bind,bind_eq_some_iff] at h
    obtain ⟨c,hc,h⟩ := h
    exact ih (hf b a c hb hc) h

theorem Collected.walk {depth : ℕ} {x : Ref × Bool} {S S' : FdState} (h : Collected p S)
    (hw : fdWalk p depth x S = some S') : Collected p S' := by
  induction depth generalizing x S S' with
  | zero =>
    simp only [fdWalk] at hw
    split_ifs at hw
    cases hw
    exact h
  | succ depth ih =>
    rw [fdWalk] at hw
    split at hw
    case h_1 =>
      cases hw
      exact h
    case h_2 =>
      split_ifs at hw
      · cases hw
        exact h
      · exact foldlM_keeps (fun b a b' hb hs => ih hb hs) ((h.memo _).extract _ _) hw

theorem Collected.root {depth : ℕ} {r : Ref} {S S' : FdState} (h : Collected p S)
    (hw : fdRoot p depth r S = some S') : Collected p S' := by
  induction depth generalizing r S S' with
  | zero =>
    simp only [fdRoot] at hw
    split_ifs at hw
    cases hw
    exact h
  | succ depth ih =>
    rw [fdRoot] at hw
    split at hw
    case h_1 =>
      cases hw
      exact h
    case h_2 =>
      obtain ⟨S₁,h₁,h₂⟩ := bind_eq_some_iff.mp hw
      exact ih (ih h h₁) h₂
    case h_3 =>
      split at hw
      case h_1 =>
        cases hw
        exact h.extract _ _
      case h_2 => exact h.walk hw
    case h_4 => exact h.walk hw

theorem fdCollect_collected {depth : ℕ} {S : FdState} (h : fdCollect p depth = some S) :
    Collected p S := by
  simp only [fdCollect,Option.bind_eq_bind,bind_eq_some_iff] at h
  obtain ⟨S₁,h₁,h₂⟩ := h
  have hc := foldlM_keeps (P:=Collected p) (fun _ _ _ hb hs => hb.root hs) (collected_new p) h₁
  exact foldlM_keeps (P:=Collected p) (fun _ _ _ hb hs => hb.walk hs) hc h₂

theorem le_foldl_max (l : List ℕ) (a : ℕ) : a ≤ l.foldl max a ∧ ∀ x ∈ l, x ≤ l.foldl max a := by
  induction l generalizing a with
  | nil => simp
  | cons b l ih =>
    have ⟨h₁,h₂⟩ := ih (max a b)
    simp only [List.foldl_cons,List.mem_cons,forall_eq_or_imp]
    exact ⟨(le_max_left a b).trans h₁,(le_max_right a b).trans h₁,h₂⟩

theorem Problem.varId_lt_nv {s : VarSpec} (hs : s ∈ p.vars) : s.varId < p.nv := by
  unfold nv
  cases hv : p.vars with
  | nil => simp [hv] at hs
  | cons t ts =>
    have ⟨h₁,h₂⟩ := le_foldl_max (ts.map VarSpec.varId) t.varId
    rw [hv] at hs
    simp only
    rcases List.mem_cons.mp hs with rfl | hs
    · omega
    · have := h₂ s.varId (List.mem_map_of_mem hs)
      omega

theorem WellFormed.bounded (h : WellFormed p) : Bounded p p.nv where
  nodes := by
    intro a ha v hv
    obtain ⟨s,hs,rfl⟩ := h.declared a ha v hv
    exact Problem.varId_lt_nv hs
  vars := fun s hs => Problem.varId_lt_nv hs
  once := h.once
  roots := h.roots

theorem Bounded.solution_of_agree {n : ℕ} (h : Bounded p n) {rules : Rules} {ρ ρ' : ℕ → ℤ}
    (hρ : ∀ v < n, ρ v = ρ' v) (hs : p.Solution rules ρ) : p.Solution rules ρ' := by
  refine ⟨fun s hm => ?_,fun c hc => ?_⟩
  · rw [← hρ _ (h.vars s hm)]
    exact hs.admits s hm
  · rw [← Problem.denote_congr h.nodes hρ]
    exact hs.holds c hc

/-- The problem after some words, `todo` being still to come. -/
structure Running (rules : Rules) (p : Problem) (S : FdState) (todo : List ℕ) (q : Problem)
    (m : ℕ) : Prop where
  bounded : Bounded q m
  conservative : Conservative rules p q p.nv m
  nodes : ∀ r < p.nodes.length, q.nodes[r]? = p.nodes[r]? ∨ ∃ u ∈ S.use, u.node = r ∧
    u.var ∉ todo ∧ S.skips p u.var = false ∧ ∃ id, q.nodes[r]? = some (.var id)
  specs : ∀ w < p.nv, w ∈ todo ∨ S.skips p w = true → q.spec? w = p.spec? w

variable {rules : Rules} {S : FdState} {todo : List ℕ} {q : Problem} {m v : ℕ}

theorem Running.pass (h : Running rules p S (v :: todo) q m) :
    Running rules p S todo q m where
  bounded := h.bounded
  conservative := h.conservative
  nodes := by
    intro r hr
    rcases h.nodes r hr with heq | ⟨u,hu,hur,hnot,hrest⟩
    · exact .inl heq
    · exact .inr ⟨u,hu,hur,fun hm => hnot (List.mem_cons_of_mem _ hm),hrest⟩
  specs := fun w hw hor => h.specs w hw (hor.imp_left (List.mem_cons_of_mem _))

theorem mem_uses {u : FdUse} : u ∈ S.uses v ↔ u ∈ S.use ∧ u.var = v := by
  simp [FdState.uses]

theorem Running.word (h : Running rules p S (v :: todo) q m) (hp : WellFormed p)
    (hS : Collected p S) {W : ℕ} (hv : Splittable p v W) (hpos : 0 < W) : Word S q v W := by
  obtain ⟨s,hs,hwidth,hsign,hle⟩ := hv
  have hmem : s ∈ p.vars := List.mem_of_find?_eq_some hs
  have hid : s.varId = v := by simpa using List.find?_some hs
  refine ⟨hpos,hle,⟨s,?_,hid,hwidth,hsign⟩,fun u hu => ?_⟩
  · have hq : q.spec? v = some s := by
      rw [h.specs v (hid ▸ Problem.varId_lt_nv hmem) (.inl (by simp)),hs]
    exact List.mem_of_find?_eq_some hq
  · obtain ⟨hmem,rfl⟩ := mem_uses.mp hu
    obtain ⟨W',x,⟨s',hs',hwidth',-⟩,hlo,hlt,hnode,hvar,-⟩ := hS.uses u hmem
    rw [hs,Option.some.injEq] at hs'
    have hxu : x < u.node := by
      rcases hp.order u.node _ hnode x (by simp [Node.refs]) with hx | hx
      · exact hx
      · simp [hvar] at hx
    have hlen := (List.getElem?_eq_some_iff.mp hnode).1
    refine ⟨hlo,?_,x,?_,?_,hxu⟩
    · rw [← hwidth,hs',hwidth']
      exact hlt
    · rcases h.nodes u.node hlen with heq | ⟨t,ht,htu,hnot,-⟩
      · rw [heq,hnode]
      · -- the same node is an extract of one word only
        obtain ⟨_,y,_,_,_,hty,hyv,_⟩ := hS.uses t ht
        rw [htu,hnode] at hty
        simp only [Option.some.injEq,Node.extract.injEq] at hty
        rw [← hty.1,hvar] at hyv
        simp only [Option.some.injEq,Node.var.injEq] at hyv
        exact absurd (by simp [← hyv]) hnot
    · rcases h.nodes x (hxu.trans hlen) with heq | ⟨t,ht,htx,-⟩
      · rw [heq,hvar]
      · obtain ⟨_,y,_,_,_,hty,_⟩ := hS.uses t ht
        rw [htx,hvar] at hty
        simp at hty

theorem cuts_of_not_skips (hS : Collected p S) {s : VarSpec} (hs : p.spec? v = some s)
    (h : S.skips p v = false) : ∃ c, S.cuts v c = true ∧ Splittable p v s.width ∧
      S.nFields v ≤ fdMaxSegs ∧ (S.uses v).Pairwise FdUse.Apart := by
  simp only [FdState.skips,hs,Bool.or_eq_false_iff,Bool.not_eq_false',decide_eq_true_eq,
    decide_eq_false_iff_not,not_lt,List.any_eq_true] at h
  obtain ⟨⟨⟨⟨⟨-,hapart⟩,-⟩,c,-,hc⟩,-⟩,hseg⟩ := h
  have hcut : (S.w v).cuts c = true := by
    simp only [FdState.cuts,Bool.and_eq_true] at hc
    exact hc.2
  obtain ⟨W,hW,-⟩ := hS.cuts v c hcut
  obtain ⟨s',hs',rfl,hrest⟩ := hW
  rw [hs,Option.some.injEq] at hs'
  rw [hs']
  exact ⟨c,hc,⟨s',hs' ▸ hs,rfl,hrest⟩,hseg,hapart⟩

theorem Running.split (h : Running rules p S (v :: todo) q m) (hp : WellFormed p)
    (hS : Collected p S) (hv : v ∉ todo) (hskip : S.skips p v = false) {s : VarSpec}
    (hs : p.spec? v = some s) {q' : Problem} {m' : ℕ}
    (hsplit : fdSplitWord S v s.width q m = some (q',m')) : Running rules p S todo q' m' := by
  obtain ⟨c,hc,hword,-⟩ := cuts_of_not_skips hS hs hskip
  have hcuts : ∀ b, S.cuts v b = true → b < s.width := by
    intro b hb
    simp only [FdState.cuts,Bool.and_eq_true] at hb
    obtain ⟨W,⟨t,ht,rfl,-⟩,hlt⟩ := hS.cuts v b hb.2
    rw [hs,Option.some.injEq] at ht
    rwa [ht]
  have hpos : 0 < s.width := lt_of_le_of_lt (Nat.zero_le c) (hcuts c hc)
  have hw := h.word hp hS hword hpos
  have hvnv : v < p.nv := by
    have hid : s.varId = v := by simpa using List.find?_some hs
    exact hid ▸ Problem.varId_lt_nv (List.mem_of_find?_eq_some hs)
  have hvm : v < m := lt_of_lt_of_le hvnv h.conservative.le
  have huses : ∀ u ∈ S.uses v, Bounds (S.cuts v) s.width u.lo u.hi ∧ u.node < q.nodes.length := by
    intro u hu
    obtain ⟨hle,hlt,x,hnode,-⟩ := hw.uses u hu
    refine ⟨⟨hle,hlt,?_,?_⟩,(List.getElem?_eq_some_iff.mp hnode).1⟩
    all_goals
      obtain ⟨hmem,rfl⟩ := mem_uses.mp hu
      obtain ⟨W,x,⟨t,ht,rfl,-⟩,-,-,-,-,hlo,hhi⟩ := hS.uses u hmem
      rw [hs,Option.some.injEq] at ht
      rw [← ht] at hhi
    · by_cases h0 : u.lo = 0
      · exact .inl h0
      · exact .inr (by simp [FdState.cuts,h0,hlo])
    · by_cases hW : u.hi+1 = s.width
      · exact .inl hW
      · exact .inr (by simp [FdState.cuts,hhi (by omega)])
  obtain ⟨spans,fields,cs,xv,hsw⟩ := fdSplitWord_spec rules hword.choose_spec.2.2.2 hcuts
    ⟨c,hc⟩ hvm huses hsplit
  refine ⟨hsw.bounded h.bounded,h.conservative.trans (hsw.conservative h.bounded hw),?_,?_⟩
  · intro r hr
    rcases hsw.nodes r (lt_of_lt_of_le hr h.conservative.length) with heq | ⟨u,hu,hur,t,-,-,-,heq⟩
    · rw [heq]
      rcases h.nodes r hr with heq | ⟨u,hu,hur,hnot,hrest⟩
      · exact .inl heq
      · exact .inr ⟨u,hu,hur,fun hm => hnot (List.mem_cons_of_mem _ hm),hrest⟩
    · obtain ⟨hmem,rfl⟩ := mem_uses.mp hu
      exact .inr ⟨u,hmem,hur,hv,hskip,_,heq⟩
  · intro w hw' hor
    rw [hsw.spec?_old (lt_of_lt_of_le hw' h.conservative.le)]
    have hne : w ≠ v := by
      rintro rfl
      rcases hor with hor | hor
      · exact hv hor
      · rw [hskip] at hor
        exact absurd hor (by decide)
    rw [h.specs w hw' (hor.imp_left (List.mem_cons_of_mem _))]
    cases ht : p.spec? w with
    | none => rfl
    | some t =>
      have hid : t.varId = w := by simpa using List.find?_some ht
      rw [Option.map_some,VarSpec.toAux_of_ne (hid ▸ hne)]

theorem Running.fold (hp : WellFormed p) (hS : Collected p S) (hnodup : todo.Nodup)
    (h : Running rules p S todo q m) {q' : Problem} {m' : ℕ}
    (hfold : todo.foldlM (fun (x : Problem × ℕ) v =>
      if S.skips p v then some x
      else (p.spec? v).bind fun s => fdSplitWord S v s.width x.1 x.2) (q,m) = some (q',m')) :
    Running rules p S [] q' m' := by
  induction todo generalizing q m with
  | nil =>
    cases hfold
    exact h
  | cons v todo ih =>
    obtain ⟨hv,hnodup⟩ := List.nodup_cons.mp hnodup
    simp only [List.foldlM_cons,Option.bind_eq_bind,bind_eq_some_iff] at hfold
    obtain ⟨⟨q₁,m₁⟩,hstep,hfold⟩ := hfold
    split_ifs at hstep with hskip
    · cases hstep
      exact ih hnodup h.pass hfold
    · obtain ⟨s,hs,hsplit⟩ := bind_eq_some_iff.mp hstep
      exact ih hnodup (h.split hp hS hv (by simpa using hskip) hs hsplit) hfold

theorem running_refl (rules : Rules) (hp : WellFormed p) (S : FdState) (todo : List ℕ) :
    Running rules p S todo p p.nv :=
  ⟨hp.bounded,.refl rules p p.nv,fun _ _ => .inl rfl,fun _ _ _ => rfl⟩

theorem splitFields_running (rules : Rules) (depth : ℕ) (hp : WellFormed p) :
    ∃ S m, Running rules p S [] (splitFields depth p) m ∧
      ∀ S', fdCollect p depth = some S' → S' = S ∨ splitFields depth p = p := by
  unfold splitFields fdSplit
  split_ifs
  · exact ⟨.new,p.nv,running_refl rules hp _ _,fun _ _ => .inr rfl⟩
  · cases hcollect : fdCollect p depth with
    | none => exact ⟨.new,p.nv,running_refl rules hp _ _,fun _ _ => .inr rfl⟩
    | some S =>
      simp only
      generalize hfold : (List.range p.nv).foldlM (fun (q : Problem × ℕ) v =>
        if S.skips p v then some q
        else (p.spec? v).bind fun s => fdSplitWord S v s.width q.1 q.2) (p,p.nv) = F
      cases F with
      | none => exact ⟨S,p.nv,running_refl rules hp _ _,fun _ _ => .inr rfl⟩
      | some F =>
        obtain ⟨q,m⟩ := F
        refine ⟨S,m,?_,fun S' hS' => .inl (Option.some.inj hS').symm⟩
        exact (running_refl rules hp S _).fold hp (fdCollect_collected hcollect)
          List.nodup_range hfold

theorem skips_of_crossing {p : Problem} {S : FdState} {v : ℕ}
    (h : ¬ (S.uses v).Pairwise FdUse.Apart ∨ fdMaxSegs < S.nFields v) : S.skips p v = true := by
  unfold FdState.skips
  split
  case h_1 => rfl
  case h_2 s hs => rcases h with h | h <;> simp [h]

theorem Running.unsplit {S : FdState} (h : Running rules p S [] q m) (hS : Collected p S)
    (hskip : S.skips p v = true) (hv : v < p.nv) :
    q.spec? v = p.spec? v ∧ ∀ (r x : Ref) (hi lo : ℕ), p.nodes[r]? = some (Node.extract x hi lo) →
      p.nodes[x]? = some (Node.var v) → q.nodes[r]? = p.nodes[r]? := by
  refine ⟨h.specs v hv (.inr hskip),fun r x hi lo hr hx => ?_⟩
  rcases h.nodes r (List.getElem?_eq_some_iff.mp hr).1 with heq | ⟨u,hu,rfl,-,hnot,-⟩
  · exact heq
  · obtain ⟨_,y,_,_,_,hty,hyv,_⟩ := hS.uses u hu
    rw [hr] at hty
    simp only [Option.some.injEq,Node.extract.injEq] at hty
    rw [← hty.1,hx] at hyv
    simp only [Option.some.injEq,Node.var.injEq] at hyv
    rw [← hyv,hskip] at hnot
    exact absurd hnot (by decide)

/-- The field split keeps the solutions over the variables of the problem, gives each one
extension to the new ones, keeps what every node means, and leaves alone a word with
crossing extracts or too many fields. -/
theorem splitFields_exact (rules : Rules) (depth : ℕ) (p : Problem) (hp : WellFormed p) :
    (∀ ρ, p.Solution rules ρ ↔ ∃ ρ', (∀ v < p.nv, ρ' v = ρ v) ∧ (splitFields depth p).Solution rules ρ') ∧
    (∀ ρ ρ', (splitFields depth p).Solution rules ρ → (splitFields depth p).Solution rules ρ' →
      (∀ v < p.nv, ρ v = ρ' v) → ∀ s ∈ (splitFields depth p).vars, ρ s.varId = ρ' s.varId) ∧
    (∀ ρ, (splitFields depth p).Solution rules ρ → ∀ r < p.nodes.length,
      (splitFields depth p).denote rules ρ r = p.denote rules ρ r) ∧
    ∀ S, fdCollect p depth = some S → ∀ v < p.nv,
      ¬ (S.uses v).Pairwise FdUse.Apart ∨ fdMaxSegs < S.nFields v →
      (splitFields depth p).spec? v = p.spec? v ∧
        ∀ (r x : Ref) (hi lo : ℕ), p.nodes[r]? = some (Node.extract x hi lo) → p.nodes[x]? = some (Node.var v) →
          (splitFields depth p).nodes[r]? = p.nodes[r]? := by
  obtain ⟨S,m,hrun,hcollect⟩ := splitFields_running rules depth hp
  have hc := hrun.conservative
  refine ⟨fun ρ => ⟨hc.complete ρ,?_⟩,?_,hc.same,?_⟩
  · rintro ⟨ρ',hagree,hρ'⟩
    exact hp.bounded.solution_of_agree hagree (hc.sound ρ' hρ')
  · intro ρ ρ' hρ hρ' hagree s hs
    exact hc.unique ρ ρ' hρ hρ' hagree s.varId (hrun.bounded.vars s hs)
  · intro S' hS' v hv hcross
    rcases hcollect S' hS' with rfl | heq
    · exact hrun.unsplit (fdCollect_collected hS') (skips_of_crossing hcross) hv
    · rw [heq]
      exact ⟨rfl,fun _ _ _ _ _ _ => rfl⟩

/-- A byte with `x[3:0] < x[7:4]`. -/
def nibbles : Problem where
  nodes := [.var 0,.extract 0 3 0,.extract 0 7 4,.binary .lt 1 2]
  vars := [⟨0,8,false,.rand,0,0,255⟩]
  constraints := [3]
  softs := []
  dists := []

def nibbleRules : Rules
  | .binary .lt _ _,[l,r] =>
    let t := l.ty.join r.ty
    ⟨boolTy,fun _ _ => ofBool (cmpVal .lt (l.val t.w t.s) (r.val t.w t.s))⟩
  | _,_ => .null

theorem nibbles_wellFormed : WellFormed nibbles := by
  refine ⟨by decide,by decide,fun r a hr => ?_,by decide⟩
  have hlt : r < 4 := (List.getElem?_eq_some_iff.mp hr).1
  interval_cases r <;> cases hr <;> decide

theorem nibbles_solution : nibbles.Solution nibbleRules fun _ => 81 := by
  constructor
  · simp [nibbles,VarSpec.Admits,InTy]
  · intro c hc
    simp only [nibbles,List.mem_singleton] at hc
    subst hc
    have hx : nibbles.denote nibbleRules (fun _ => 81) 0 = .unsigned 8 81 := by
      rw [Problem.denote_some rfl]
      rfl
    have hslice : ∀ {lo hi}, lo ≤ hi → hi < 8 →
        (Meaning.unsigned 8 81).extract hi lo = .unsigned (hi+1-lo) (bits 81 lo hi) :=
      Meaning.extract_unsigned (by decide)
    have hlo : nibbles.denote nibbleRules (fun _ => 81) 1 = .unsigned 4 1 := by
      rw [Problem.denote_some rfl]
      exact (congrArg (Meaning.extract · 3 0) hx).trans (hslice (by decide) (by decide))
    have hhi : nibbles.denote nibbleRules (fun _ => 81) 2 = .unsigned 4 5 := by
      rw [Problem.denote_some rfl]
      exact (congrArg (Meaning.extract · 7 4) hx).trans (hslice (by decide) (by decide))
    have hlt : nibbles.denote nibbleRules (fun _ => 81) 3 =
        nibbleRules (.binary .lt 1 2) [.unsigned 4 1,.unsigned 4 5] := by
      rw [Problem.denote_some rfl,← hlo,← hhi]
      rfl
    rw [hlt]
    unfold Meaning.Truth
    decide

/-- 81 extends to the two fields of the byte. -/
theorem splitFields_exact_nibbles : (splitFields 10 nibbles).vars.length = 3 ∧
    ∃ ρ, ρ 0 = 81 ∧ (splitFields 10 nibbles).Solution nibbleRules ρ := by
  obtain ⟨ρ,hagree,hρ⟩ :=
    ((splitFields_exact nibbleRules 10 nibbles nibbles_wellFormed).1 fun _ => 81).mp
      nibbles_solution
  exact ⟨by decide,ρ,hagree 0 (by decide),hρ⟩

end Fields
end DvSolve
