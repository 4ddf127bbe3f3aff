import DvSolve.AddNames

/-! An add that is refused changes nothing, and one that names a variable nobody declared is
refused. -/
namespace DvSolve
namespace Add

open Solver

variable {n : ℕ}
variable {refs : List (Ref n)} {s : AddCtx}

def Node.operands : Node n → List (Ref n)
  | .const | .constWide | .var _ => []
  | .binary lhs rhs => [lhs,rhs]
  | .unary x | .extend x | .extract x | .svCast x | .cast x => [x]
  | .ite cond thenE elseE => [cond,thenE,elseE]
  | .inRange value lo hi => [value,lo,hi]
  | .inSet value elems => value :: elems
  | .inRanges value ranges => value :: ranges.flatMap fun p => [p.1,p.2]
  | .concat hi lo => [hi,lo]
  | .sum result refs => result :: refs
  | .countones result operand | .clog2 result operand => [result,operand]
  | .arraySelect _ _ result index => [result,index]

def Node.ids : Node n → List ℕ
  | .var id => [id]
  | .arraySelect base nElems _ _ => (List.range nElems).map fun i => (base+i) % 2^32
  | _ => []

/-- The expressions of the constraints and soft constraints, at any depth. -/
inductive Below (p : Problem) : Fin p.size → Prop
  | root {r : Fin p.size} (h : some r ∈ p.constraints ++ p.softs) : Below p r
  | operand {r c : Fin p.size} (hr : Below p r) (hc : some c ∈ (p.nodes r).operands) : Below p c

def Names (p : Problem) (id : ℕ) : Prop :=
  (∃ r, Below p r ∧ id ∈ (p.nodes r).ids) ∨ (∃ ids ∈ p.allDiff ++ p.sources, id ∈ ids) ∨ id ∈ p.dists

/-- The context has `id`, as a problem declared it or the compile made it, or the problem
declares it. -/
def Known (s : AddCtx) (p : Problem) (id : ℕ) : Prop :=
  (id < s.ctx.nVars ∧ (s.ctx.vars id).width ≠ 0) ∨ ∃ v ∈ p.vars, v.varId = id

/-- A declaration of an id the context has, which the compile made for itself or which has
another width. -/
def Misdeclares (s : AddCtx) (v : VarSpec) : Prop :=
  v.varId < s.ctx.nVars ∧ (s.origin v.varId = .made ∨ (s.ctx.vars v.varId).width ≠ v.width)

def TooWide (s : AddCtx) (v : VarSpec) : Prop := s.ctx.nVars ≤ v.varId ∧ 64 < v.width

variable {known : ℕ → Bool} {w w' w'' : KnownWalk n}

def Seen (w : KnownWalk n) (r : Fin n) : Prop := r.val+1 ∈ w.seen

structure Sound (w : KnownWalk n) : Prop where
  roomy : KeySet.Roomy kwHash w.seen w.nSeen
  count : ∃ S : Finset (Fin n), S.card = w.nSeen ∧ ∀ r, r ∈ S ↔ Seen w r
  stack : ∀ r ∈ w.st, Seen w r

theorem Sound.nSeen_le (h : Sound w) : w.nSeen ≤ n := by
  obtain ⟨S,hS,_⟩ := h.count
  rw [← hS]
  exact S.card_le_univ.trans_eq (Fintype.card_fin n)

structure Moves (w w' : KnownWalk n) : Prop where
  seen : ∀ r, Seen w r → Seen w' r
  fresh : ∀ r, Seen w' r → Seen w r ∨ r ∈ w'.st
  stack : ∀ r ∈ w.st, r ∈ w'.st
  size : w'.st.length + w.nSeen = w.st.length + w'.nSeen
  bad : w.bad = true → w'.bad = true

theorem Moves.refl (w : KnownWalk n) : Moves w w :=
  ⟨fun _ h => h,fun _ h => .inl h,fun _ h => h,rfl,fun h => h⟩

theorem Moves.trans (h : Moves w w') (h' : Moves w' w'') : Moves w w'' where
  seen r hr := h'.seen r (h.seen r hr)
  fresh r hr := by
    rcases h'.fresh r hr with hr | hr
    · exact (h.fresh r hr).imp_right (h'.stack r)
    · exact .inr hr
  stack r hr := h'.stack r (h.stack r hr)
  size := by
    have h1 := h.size
    have h2 := h'.size
    omega
  bad hb := h'.bad (h.bad hb)

structure Marks (known : ℕ → Bool) (w w' : KnownWalk n) (ids : List ℕ) (refs : List (Ref n)) :
    Prop where
  sound : Sound w → Sound w'
  moves : Sound w → Moves w w'
  ids : w'.bad = false → ∀ id ∈ ids, known id = true
  refs : Sound w → w'.bad = false → ∀ r, some r ∈ refs → Seen w' r

theorem Marks.refl (known : ℕ → Bool) (w : KnownWalk n) : Marks known w w [] [] :=
  ⟨fun h => h,fun _ => .refl w,fun _ _ h => absurd h (by simp), fun _ _ _ h => absurd h (by simp)⟩

theorem Marks.trans {ids ids' : List ℕ} {refs' : List (Ref n)} (h : Marks known w w' ids refs)
    (h' : Marks known w' w'' ids' refs') (hbad : w'.bad = true → w''.bad = true) :
    Marks known w w'' (ids ++ ids') (refs ++ refs') := by
  have hgood : w''.bad = false → w'.bad = false := by
    intro hb
    cases hb' : w'.bad with
    | false => rfl
    | true => rw [hbad hb'] at hb; cases hb
  refine ⟨fun hs => h'.sound (h.sound hs),fun hs => (h.moves hs).trans (h'.moves (h.sound hs)),
    fun hb id hid => ?_,fun hs hb r hr => ?_⟩
  · rcases List.mem_append.mp hid with hid | hid
    · exact h.ids (hgood hb) id hid
    · exact h'.ids hb id hid
  · rcases List.mem_append.mp hr with hr | hr
    · exact (h'.moves (h.sound hs)).seen r (h.refs hs (hgood hb) r hr)
    · exact h'.refs (h.sound hs) hb r hr

theorem kwId_bad (h : w.bad = true) (id : ℕ) : (kwId known w id).bad = true := by
  unfold kwId
  split_ifs
  · exact h
  · rfl

theorem kwPush_bad (h : w.bad = true) (r : Ref n) : (kwPush w r).bad = true := by
  cases r with
  | none => exact h
  | some r => rw [kwPush,if_pos h]; exact h

theorem marks_id (known : ℕ → Bool) (w : KnownWalk n) (id : ℕ) :
    Marks known w (kwId known w id) [id] [] := by
  unfold kwId
  split_ifs with hk
  · exact ⟨fun h => h,fun _ => .refl w,fun _ x hx => by rwa [List.mem_singleton.mp hx],
      fun _ _ _ h => absurd h (by simp)⟩
  · refine ⟨fun h => ⟨h.roomy,h.count,h.stack⟩,fun _ => ?_,fun hb => absurd hb (by simp),
      fun _ _ _ h => absurd h (by simp)⟩
    exact ⟨fun _ h => h,fun _ h => .inl h,fun _ h => h,rfl,fun _ => rfl⟩

theorem push_fresh {r : Fin n} {seen : List ℕ} (hw : Sound w)
    (hseen : seen = KeySet.room kwHash w.seen w.nSeen) (hr : r.val+1 ∉ w.seen) :
    Sound { w with seen := OpenTable.place kwHash seen r r, nSeen := w.nSeen+1, st := r :: w.st } ∧
      ∀ c : Fin n, c.val+1 ∈ OpenTable.place kwHash seen r r ↔ Seen w c ∨ c = r := by
  obtain ⟨hholds,hlen,hmem⟩ := hw.roomy.room
  rw [← hseen] at hholds hlen hmem
  obtain ⟨h1,h2,h3⟩ := hholds.place r.val (by omega)
  have hiff : ∀ c : Fin n, c.val+1 ∈ OpenTable.place kwHash seen r r ↔ Seen w c ∨ c = r := by
    intro c
    rw [h3,hmem,Fin.val_inj]
    rfl
  refine ⟨⟨⟨h1,by rw [h2]; exact hlen⟩,?_,?_⟩,hiff⟩
  · obtain ⟨S,hS,hSm⟩ := hw.count
    refine ⟨insert r S,?_,fun c => ?_⟩
    · rw [Finset.card_insert_of_notMem (fun h => hr ((hSm r).mp h)),hS]
    · rw [Finset.mem_insert,hSm,Seen,Seen,hiff]
      exact or_comm
  · intro c hc
    refine (hiff c).mpr ?_
    rcases List.mem_cons.mp hc with rfl | hc
    · exact .inr rfl
    · exact .inl (hw.stack c hc)

theorem marks_push (known : ℕ → Bool) (w : KnownWalk n) (r : Ref n) :
    Marks known w (kwPush w r) [] [r] := by
  cases r with
  | none => exact ⟨fun h => h,fun _ => .refl w,fun _ _ h => absurd h (by simp),
      fun _ _ _ h => absurd h (by simp)⟩
  | some r =>
    simp only [kwPush]
    split_ifs with hb hhas
    · exact ⟨fun h => h,fun _ => .refl w,fun _ _ h => absurd h (by simp),
        fun _ hb' => absurd hb' (by simp [hb])⟩
    · -- seen before: at most the slots are renewed
      have hiff : Sound w → ∀ k, k+1 ∈ KeySet.room kwHash w.seen w.nSeen ↔ k+1 ∈ w.seen :=
        fun hw => hw.roomy.room.2.2
      refine ⟨fun hw => ?_,fun hw => ?_,fun _ _ h => absurd h (by simp),fun hw _ c hc => ?_⟩
      · obtain ⟨S,hS,hSm⟩ := hw.count
        have hroom := hw.roomy.room
        have hhalf : 2*w.nSeen ≤ (KeySet.room kwHash w.seen w.nSeen).length := by
          omega
        refine ⟨⟨hroom.1,hhalf⟩,⟨S,hS,fun c => ?_⟩,fun c hc => ?_⟩
        · rw [hSm,Seen,Seen]
          exact (hiff hw c).symm
        · exact (hiff hw c).mpr (hw.stack c hc)
      · exact ⟨fun c hc => (hiff hw c).mpr hc,fun c hc => .inl ((hiff hw c).mp hc),
          fun _ h => h,rfl,fun h => h⟩
      · obtain rfl : c = r := by simpa using hc
        exact (KeySet.has_iff hw.roomy.room.1.linked c).mp hhas
    · have hfresh : Sound w → r.val+1 ∉ w.seen := by
        intro hw hr
        refine hhas ((KeySet.has_iff hw.roomy.room.1.linked r).mpr ?_)
        exact (hw.roomy.room.2.2 r).mpr hr
      refine ⟨fun hw => (push_fresh hw rfl (hfresh hw)).1,fun hw => ?_,
        fun _ _ h => absurd h (by simp),fun hw _ c hc => ?_⟩
      · have hiff := (push_fresh hw rfl (hfresh hw)).2
        refine ⟨fun c hc => (hiff c).mpr (.inl hc),fun c hc => ?_,fun c hc => ?_,?_,fun h => h⟩
        · exact ((hiff c).mp hc).imp_right fun h => by simp [h]
        · exact List.mem_cons_of_mem r hc
        · simp only [List.length_cons]
          omega
      · obtain rfl : c = r := by simpa using hc
        exact ((push_fresh hw rfl (hfresh hw)).2 c).mpr (.inr rfl)

theorem Marks.push {ids : List ℕ} (h : Marks known w w' ids refs) (r : Ref n) :
    Marks known w (kwPush w' r) ids (refs ++ [r]) := by
  simpa using h.trans (marks_push known w' r) (fun hb => kwPush_bad hb r)

theorem Marks.id {ids : List ℕ} (h : Marks known w w' ids refs) (id : ℕ) :
    Marks known w (kwId known w' id) (ids ++ [id]) refs := by
  simpa using h.trans (marks_id known w' id) (fun hb => kwId_bad hb id)

theorem Marks.pushes {ids : List ℕ} (h : Marks known w w' ids refs) (rs : List (Ref n)) :
    Marks known w (rs.foldl kwPush w') ids (refs ++ rs) := by
  induction rs generalizing w' refs with
  | nil => simpa using h
  | cons r rs ih => simpa using ih (h.push r)

theorem Marks.pairs {ids : List ℕ} (h : Marks known w w' ids refs) (ps : List (Ref n × Ref n)) :
    Marks known w (ps.foldl (fun w p => kwPush (kwPush w p.1) p.2) w') ids
      (refs ++ ps.flatMap fun p => [p.1,p.2]) := by
  induction ps generalizing w' refs with
  | nil => simpa using h
  | cons p ps ih => simpa using ih ((h.push p.1).push p.2)

theorem Marks.idList {ids : List ℕ} (h : Marks known w w' ids refs) (xs : List ℕ) (f : ℕ → ℕ) :
    Marks known w (xs.foldl (fun w i => kwId known w (f i)) w') (ids ++ xs.map f) refs := by
  induction xs generalizing w' ids with
  | nil => simpa using h
  | cons x xs ih => simpa using ih (h.id (f x))

theorem marks_visit (known : ℕ → Bool) (w : KnownWalk n) (a : Node n) :
    Marks known w (kwVisit known w a) a.ids a.operands := by
  have h0 := Marks.refl known w
  cases a with
  | const | constWide => exact h0
  | var id => exact h0.id id
  | binary lhs rhs => exact (h0.push lhs).push rhs
  | unary x | extend x | extract x | svCast x | cast x => exact h0.push x
  | ite cond thenE elseE => exact ((h0.push cond).push thenE).push elseE
  | inRange value lo hi => exact ((h0.push value).push lo).push hi
  | inSet value elems => exact (h0.push value).pushes elems
  | inRanges value ranges => exact (h0.push value).pairs ranges
  | concat hi lo => exact (h0.push hi).push lo
  | sum result refs => exact (h0.push result).pushes refs
  | countones result operand | clog2 result operand => exact (h0.push result).push operand
  | arraySelect base nElems result index =>
    exact ((h0.idList (List.range nElems) fun i => (base+i) % 2^32).push result).push index

variable {nodes : Fin n → Node n}

def Done (known : ℕ → Bool) (nodes : Fin n → Node n) (w : KnownWalk n) (r : Fin n) : Prop :=
  (∀ id ∈ (nodes r).ids, known id = true) ∧ ∀ c, some c ∈ (nodes r).operands → Seen w c

structure Walked (known : ℕ → Bool) (nodes : Fin n → Node n) (w : KnownWalk n) : Prop where
  sound : Sound w
  done : w.bad = false → ∀ r, Seen w r → r ∉ w.st → Done known nodes w r

theorem Done.mono {r : Fin n} (h : Done known nodes w r) (hm : Moves w w') :
    Done known nodes w' r :=
  ⟨h.1,fun c hc => hm.seen c (h.2 c hc)⟩

theorem Moves.good (h : Moves w w') (hb : w'.bad = false) : w.bad = false := by
  cases hw : w.bad with
  | false => rfl
  | true => rw [h.bad hw] at hb; cases hb

theorem Walked.push (h : Walked known nodes w) (r : Ref n) : Walked known nodes (kwPush w r) := by
  have hm := marks_push known w r
  have hmoves := hm.moves h.sound
  refine ⟨hm.sound h.sound,fun hb c hc hst => ?_⟩
  rcases hmoves.fresh c hc with hc | hc
  · exact (h.done (hmoves.good hb) c hc fun hst' => hst (hmoves.stack c hst')).mono hmoves
  · exact absurd hc hst

/-- A visit of the expression taken off the stack keeps what was walked, and leaves the
stack and the expressions not yet seen fewer by one. -/
theorem Walked.visit (h : Walked known nodes w) {r : Fin n} {st : List (Fin n)}
    (hst : w.st = r :: st) :
    Walked known nodes (kwVisit known { w with st := st } (nodes r)) ∧
      (kwVisit known { w with st := st } (nodes r)).st.length + w.nSeen + 1 =
        w.st.length + (kwVisit known { w with st := st } (nodes r)).nSeen ∧
      ∀ c, Seen w c → Seen (kwVisit known { w with st := st } (nodes r)) c := by
  set w₁ : KnownWalk n := { w with st := st } with hw₁
  have hs₁ : Sound w₁ :=
    ⟨h.sound.roomy,h.sound.count,fun c hc => h.sound.stack c (hst ▸ List.mem_cons_of_mem r hc)⟩
  have hm := marks_visit known w₁ (nodes r)
  have hmoves := hm.moves hs₁
  refine ⟨⟨hm.sound hs₁,fun hb c hc hcst => ?_⟩,?_,fun c hc => hmoves.seen c hc⟩
  · by_cases hcr : c = r
    · subst hcr
      exact ⟨hm.ids hb,hm.refs hs₁ hb⟩
    · rcases hmoves.fresh c hc with hc | hc
      · refine Done.mono (w := w₁) ?_ hmoves
        refine h.done (hmoves.good hb) c hc fun hmem => ?_
        rw [hst] at hmem
        exact hcst (hmoves.stack c ((List.mem_cons.mp hmem).resolve_left hcr))
      · exact absurd hc hcst
  · have hsize := hmoves.size
    have hlen : w.st.length = st.length+1 := by rw [hst]; rfl
    have h1 : w₁.st.length = st.length := rfl
    have h2 : w₁.nSeen = w.nSeen := rfl
    omega

theorem Walked.drain (h : Walked known nodes w) {fuel : ℕ}
    (hfuel : w.st.length + (n-w.nSeen) ≤ fuel) :
    Walked known nodes (kwDrain known nodes fuel w) ∧
      ((kwDrain known nodes fuel w).bad = false → (kwDrain known nodes fuel w).st = []) ∧
      ((kwDrain known nodes fuel w).bad = false → ∀ c, Seen w c →
        Seen (kwDrain known nodes fuel w) c) := by
  induction fuel generalizing w with
  | zero =>
    refine ⟨h,fun _ => List.eq_nil_of_length_eq_zero ?_,fun _ _ hc => hc⟩
    rw [kwDrain]
    omega
  | succ fuel ih =>
    rw [kwDrain]
    cases hst : w.st with
    | nil => exact ⟨h,fun _ => hst,fun _ _ hc => hc⟩
    | cons r st =>
      simp only
      split_ifs with hb
      · exact ⟨h,fun hb' => absurd hb' (by simp [hb]),fun _ _ hc => hc⟩
      · obtain ⟨h1,h2,h3⟩ := h.visit hst
        have hle := h1.sound.nSeen_le
        obtain ⟨h4,h5,h6⟩ := ih h1 (by omega)
        exact ⟨h4,h5,fun hb' c hc => h6 hb' c (h3 c hc)⟩

theorem Walked.root (h : Walked known nodes w) (hst : w.st = []) (r : Ref n) :
    Walked known nodes (kwRoot known nodes w r) ∧
      ((kwRoot known nodes w r).bad = false → (kwRoot known nodes w r).st = [] ∧
        (∀ c, Seen w c → Seen (kwRoot known nodes w r) c) ∧
        ∀ c, r = some c → Seen (kwRoot known nodes w r) c) := by
  have hm := marks_push known w r
  have hmoves := hm.moves h.sound
  have hsize := hmoves.size
  have hle := (hm.sound h.sound).nSeen_le
  have hlen : w.st.length = 0 := by rw [hst]; rfl
  obtain ⟨h1,h2,h3⟩ := @Walked.drain _ _ _ _ (h.push r) n (by omega)
  refine ⟨h1,fun hb => ⟨h2 hb,fun c hc => h3 hb c (hmoves.seen c hc),fun c hc => ?_⟩⟩
  by_cases hb' : (kwPush w r).bad = false
  · exact h3 hb c (hm.refs h.sound hb' c (by simp [hc]))
  · -- a bad name stops the walk where it is
    have hbad : ∀ fuel, (kwDrain known nodes fuel (kwPush w r)).bad = true := by
      intro fuel
      cases fuel with
      | zero => simpa [kwDrain] using hb'
      | succ fuel =>
        rw [kwDrain]
        split
        · simpa using hb'
        · rw [if_pos (by simpa using hb')]
          simpa using hb'
    rw [kwRoot,hbad] at hb
    cases hb

structure Covered (known : ℕ → Bool) (nodes : Fin n → Node n) (roots : List (Ref n))
    (w : KnownWalk n) : Prop where
  walked : Walked known nodes w
  st : w.bad = false → w.st = []
  roots : w.bad = false → ∀ r, some r ∈ roots → Seen w r

theorem Covered.kwRoots {roots : List (Ref n)} (h : Covered known nodes roots w)
    (more : List (Ref n)) :
    Covered known nodes (roots ++ more) (kwRoots known nodes w more) := by
  induction more generalizing w roots with
  | nil => simpa [Add.kwRoots] using h
  | cons r more ih =>
    have hstep : Covered known nodes (roots ++ [r])
        (if w.bad then w else kwRoot known nodes w r) := by
      split_ifs with hb
      · exact ⟨h.walked,h.st,fun hb' => absurd hb' (by simp [hb])⟩
      · have hb' : w.bad = false := by simpa using hb
        obtain ⟨h1,h2⟩ := h.walked.root (h.st hb') r
        refine ⟨h1,fun hbr => (h2 hbr).1,fun hbr c hc => ?_⟩
        rcases List.mem_append.mp hc with hc | hc
        · exact (h2 hbr).2.1 c (h.roots hb' c hc)
        · exact (h2 hbr).2.2 c (List.mem_singleton.mp hc).symm
    simpa [Add.kwRoots] using ih hstep

theorem covered_nil (known : ℕ → Bool) (nodes : Fin n → Node n) :
    Covered known nodes [] ⟨[],0,[],false⟩ := by
  have hno : ∀ r : Fin n, ¬Seen (⟨[],0,[],false⟩ : KnownWalk n) r := fun r h => by
    simp [Seen] at h
  refine ⟨⟨⟨KeySet.roomy_nil kwHash,⟨∅,rfl,fun r => ?_⟩,fun _ h => absurd h (by simp)⟩,
    fun _ r hr => absurd hr (hno r)⟩,fun _ => rfl,fun _ _ h => absurd h (by simp)⟩
  simp [hno r]

theorem Covered.below {p : Problem} {w : KnownWalk p.size}
    (h : Covered known p.nodes (p.constraints ++ p.softs) w) (hb : w.bad = false)
    {r : Fin p.size} (hr : Below p r) : Seen w r := by
  induction hr with
  | root hr => exact h.roots hb _ hr
  | operand _ hc ih =>
    exact (h.walked.done hb _ ih (by rw [h.st hb]; exact List.not_mem_nil)).2 _ hc

theorem kwIds_bad (known : ℕ → Bool) (w : KnownWalk n) (ids : List ℕ) :
    (kwIds known w ids).bad = false ↔ w.bad = false ∧ ∀ id ∈ ids, known id = true := by
  induction ids generalizing w with
  | nil => simp [kwIds]
  | cons id ids ih =>
    rw [kwIds,List.foldl_cons,← kwIds,ih]
    unfold kwId
    split_ifs with hk
    · simp [hk]
    · simp [hk]

theorem kwIdLists_bad (known : ℕ → Bool) (w : KnownWalk n) (lists : List (List ℕ)) :
    (lists.foldl (fun w ids => if w.bad then w else kwIds known w ids) w).bad = false ↔
      w.bad = false ∧ ∀ ids ∈ lists, ∀ id ∈ ids, known id = true := by
  induction lists generalizing w with
  | nil => simp
  | cons ids lists ih =>
    rw [List.foldl_cons,ih]
    by_cases hb : w.bad = true
    · simp [hb]
    · rw [if_neg hb,kwIds_bad]
      simp [and_assoc]

theorem kwIdsGuarded_bad (known : ℕ → Bool) (w : KnownWalk n) (ids : List ℕ) :
    (ids.foldl (fun w id => if w.bad then w else kwId known w id) w).bad = false ↔
      w.bad = false ∧ ∀ id ∈ ids, known id = true := by
  induction ids generalizing w with
  | nil => simp
  | cons id ids ih =>
    rw [List.foldl_cons,ih]
    by_cases hb : w.bad = true
    · simp [hb]
    · rw [if_neg hb,kwId]
      split_ifs with hk
      · simp [hk]
      · simp [hk]

theorem addMine_spec (base : ℕ) (vars : List VarSpec) {i : ℕ}
    (h : addMine base vars i = true) : ∃ v ∈ vars, v.varId = base+i := by
  have hgen : ∀ (vars : List VarSpec) (mine : ℕ → Bool),
      vars.foldl (fun mine v => if v.varId ≥ base then Function.update mine (v.varId-base) true
        else mine) mine i = true → mine i = true ∨ ∃ v ∈ vars, v.varId = base+i := by
    intro vars
    induction vars with
    | nil => exact fun mine h => .inl h
    | cons v vars ih =>
      intro mine h
      rw [List.foldl_cons] at h
      rcases ih _ h with h | ⟨v',hv',hid⟩
      · split_ifs at h with hge
        · by_cases hi : i = v.varId-base
          · exact .inr ⟨v,by simp,by omega⟩
          · rw [Function.update_of_ne hi] at h
            exact .inl h
        · exact .inl h
      · exact .inr ⟨v',by simp [hv'],hid⟩
  simpa using hgen vars _ h

theorem known_of_knownId {p : Problem} {id : ℕ} (h : knownId s p s.ctx.nVars id = true) :
    Known s p id := by
  unfold knownId at h
  split_ifs at h with hlt
  · exact .inl ⟨hlt,by simpa using h⟩
  · obtain ⟨v,hv,hid⟩ := addMine_spec _ _ (Bool.and_eq_true_iff.mp h).2
    exact .inr ⟨v,hv,by omega⟩

theorem addNamesKnown_spec (s : AddCtx) (p : Problem) :
    addNamesKnown s p s.ctx.nVars = badVar ∨
      addNamesKnown s p s.ctx.nVars = 0 ∧ ∀ id, Names p id → Known s p id := by
  simp only [addNamesKnown]
  set known := knownId s p s.ctx.nVars with hknown
  have hcov := ((covered_nil known p.nodes).kwRoots p.constraints).kwRoots p.softs
  generalize kwRoots known p.nodes (kwRoots known p.nodes ⟨[],0,[],false⟩ p.constraints)
    p.softs = w at hcov
  split_ifs with hb
  · exact .inl rfl
  · refine .inr ⟨rfl,fun id hid => known_of_knownId ?_⟩
    rw [Bool.not_eq_true,kwIdsGuarded_bad,kwIdLists_bad,kwIdLists_bad] at hb
    obtain ⟨⟨⟨hw,had⟩,hsrc⟩,hdist⟩ := hb
    rcases hid with ⟨r,hr,hid⟩ | ⟨ids,hids,hid⟩ | hid
    · have hseen := hcov.below hw hr
      exact (hcov.walked.done hw r hseen (by rw [hcov.st hw]; exact List.not_mem_nil)).1 id hid
    · rcases List.mem_append.mp hids with hids | hids
      · exact had ids hids id hid
      · exact hsrc ids hids id hid
    · exact hdist id hid

theorem checkVars_spec (s : AddCtx) (vars : List VarSpec) :
    (checkVars s s.ctx.nVars vars = 0 ∧ (∀ v ∈ vars, ¬Misdeclares s v) ∧
        ∀ v ∈ vars, s.ctx.nVars ≤ v.varId → v.width ≤ 64) ∨
      checkVars s s.ctx.nVars vars = badVar ∨
      checkVars s s.ctx.nVars vars = unsupportedWidth ∧ ∃ v ∈ vars, TooWide s v := by
  induction vars with
  | nil => exact .inl ⟨rfl,by simp,by simp⟩
  | cons v vars ih =>
    rw [checkVars]
    split_ifs with hlt hbad h0 hwide
    · exact .inr (.inl rfl)
    · rcases ih with ⟨h1,h2,h3⟩ | h | ⟨h1,v',hv',h2⟩
      · refine .inl ⟨h1,?_,?_⟩
        · rintro v' hv' ⟨hlt',hmis⟩
          rcases List.mem_cons.mp hv' with rfl | hv'
          · exact hbad (by simpa [AddCtx.declared] using hmis)
          · exact h2 v' hv' ⟨hlt',hmis⟩
        · intro v' hv' hge
          rcases List.mem_cons.mp hv' with rfl | hv'
          · omega
          · exact h3 v' hv' hge
      · exact .inr (.inl h)
      · exact .inr (.inr ⟨h1,v',by simp [hv'],h2⟩)
    · exact .inr (.inl rfl)
    · exact .inr (.inr ⟨rfl,v,by simp,by omega,hwide⟩)
    · rcases ih with ⟨h1,h2,h3⟩ | h | ⟨h1,v',hv',h2⟩
      · refine .inl ⟨h1,?_,?_⟩
        · rintro v' hv' ⟨hlt',hmis⟩
          rcases List.mem_cons.mp hv' with rfl | hv'
          · omega
          · exact h2 v' hv' ⟨hlt',hmis⟩
        · intro v' hv' hge
          rcases List.mem_cons.mp hv' with rfl | hv'
          · omega
          · exact h3 v' hv' hge
      · exact .inr (.inl h)
      · exact .inr (.inr ⟨h1,v',by simp [hv'],h2⟩)

def Ran (rc : ℤ) : Prop := rc = -1 ∨ rc = -2 ∨ 0 ≤ rc

theorem Ran.not_refused {rc : ℤ} (h : Ran rc) : rc ≠ badVar ∧ rc ≠ unsupportedWidth := by
  unfold badVar unsupportedWidth
  rcases h with h | h | h <;> omega

theorem initVars_ran (O : Ops) (base : ℕ) (vars : List VarSpec)
    (h : ∀ v ∈ vars, base ≤ v.varId → v.width ≤ 64) (s : AddCtx) :
    Ran (initVars O base vars s).2 := by
  induction vars generalizing s with
  | nil => exact .inr (.inr le_rfl)
  | cons v vars ih =>
    have hrest : ∀ s, Ran (initVars O base vars s).2 := ih fun v' hv' => h v' (by simp [hv'])
    simp only [initVars]
    split_ifs with hcap hge hnarrow hw hok
    · exact .inl rfl
    · exact hrest _
    · exact hrest _
    · exact .inl rfl
    · exact absurd (h v (by simp) hge) hw
    · exact hrest _

theorem compileConstraints_ran (O : Ops) (q : Problem) (roots : List (Ref q.size)) (k : ℕ)
    (s : AddCtx) : Ran (compileConstraints O q roots k s).2 := by
  induction roots generalizing k s with
  | nil => exact .inr (.inr (Int.natCast_nonneg k))
  | cons root roots ih =>
    simp only [compileConstraints]
    split_ifs
    · exact .inr (.inl rfl)
    · exact ih _ _
    · exact ih _ _

theorem compileAdded_ran (O : Ops) (q : Problem) (base : ℕ) (top : Option ℕ) (s : AddCtx) :
    Ran (compileAdded O q base top s).2 := by
  have hk := compileConstraints_ran O q q.constraints 0 s
  unfold compileAdded
  generalize compileConstraints O q q.constraints 0 s = r at hk ⊢
  obtain ⟨s,k⟩ := r
  simp only at hk ⊢
  -- every way out answers a code of its own or the count `k`
  split_ifs
  all_goals first
    | exact hk
    | exact .inl rfl
    | exact .inr (.inl rfl)
    | exact .inr (.inr (by simp only; omega))

theorem addConstraintBody_refused (O : Ops) (q : Problem) (s : AddCtx)
    (h : (addConstraintBody O q s).2 = badVar ∨ (addConstraintBody O q s).2 = unsupportedWidth) :
    (addConstraintBody O q s).1 = s := by
  have hno : ∀ r : AddCtx × ℤ, Ran r.2 → r.2 = badVar ∨ r.2 = unsupportedWidth → r.1 = s :=
    fun r hr h => absurd h (not_or.mpr ⟨hr.not_refused.1,hr.not_refused.2⟩)
  simp only [addConstraintBody] at h ⊢
  split_ifs at h ⊢ with hrc hnk hok hinit
  · rfl
  · rfl
  · exact hno _ (.inl rfl) h
  · obtain ⟨_,_,hwide⟩ | hrefused := checkVars_spec s q.vars
    · exact hno _ (initVars_ran O _ q.vars hwide _) h
    · exact absurd hrc (by rcases hrefused with h | ⟨h,_⟩ <;> rw [h] <;> decide)
  · exact hno _ (compileAdded_ran O q _ _ _) h

theorem addConstraintBody_bad (O : Ops) (q : Problem) (s : AddCtx)
    (h : (∃ v ∈ q.vars, Misdeclares s v) ∨ ∃ id, Names q id ∧ ¬Known s q id) :
    (addConstraintBody O q s).2 = badVar ∨
      (addConstraintBody O q s).2 = unsupportedWidth ∧ ∃ v ∈ q.vars, TooWide s v := by
  simp only [addConstraintBody]
  rcases checkVars_spec s q.vars with ⟨h0,hok,_⟩ | hbad | ⟨hwide,hv⟩
  · rw [h0,if_neg (by decide)]
    rcases addNamesKnown_spec s q with hnk | ⟨_,hknown⟩
    · rw [hnk,if_pos (by decide)]
      exact .inl rfl
    · rcases h with ⟨v,hv,hmis⟩ | ⟨id,hid,hno⟩
      · exact absurd hmis (hok v hv)
      · exact absurd (hknown id hid) hno
  · rw [hbad,if_pos (by decide)]
    exact .inl rfl
  · rw [hwide,if_pos (by decide)]
    exact .inr ⟨rfl,hv⟩

theorem nomemCheck_refused {rc : ℤ}
    (h : nomemCheck s rc = badVar ∨ nomemCheck s rc = unsupportedWidth) :
    rc = badVar ∨ rc = unsupportedWidth := by
  unfold nomemCheck at h
  split_ifs at h with hov
  · exact absurd h (by decide)
  · exact h

theorem nomemCheck_of_refused {rc : ℤ} (h : rc = badVar ∨ rc = unsupportedWidth) :
    nomemCheck s rc = rc := by
  unfold nomemCheck
  rw [if_neg]
  rintro ⟨_,h1,h2⟩
  exact h.elim h2 h1

/-- Outside a search an add answers `badVar` when elaboration meets an unknown variable,
or when an item of the problem elaboration and the rewriting of masks leave names a
variable neither the context nor the problem has, or a declaration of it does not agree
with the context; only a new variable too wide to search may be reported in its place.
And an add that is refused leaves the context as it was, but for the key that shared
memory goes by. -/
theorem addConstraint_refuses (O : Ops) (p : Problem) (s : AddCtx) (h : s.searchSealed = false) :
    (O.elaborate (ctxVarType s) p = .error .unknownVar → (addConstraint O p s).2 = badVar) ∧
    (∀ q, (O.elaborate (ctxVarType s) p).map (O.rewriteMasks (ctxVarType s)) = .ok q →
      ((∃ v ∈ q.vars, Misdeclares s v) ∨ ∃ id, Names q id ∧ ¬Known s q id) →
      (addConstraint O p s).2 = badVar ∨
        (addConstraint O p s).2 = unsupportedWidth ∧ ∃ v ∈ q.vars, TooWide s v) ∧
    ((addConstraint O p s).2 = badVar ∨ (addConstraint O p s).2 = unsupportedWidth →
      (addConstraint O p s).1 = { s with problemFp := 0 }) := by
  set s₀ : AddCtx := { s with problemFp := 0 } with hs₀
  have hstart : addConstraint O p s = solverAddConstraint O p s₀ := by
    rw [addConstraint,searchDiscard]
    simp [h,hs₀]
  have htype : ctxVarType s₀ = ctxVarType s := rfl
  rw [hstart,solverAddConstraint,htype]
  cases hel : O.elaborate (ctxVarType s) p with
  | error e =>
    refine ⟨?_,fun q hq => absurd hq (by simp [Except.map]),fun _ => rfl⟩
    intro he
    cases he
    rfl
  | ok q₀ =>
    refine ⟨fun he => absurd he (by simp),fun q hq hbad => ?_,fun hrc => ?_⟩
    · obtain rfl : O.rewriteMasks (ctxVarType s) q₀ = q := by simpa [Except.map] using hq
      have hbody := addConstraintBody_bad O (O.rewriteMasks (ctxVarType s) q₀) s₀ hbad
      have hsame := nomemCheck_of_refused
        (s := (addConstraintBody O (O.rewriteMasks (ctxVarType s) q₀) s₀).1)
        (hbody.imp_right And.left)
      simp only
      rw [hsame]
      exact hbody
    · exact addConstraintBody_refused O _ s₀ (nomemCheck_refused hrc)

def compiled : AddCtx where
  ctx :=
    { vars := fun i => if i < 2 then initTier0 8 false 0#64 255#64 else initTier0 0 false 0#64 0#64
      nVars := 2
      props := fun _ => ⟨none,0,0,false,false,.done .ok⟩
      poolTop := 0, nProps := 0, propRefs := fun _ => none, propCapacity := 0
      guardVars := fun _ => none, guardIx := none, guardDirty := false, growable := true
      watchers := fun _ => [], queue := .empty, unassignedMask := 3#64
      dynamic := [], trailTop := none, trailCount := 0, entailTop := none
      levelMarks := fun _ => ⟨0,none,0,none⟩, decisionLevel := 0
      currentPropRef := none, currentFlags := 0 }
  origin i := if i = 0 then .declared else .made
  varAlias i := i
  nVarsCapacity := 64
  initialVars := none
  initialNVars := 2
  nCheckpoints := 0
  scopeBounds := []
  overflow := false
  problemFp := 1
  searchSealed := false
  searchBase := 0

/-- Elaboration finds nothing to do, and nothing is left to propagate. -/
def quiet : Ops where
  elaborate _ p := .ok p
  rewriteMasks _ p := p
  reserveVars _ s := (s,true)
  wideBounds s := (s,true)
  compileConstraint _ _ s := (s,0)
  addAllDifferent _ s := (s,true)
  logScopeBounds _ s := (s,true)
  joinSnapshot _ _ s := s
  snapshotAddedVars _ s := (s,true)
  propagate s := (s,.ok,false)

/-- A constraint `!(x9 & x0) & !(x9 & x0)`, with one pool place for each expression. -/
def shared : Problem where
  size := 5
  nodes := ![.var 9,.var 0,.binary (some 0) (some 1),.unary (some 2),.binary (some 3) (some 3)]
  vars := []
  constraints := [some 4]
  softs := []
  allDiff := []
  sources := []
  dists := []

/-- An unknown name below an expression used twice is found, and the context stays. -/
theorem addConstraint_refuses_shared :
    (addConstraint quiet shared compiled).2 = badVar ∧
      (addConstraint quiet shared compiled).1 = { compiled with problemFp := 0 } := by
  obtain ⟨_,h2,h3⟩ := addConstraint_refuses quiet shared compiled rfl
  have h4 : Below shared (4 : Fin 5) := .root (by decide)
  have h3' : Below shared (3 : Fin 5) := h4.operand (by decide)
  have h2' : Below shared (2 : Fin 5) := h3'.operand (by decide)
  have h0 : Below shared (0 : Fin 5) := h2'.operand (by decide)
  have hbad : (addConstraint quiet shared compiled).2 = badVar := by
    have hno : ¬Known compiled shared 9 := by
      rintro (⟨hlt,_⟩ | ⟨v,hv,_⟩)
      · exact absurd hlt (by decide)
      · exact absurd hv (by simp [shared])
    rcases h2 shared rfl (.inr ⟨9,.inl ⟨(0 : Fin 5),h0,by decide⟩,hno⟩) with h | ⟨_,v,hv,_⟩
    · exact h
    · exact absurd hv (by simp [shared])
  exact ⟨hbad,h3 (.inl hbad)⟩

def sourceOf (id : ℕ) (vars : List VarSpec) : Problem where
  size := 0
  nodes := fun r => r.elim0
  vars := vars
  constraints := []
  softs := []
  allDiff := []
  sources := [[id]]
  dists := []

/-- The pool of `x2 < 300`, with one expression of it as constraint. -/
def below (root : Fin 3) : Problem where
  size := 3
  nodes := ![.var 2,.const,.binary (some 0) (some 1)]
  vars := []
  constraints := [some root]
  softs := []
  allDiff := []
  sources := []
  dists := []

/-- The compiled problem after an add that declared id 3, so that id 2 is a gap. -/
def gapped : AddCtx :=
  { compiled with
    ctx :=
      { compiled.ctx with
        vars := Function.update compiled.ctx.vars 3 (initTier0 8 false 0#64 255#64)
        nVars := 4 }
    origin := Function.update compiled.origin 3 .declared }

/-- Elaboration of `x2 < 300` where `x2` has no bits: every value is below, and a constant is
left. -/
def folding : Ops :=
  { quiet with
    compileConstraint := fun _ _ s => (s,1)
    elaborate := fun types p =>
      if types 2 = some (0,false) then .ok (below 1) else .ok p }

/-- A source may name a variable that no problem declared but the compile made; a new
variable of 65 bits is reported before an unknown name; and a name that elaboration folds away
is not looked up. -/
theorem addConstraint_accepts_made :
    (Names (sourceOf 1 []) 1 ∧ compiled.origin 1 = .made ∧ (∀ v ∈ (sourceOf 1 []).vars, v.varId ≠ 1) ∧
      (addConstraint quiet (sourceOf 1 []) compiled).2 = 0) ∧
    (Names (sourceOf 9 [⟨2,65,false,false,0#64,0#64⟩]) 9 ∧
      ¬Known compiled (sourceOf 9 [⟨2,65,false,false,0#64,0#64⟩]) 9 ∧
      (addConstraint quiet (sourceOf 9 [⟨2,65,false,false,0#64,0#64⟩]) compiled).2 = unsupportedWidth) ∧
    Names (below 2) 2 ∧ ¬Known gapped (below 2) 2 ∧ (addConstraint folding (below 2) gapped).2 = 0 := by
  refine ⟨⟨.inr (.inl ⟨[1],by simp [sourceOf],by simp⟩),by decide,by simp [sourceOf],by decide⟩,
    ⟨.inr (.inl ⟨[9],by simp [sourceOf],by simp⟩),?_,by decide⟩,
    .inl ⟨(0 : Fin 3),.operand (.root (r:=(2 : Fin 3)) (by decide)) (by decide),by decide⟩,?_,
    by decide +kernel⟩
  · rintro (⟨hlt,_⟩ | ⟨v,hv,hid⟩)
    · exact absurd hlt (by decide)
    · obtain rfl : v = ⟨2,65,false,false,0#64,0#64⟩ := by simpa [sourceOf] using hv
      exact absurd hid (by decide)
  · rintro (⟨_,hw⟩ | ⟨v,hv,_⟩)
    · exact hw (by decide)
    · exact absurd hv (by simp [below])

end Add
end DvSolve
