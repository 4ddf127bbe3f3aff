import DvSolve.CubeSem

/-! The verdicts of the two ways to conquer.
Under every order of the workers' steps the outstanding cubes cover the models, until a
region is given up or a worker has found a model; the pool then stops, and otherwise
only when nothing is outstanding or a portfolio worker has refuted the clauses. -/
namespace DvSolve
namespace Cubes

open Cnf

variable {unresolved : Bool} {q : List Cube} {a b w : Worker}

structure Verdict (clauses : List (List ℤ)) (r : CubeResult) (m : Option (ℕ → Bool)) :
    Prop where
  unsat : r = .unsat → ∀ v, ¬ Satisfies v clauses
  sat : r = .sat → ∃ v, m = some v ∧ Satisfies v clauses

def Event.Right (clauses : List (List ℤ)) (cfg : Config) (s : Pool) : Event → Prop
  | .finish i ch => ∀ c tcSnap, s.workers[i]? = some (.solving c tcSnap) →
      ch.Right clauses cfg c
  | .port _ rc => rc.Right clauses []
  | _ => True

def Pool.RightRun (clauses : List (List ℤ)) (cfg : Config) : Pool → List Event → Prop
  | _, [] => True
  | s, e :: es => e.Right clauses cfg s ∧
      ∀ s', s.step cfg e = some s' → Pool.RightRun clauses cfg s' es

def SequentialRight (clauses : List (List ℤ)) (cfg : Config) :
    List (Option Choice) → List Cube → ℕ → Prop
  | some ch :: chs, c :: q, total => ch.Right clauses cfg c ∧
      match conquer cfg ch total total c with
      | .sat _ => True
      | .refuted => SequentialRight clauses cfg chs q total
      | .kids ks => SequentialRight clauses cfg chs (pushKids ch.push 0 q total ks).1
          (pushKids ch.push 0 q total ks).2.1
  | _, _, _ => True

/-- The queue, the count and the flag at the head of the loop of `runSequential` after
the rounds of `chs`; none when it has returned. -/
def rounds (cfg : Config) : List Choice → List Cube → ℕ → Bool → Option (List Cube × ℕ × Bool)
  | [], q, total, unresolved => some (q,total,unresolved)
  | _ :: _, [], _, _ => none
  | ch :: chs, c :: q, total, unresolved =>
    match conquer cfg ch total total c with
    | .sat _ => none
    | .refuted => rounds cfg chs q total unresolved
    | .kids ks => rounds cfg chs (pushKids ch.push 0 q total ks).1
        (pushKids ch.push 0 q total ks).2.1
        (unresolved || ks.isEmpty || (pushKids ch.push 0 q total ks).2.2)

def Worker.isSolving : Worker → Bool
  | .solving _ _ => true
  | _ => false

def Pool.Outstanding (s : Pool) (c : Cube) : Prop :=
  c ∈ s.q ∨ ∃ tcSnap, .solving c tcSnap ∈ s.workers

/-- Every model of the clauses lies in an outstanding cube. -/
def Pool.Covered (clauses : List (List ℤ)) (s : Pool) : Prop :=
  ∀ v, Satisfies v clauses → ∃ c, s.Outstanding c ∧ Holds v c.lits

structure Pool.Guarded (clauses : List (List ℤ)) (s : Pool) : Prop where
  cover : s.unresolved = true ∨ s.result = .sat ∨ s.Covered clauses
  active : s.active = s.workers.countP Worker.isSolving
  result : s.result = .sat ∨ s.result = .unsat
  winner : s.result = .sat → ∃ v, s.winner = some v ∧ Satisfies v clauses
  port : s.portUnsat = true → ∀ v, ¬ Satisfies v clauses
  stop : s.stop = true → s.result = .sat ∨ s.portUnsat = true ∨ ∀ c, ¬ s.Outstanding c

variable {clauses : List (List ℤ)} {cfg : Config}

/-- What was queued stays; without a failed push the children are queued too. -/
theorem pushKids_queue (push : ℕ → Bool) (i : ℕ) (q : List Cube) (total : ℕ)
    (ks : List Cube) :
    (∀ c ∈ q, c ∈ (pushKids push i q total ks).1) ∧ ((pushKids push i q total ks).2.2 = false →
        ∀ c ∈ ks, c ∈ (pushKids push i q total ks).1) := by
  induction ks generalizing i q total with
  | nil => simp [pushKids]
  | cons k ks ih =>
    rw [pushKids]
    by_cases hp : push i = true
    · rw [if_pos hp]
      have ⟨hq,hks⟩ := ih (i+1) (q ++ [k]) (total+1)
      constructor
      · intro c hc
        exact hq c (List.mem_append_left _ hc)
      · intro hf c hc
        rcases List.mem_cons.mp hc with rfl | hc
        · exact hq c (by simp)
        · exact hks hf c hc
    · rw [if_neg hp]
      exact ⟨fun c hc => hc,by simp⟩

theorem runSequential_nil (chs : List (Option Choice)) (total : ℕ) (unresolved : Bool) :
    runSequential cfg chs [] total unresolved = some (if unresolved then .unknown else .unsat,none) := by
  cases chs with
  | nil => rfl
  | cons o chs => cases o <;> rfl

theorem verdict_of_drained (h : unresolved = true ∨ Covers clauses [] []) :
    Verdict clauses (if unresolved then .unknown else .unsat) none := by
  cases unresolved with
  | true => exact ⟨by simp,by simp⟩
  | false =>
    have hc := h.resolve_left (by simp)
    exact ⟨fun _ v hv => by simpa using hc v hv (holds_nil v),by simp⟩

theorem covers_cons_refuted {c : Cube} (hc : Refuted clauses c.lits)
    (h : Covers clauses [] (c :: q)) : Covers clauses [] q := by
  intro v hv hn
  obtain ⟨d,hd,hh⟩ := h v hv hn
  rcases List.mem_cons.mp hd with rfl | hd
  · exact absurd hh (hc v hv)
  · exact ⟨d,hd,hh⟩

theorem covers_cons_kids {c : Cube} {ks : List Cube} (hks : (Outcome.kids ks).Right clauses c.lits)
    (h : unresolved = true ∨ Covers clauses [] (c :: q)) (push : ℕ → Bool) (total : ℕ) :
    (unresolved || ks.isEmpty || (pushKids push 0 q total ks).2.2) = true ∨
      Covers clauses [] (pushKids push 0 q total ks).1 := by
  have ⟨hq,hk⟩ := pushKids_queue push 0 q total ks
  rcases hks with rfl | hks
  · exact .inl (by simp)
  · cases hp : (pushKids push 0 q total ks).2.2 with
    | true => exact .inl (Bool.or_true _)
    | false =>
      apply h.imp (fun h => by simp [h])
      intro h v hv hn
      obtain ⟨d,hd,hh⟩ := h v hv hn
      rcases List.mem_cons.mp hd with rfl | hd
      · obtain ⟨k,hkm,hkh⟩ := hks v hv hh
        exact ⟨k,hk hp k hkm,hkh⟩
      · exact ⟨d,hq d hd,hh⟩

theorem rounds_covers (hors : ∀ g ∈ cfg.ors, Asserted clauses g) {chs : List Choice}
    {q' : List Cube} {total total' : ℕ} {unresolved' : Bool}
    (hright : SequentialRight clauses cfg (chs.map some) q total)
    (hcov : unresolved = true ∨ Covers clauses [] q)
    (h : rounds cfg chs q total unresolved = some (q',total',unresolved')) :
    unresolved' = true ∨ Covers clauses [] q' := by
  induction chs generalizing q total unresolved with
  | nil =>
    simp only [rounds,Option.some.injEq,Prod.mk.injEq] at h
    rwa [← h.1,← h.2.2]
  | cons ch chs ih =>
    cases q with
    | nil => simp [rounds] at h
    | cons c q =>
      obtain ⟨hch,hright⟩ := hright
      have hc := conquer_right hors hch total total
      rw [rounds] at h
      cases ho : conquer cfg ch total total c with
      | sat v => simp [ho] at h
      | refuted =>
        rw [ho] at h hc hright
        exact ih hright (hcov.imp_right (covers_cons_refuted hc)) h
      | kids ks =>
        rw [ho] at h hc hright
        exact ih hright (covers_cons_kids hc hcov ch.push total) h

/-- Without a winner, a drained queue has refuted the clauses or given a region up. -/
theorem runSequential_verdict (hors : ∀ g ∈ cfg.ors, Asserted clauses g)
    {chs : List (Option Choice)} {total : ℕ} {r : CubeResult} {m : Option (ℕ → Bool)}
    (hright : SequentialRight clauses cfg chs q total)
    (hcov : unresolved = true ∨ Covers clauses [] q)
    (h : runSequential cfg chs q total unresolved = some (r,m)) : Verdict clauses r m := by
  induction chs generalizing q total unresolved with
  | nil =>
    cases q with
    | nil =>
      simp only [runSequential_nil,Option.some.injEq,Prod.mk.injEq] at h
      rw [← h.1,← h.2]
      exact verdict_of_drained hcov
    | cons c q => simp [runSequential] at h
  | cons o chs ih =>
    cases q with
    | nil =>
      simp only [runSequential_nil,Option.some.injEq,Prod.mk.injEq] at h
      rw [← h.1,← h.2]
      exact verdict_of_drained hcov
    | cons c q =>
      cases o with
      | none =>
        simp only [runSequential,Option.some.injEq,Prod.mk.injEq] at h
        rw [← h.1,← h.2]
        exact ⟨by simp,by simp⟩
      | some ch =>
        obtain ⟨hch,hright⟩ := hright
        have hc := conquer_right hors hch total total
        rw [runSequential] at h
        cases ho : conquer cfg ch total total c with
        | sat v =>
          rw [ho] at h hc
          simp only [Option.some.injEq,Prod.mk.injEq] at h
          rw [← h.1,← h.2]
          exact ⟨by simp,fun _ => ⟨v,rfl,hc⟩⟩
        | refuted =>
          rw [ho] at h hc hright
          exact ih hright (hcov.imp_right (covers_cons_refuted hc)) h
        | kids ks =>
          rw [ho] at h hc hright
          have hnext := covers_cons_kids hc hcov ch.push total
          cases ks with
          | nil => exact ih hright (.inl rfl) h
          | cons k ks =>
            rw [List.isEmpty_cons,Bool.or_false] at hnext
            exact ih hright hnext h

theorem mem_set_of_mem {α : Type*} {l : List α} {i : ℕ} {a b x : α} (hi : l[i]? = some a)
    (hx : x ∈ l) : x = a ∨ x ∈ l.set i b := by
  obtain ⟨j,hj⟩ := List.mem_iff_getElem?.mp hx
  by_cases hij : i = j
  · rw [← hij,hi,Option.some.injEq] at hj
    exact .inl hj.symm
  · apply Or.inr
    apply List.mem_iff_getElem?.mpr
    exact ⟨j,by rw [List.getElem?_set_ne hij,hj]⟩

theorem countP_set_getElem? {α : Type*} {p : α → Bool} {l : List α} {i : ℕ} {a b : α}
    (hi : l[i]? = some a) :
    (l.set i b).countP p + (p a).toNat = l.countP p + (p b).toNat := by
  induction l generalizing i with
  | nil => simp at hi
  | cons x l ih =>
    cases i with
    | zero =>
      simp only [List.getElem?_cons_zero,Option.some.injEq] at hi
      subst hi
      simp only [List.set_cons_zero,List.countP_cons]
      cases p x <;> cases p b <;> simp
    | succ i =>
      have := ih (i:=i) (by simpa using hi)
      simp only [List.set_cons_succ,List.countP_cons]
      omega

theorem outstanding_set_iff {s : Pool} {i : ℕ} (hi : s.workers[i]? = some a)
    (ha : a.isSolving = false) (hb : b.isSolving = false) (c : Cube) :
    ({ s with workers := s.workers.set i b } : Pool).Outstanding c ↔ s.Outstanding c := by
  apply or_congr_right
  constructor
  · rintro ⟨tcSnap,hm⟩
    rcases List.mem_or_eq_of_mem_set hm with hm | rfl
    · exact ⟨tcSnap,hm⟩
    · simp [Worker.isSolving] at hb
  · rintro ⟨tcSnap,hm⟩
    rcases mem_set_of_mem hi hm with rfl | hm
    · simp [Worker.isSolving] at ha
    · exact ⟨tcSnap,hm⟩

theorem countP_set_idle {l : List Worker} {i : ℕ} (hi : l[i]? = some a) (ha : a.isSolving = false)
    (hb : b.isSolving = false) :
    (l.set i b).countP Worker.isSolving = l.countP Worker.isSolving := by
  have := countP_set_getElem? (p:=Worker.isSolving) (b:=b) hi
  simpa [ha,hb] using this

namespace Pool.Guarded

variable {s : Pool}

theorem setIdle (hs : s.Guarded clauses) {i : ℕ} (hi : s.workers[i]? = some a)
    (ha : a.isSolving = false) (hb : b.isSolving = false) :
    ({ s with workers := s.workers.set i b } : Pool).Guarded clauses where
  cover := by
    rcases hs.cover with h | h | h
    · exact .inl h
    · exact .inr (.inl h)
    · refine .inr (.inr fun v hv => ?_)
      obtain ⟨c,hc,hh⟩ := h v hv
      exact ⟨c,(outstanding_set_iff hi ha hb c).mpr hc,hh⟩
  active := hs.active.trans (countP_set_idle hi ha hb).symm
  result := hs.result
  winner := hs.winner
  port := hs.port
  stop := by
    intro h
    rcases hs.stop h with h | h | h
    · exact .inl h
    · exact .inr (.inl h)
    · exact .inr (.inr fun c hc => h c ((outstanding_set_iff hi ha hb c).mp hc))

theorem setPorts (hs : s.Guarded clauses) (ports : List Bool) :
    ({ s with ports := ports } : Pool).Guarded clauses :=
  ⟨hs.cover,hs.active,hs.result,hs.winner,hs.port,hs.stop⟩

theorem win (hs : s.Guarded clauses) {v : ℕ → Bool} (hv : Satisfies v clauses) :
    (s.win v).Guarded clauses := by
  unfold Pool.win
  split_ifs with hstop
  · exact hs
  · exact ⟨.inr (.inl rfl),hs.active,.inl rfl,fun _ => ⟨v,rfl,hv⟩,hs.port,fun _ => .inl rfl⟩

theorem loopHead (hs : s.Guarded clauses) {i : ℕ} (hi : s.workers[i]? = some w)
    (hw : w.isSolving = false) : (s.loopHead i).Guarded clauses := by
  unfold Pool.loopHead
  by_cases hstop : s.stop = true
  · rw [if_pos hstop]
    exact hs.setIdle (b:=.exited) hi hw rfl
  · rw [if_neg hstop]
    split
    case h_1 hq =>
      by_cases ha : s.active > 0
      · rw [if_pos ha]
        exact hs.setIdle (b:=.looping) hi hw rfl
      · rw [if_neg ha]
        have hx := hs.setIdle (b:=.exited) hi hw rfl
        have hnone : ∀ c, ¬ s.Outstanding c := by
          rintro c (hc | ⟨tcSnap,hc⟩)
          · simp [hq] at hc
          · have hpos := List.countP_pos_iff.mpr ⟨_,hc,(rfl : Worker.isSolving _ = true)⟩
            rw [← hs.active] at hpos
            omega
        refine ⟨hx.cover,hx.active,hx.result,hx.winner,hx.port,fun _ => .inr (.inr fun c hc => ?_)⟩
        exact hnone c ((outstanding_set_iff hi hw (b:=.exited) rfl c).mp hc)
    case h_2 c q hq =>
      have hcount := countP_set_getElem? (p:=Worker.isSolving)
        (b:=.solving c s.totalCubes) hi
      refine ⟨?_,?_,hs.result,hs.winner,hs.port,fun h => absurd h hstop⟩
      · rcases hs.cover with h | h | h
        · exact .inl h
        · exact .inr (.inl h)
        · refine .inr (.inr fun v hv => ?_)
          obtain ⟨d,hd,hh⟩ := h v hv
          refine ⟨d,?_,hh⟩
          rcases hd with hd | ⟨tcSnap,hd⟩
          · rw [hq] at hd
            rcases List.mem_cons.mp hd with rfl | hd
            · exact .inr ⟨_,List.mem_set (List.getElem?_eq_some_iff.mp hi).1 _⟩
            · exact .inl hd
          · rcases mem_set_of_mem hi hd with rfl | hd
            · simp [Worker.isSolving] at hw
            · exact .inr ⟨tcSnap,hd⟩
      · have := hs.active
        have hsolving : (Worker.solving c s.totalCubes).isSolving = true := rfl
        simp only [hw,hsolving,Bool.toNat_true,Bool.toNat_false] at hcount
        dsimp only
        omega

variable {i : ℕ} {c : Cube} {tcSnap : ℕ}

theorem release_active (hs : s.Guarded clauses) (hi : s.workers[i]? = some (.solving c tcSnap))
    (hw : w.isSolving = false) :
    s.active-1 = (s.workers.set i w).countP Worker.isSolving := by
  have hcount := countP_set_getElem? (p:=Worker.isSolving) (b:=w) hi
  have hsolving : (Worker.solving c tcSnap).isSolving = true := rfl
  have := hs.active
  simp only [hw,hsolving,Bool.toNat_true,Bool.toNat_false] at hcount
  omega

theorem settled (hs : s.Guarded clauses) (hi : s.workers[i]? = some (.solving c tcSnap))
    (hstop : s.stop = true) : s.result = .sat ∨ s.portUnsat = true := by
  rcases hs.stop hstop with h | h | h
  · exact .inl h
  · exact .inr h
  · exact absurd (.inr ⟨tcSnap,List.mem_of_getElem? hi⟩) (h c)

theorem release (hs : s.Guarded clauses) (hi : s.workers[i]? = some (.solving c tcSnap))
    (hq : ∀ d ∈ s.q, d ∈ q) (total : ℕ) (hu : s.unresolved = true → unresolved = true)
    (hc : unresolved = true ∨ Covers clauses c.lits q) (hw : w.isSolving = false) :
    ({ s with
      q := q
      totalCubes := total
      unresolved := unresolved
      active := s.active-1
      workers := s.workers.set i w } : Pool).Guarded clauses where
  cover := by
    rcases hc with hc | hc
    · exact .inl hc
    rcases hs.cover with h | h | h
    · exact .inl (hu h)
    · exact .inr (.inl h)
    · refine .inr (.inr fun v hv => ?_)
      obtain ⟨d,hd,hh⟩ := h v hv
      rcases hd with hd | ⟨tcSnap',hd⟩
      · exact ⟨d,.inl (hq d hd),hh⟩
      · rcases mem_set_of_mem (b:=w) hi hd with heq | hd
        · rw [Worker.solving.injEq] at heq
          obtain ⟨k,hk,hkh⟩ := hc v hv (heq.1 ▸ hh)
          exact ⟨k,.inl hk,hkh⟩
        · exact ⟨d,.inr ⟨tcSnap',hd⟩,hh⟩
  active := hs.release_active hi hw
  result := hs.result
  winner := hs.winner
  port := hs.port
  stop := by
    intro h
    exact (hs.settled hi h).imp_right .inl

theorem retire (hs : s.Guarded clauses) (hi : s.workers[i]? = some (.solving c tcSnap))
    (h : s.result = .sat ∨ s.portUnsat = true) (hw : w.isSolving = false) :
    ({ s with active := s.active-1, workers := s.workers.set i w } : Pool).Guarded clauses where
  cover := by
    rcases h with h | h
    · exact .inr (.inl h)
    · exact .inr (.inr fun v hv => absurd hv (hs.port h v))
  active := hs.release_active hi hw
  result := hs.result
  winner := hs.winner
  port := hs.port
  stop := fun _ => h.imp_right .inl

theorem finish (hs : s.Guarded clauses) (hors : ∀ g ∈ cfg.ors, Asserted clauses g)
    (hi : s.workers[i]? = some (.solving c tcSnap)) {ch : Choice}
    (hch : ch.Right clauses cfg c) : (s.finish cfg i ch c tcSnap).Guarded clauses := by
  have hc := conquer_right hors hch tcSnap s.totalCubes
  unfold Pool.finish
  cases ho : conquer cfg ch tcSnap s.totalCubes c with
  | sat v =>
    rw [ho] at hc
    have hwin := hs.win hc
    by_cases hstop : s.stop = true
    · have heq : s.win v = s := if_pos hstop
      simp only [heq]
      exact hs.retire hi (hs.settled hi hstop) rfl
    · have heq : s.win v = { s with result := .sat, winner := some v, stop := true } :=
        if_neg hstop
      rw [heq] at hwin
      simp only [heq]
      exact hwin.retire hi (.inl rfl) rfl
  | refuted =>
    rw [ho] at hc
    exact hs.release hi (fun _ hd => hd) s.totalCubes id
      (.inr fun v hv hh => absurd hh (hc v hv)) rfl
  | kids ks =>
    rw [ho] at hc
    cases ks with
    | nil => exact hs.release hi (fun _ hd => hd) s.totalCubes (fun _ => rfl) (.inl rfl) rfl
    | cons k ks =>
      have ⟨hq,hk⟩ := pushKids_queue ch.push 0 s.q s.totalCubes (k :: ks)
      have hcov : (s.unresolved ||
            (pushKids ch.push 0 s.q s.totalCubes (k :: ks)).2.2) = true ∨
          Covers clauses c.lits (pushKids ch.push 0 s.q s.totalCubes (k :: ks)).1 := by
        cases hp : (pushKids ch.push 0 s.q s.totalCubes (k :: ks)).2.2 with
        | true => exact .inl (Bool.or_true _)
        | false =>
          apply Or.inr
          intro v hv hh
          obtain ⟨k',hk',hkh⟩ := hc.resolve_left (by simp) v hv hh
          exact ⟨k',hk hp k' hk',hkh⟩
      exact hs.release hi hq _ (fun h => by simp [h]) hcov rfl

theorem portStep (hs : s.Guarded clauses) {rc : Answer} (hrc : rc.Right clauses []) (j : ℕ) :
    (s.port j rc).Guarded clauses := by
  cases rc with
  | sat v => exact (hs.win hrc.1).setPorts _
  | unsat =>
    apply setPorts
    split_ifs with hstop
    · exact hs
    · have hnone : ∀ v, ¬ Satisfies v clauses := fun v hv => hrc v hv (holds_nil v)
      exact ⟨.inr (.inr fun v hv => absurd hv (hnone v)),hs.active,.inr rfl,
        fun h => by simp at h,fun _ => hnone,fun _ => .inr (.inl rfl)⟩
  | unknown =>
    unfold Pool.port
    split_ifs
    · exact hs.setPorts _
    · exact hs

theorem step (hs : s.Guarded clauses) (hors : ∀ g ∈ cfg.ors, Asserted clauses g) {e : Event}
    (he : e.Right clauses cfg s) {s' : Pool} (h : s.step cfg e = some s') :
    s'.Guarded clauses := by
  cases e with
  | fail i =>
    simp only [Pool.step] at h
    split at h
    case h_1 hi =>
      cases h
      exact hs.setIdle hi rfl rfl
    case h_2 => cases h
  | loop i =>
    simp only [Pool.step] at h
    split at h
    case h_1 hi =>
      cases h
      exact hs.loopHead hi rfl
    case h_2 hi =>
      cases h
      exact hs.loopHead hi rfl
    case h_3 => cases h
  | finish i ch =>
    simp only [Pool.step] at h
    split at h
    case h_1 c tcSnap hi =>
      cases h
      exact hs.finish hors hi (he c tcSnap hi)
    case h_2 => cases h
  | portFail j =>
    simp only [Pool.step] at h
    split_ifs at h
    cases h
    exact hs.setPorts _
  | portStop j =>
    simp only [Pool.step] at h
    split_ifs at h
    cases h
    exact hs.setPorts _
  | port j rc =>
    simp only [Pool.step] at h
    split_ifs at h
    cases h
    exact hs.portStep he j

theorem run (hs : s.Guarded clauses) (hors : ∀ g ∈ cfg.ors, Asserted clauses g)
    {es : List Event} (hright : s.RightRun clauses cfg es) {s' : Pool}
    (h : Pool.run cfg s es = some s') : s'.Guarded clauses := by
  induction es generalizing s with
  | nil =>
    cases h
    exact hs
  | cons e es ih =>
    simp only [Pool.run,Option.bind_eq_some_iff] at h
    obtain ⟨t,ht,h⟩ := h
    exact ih (hs.step hors hright.1 ht) (hright.2 t ht) h

theorem init (hq : Covers clauses [] q) (total spCube spPort : ℕ) :
    (Pool.init q total spCube spPort).Guarded clauses where
  cover := by
    refine .inr (.inr fun v hv => ?_)
    obtain ⟨c,hc,hh⟩ := hq v hv (holds_nil v)
    exact ⟨c,.inl hc,hh⟩
  active := by simp [Pool.init,List.countP_replicate,Worker.isSolving]
  result := .inr rfl
  winner := by simp [Pool.init]
  port := by simp [Pool.init]
  stop := by simp [Pool.init]

theorem verdict (hs : s.Guarded clauses) (hjoined : s.Joined) (install : Bool) :
    Verdict clauses (s.verdict install) s.winner where
  unsat := by
    intro h v hv
    simp only [Pool.verdict] at h
    split_ifs at h with hdown hinstall
    rcases Bool.eq_false_or_eq_true s.portUnsat with hp | hp
    · exact hs.port hp v hv
    · have hresolved : (s.unresolved || !s.q.isEmpty) = false := by
        simpa [h,hp] using hdown
      simp only [Bool.or_eq_false_iff,Bool.not_eq_false',List.isEmpty_iff] at hresolved
      have hcov := (hs.cover.resolve_left (by simp [hresolved.1])).resolve_left (by simp [h])
      obtain ⟨c,hc | ⟨tcSnap,hc⟩,_⟩ := hcov v hv
      · simp [hresolved.2] at hc
      · simpa using hjoined.1 _ hc
  sat := by
    intro h
    simp only [Pool.verdict] at h
    split_ifs at h with hdown hinstall
    exact hs.winner h

end Pool.Guarded

/-- From a frontier of asserted or-groups or a split bit, under right answers: the
outstanding cubes cover the models until a region is given up or a worker has won, the
pool stops with work outstanding only for a winner or a portfolio refutation, and both
ways to conquer give right verdicts. -/
theorem conquer_verdict {cfg : Config} {groups : List (List ℤ)} {orlits : List ℤ}
    {q : List Cube} {useCart : Bool} {pushCart push : ℕ → Bool} {cap budget : ℕ}
    (hgroups : ∀ g ∈ groups, Asserted clauses g) (hor : orlits ≠ [] → Asserted clauses orlits)
    (hbits : ∀ b ∈ cfg.bits, b ≠ 0)
    (hfrontier : initialFrontier useCart pushCart push cap budget groups orlits cfg.bits
      = (q,cfg.ors))
    (hq : q ≠ []) :
    (∀ spCube spPort es s, (Pool.init q q.length spCube spPort).RightRun clauses cfg es →
      Pool.run cfg (.init q q.length spCube spPort) es = some s →
      (s.unresolved = true ∨ s.result = .sat ∨ s.Covered clauses) ∧
      (s.stop = true → s.result = .sat ∨ s.portUnsat = true ∨ ∀ c, ¬ s.Outstanding c)) ∧
    (∀ setup spCube spPort es chs install r m,
      (Pool.init q q.length spCube spPort).RightRun clauses cfg es →
      SequentialRight clauses cfg chs q q.length →
      runParallel cfg q q.length setup spCube spPort es chs install = some (r,m) →
      Verdict clauses r m) ∧
    (∀ chs q' total unresolved, SequentialRight clauses cfg (chs.map some) q q.length →
      rounds cfg chs q q.length false = some (q',total,unresolved) →
      unresolved = true ∨ Covers clauses [] q') ∧
    ∀ chs r m, SequentialRight clauses cfg chs q q.length →
      runSequential cfg chs q q.length false = some (r,m) → Verdict clauses r m := by
  obtain ⟨hcov,hors⟩ := initialFrontier_covers useCart pushCart push cap budget hgroups hor
    hbits
  rw [hfrontier] at hcov hors
  replace hcov := hcov.resolve_left hq
  refine ⟨?_,?_,?_,?_⟩
  · intro spCube spPort es s hright h
    have hs := (Pool.Guarded.init hcov _ spCube spPort).run hors hright h
    exact ⟨hs.cover,hs.stop⟩
  · intro setup spCube spPort es chs install r m hpool hseq h
    unfold runParallel at h
    split_ifs at h with hsetup hspawned
    · cases h
      exact ⟨by simp,by simp⟩
    · exact runSequential_verdict hors hseq (.inr hcov) h
    · split at h
      case h_1 s hrun =>
        split_ifs at h with hjoined
        cases h
        exact ((Pool.Guarded.init hcov _ spCube spPort).run hors hpool hrun).verdict hjoined _
      case h_2 => cases h
  · intro chs q' total unresolved hright h
    exact rounds_covers hors hright (.inr hcov) h
  · intro chs r m hright h
    exact runSequential_verdict hors hright (.inr hcov) h

theorem rightRun_of_forall {es : List Event} (h : ∀ e ∈ es, ∀ s, e.Right clauses cfg s)
    (s : Pool) : s.RightRun clauses cfg es := by
  induction es generalizing s with
  | nil => trivial
  | cons e es ih =>
    exact ⟨h e (by simp) s,fun s' _ => ih (fun e he => h e (by simp [he])) s'⟩

private def oneBit : Config := ⟨[],[1],6,24,4000000,false,64⟩

private def answered (rc : Answer) : Choice :=
  ⟨rc,fun _ => .unknown,true,fun _ => true,fun _ => true,fun _ => true⟩

private theorem answered_right {rc : Answer} {c : Cube} (h : rc.Right clauses c.lits) :
    (answered rc).Right clauses cfg c :=
  ⟨h,fun _ _ _ _ _ => trivial⟩

private theorem oneBit_frontier :
    initialFrontier false (fun _ => true) (fun _ => true) 200000 8000 [] [] oneBit.bits
      = ([⟨[1],8000,0,0⟩,⟨[-1],8000,0,0⟩],oneBit.ors) := by decide

/-- The product of two or-groups: two workers refute its four cubes. -/
theorem conquer_verdict_twoOrs : Verdict [[1,2],[3,4],[-1],[-2]] .unsat none := by
  have hnone : ∀ v, ¬ Satisfies v [[1,2],[3,4],[-1],[-2]] := by
    intro v hv
    have h₁ : v 1 = false := by simpa [litValue] using hv [-1] (by simp)
    have h₂ : v 2 = false := by simpa [litValue] using hv [-2] (by simp)
    have h₃ : v 1 = true ∨ v 2 = true := by simpa [litValue] using hv [1,2] (by simp)
    simp [h₁,h₂] at h₃
  have hsort : [[(1 : ℤ),2],[3,4]].mergeSort (fun a b => a.length ≤ b.length) = [[1,2],[3,4]] :=
    List.mergeSort_of_pairwise (by decide)
  have hfrontier : initialFrontier true (fun _ => true) (fun _ => true) 200000 8000
      [[1,2],[3,4]] [] [] = ([⟨[1,3],8000,0,2⟩,⟨[2,3],8000,0,2⟩,⟨[1,4],8000,0,2⟩,
        ⟨[2,4],8000,0,2⟩],[[1,2],[3,4]]) := by
    rw [initialFrontier,buildCartesianFrontier,hsort]
    rfl
  have hright : ∀ e ∈ [.loop 0,.loop 1,.finish 1 (answered .unsat),.finish 0 (answered .unsat),
      .loop 0,.loop 1,.finish 0 (answered .unsat),.finish 1 (answered .unsat),.loop 0,.loop 1],
      ∀ s, Event.Right [[1,2],[3,4],[-1],[-2]] ⟨[[1,2],[3,4]],[],6,24,4000000,false,64⟩ s e := by
    intro e he s
    cases e with
    | finish i ch =>
      have hch : ch = answered .unsat := by
        simp only [List.mem_cons,Event.finish.injEq,reduceCtorEq,List.not_mem_nil] at he
        tauto
      exact hch ▸ fun c _ _ => answered_right fun v hv => absurd hv (hnone v)
    | port j rc => simp at he
    | _ => trivial
  have hasserted : ∀ g ∈ [[(1 : ℤ),2],[3,4]], Asserted [[1,2],[3,4],[-1],[-2]] g :=
    fun g hg v hv => hv g (List.mem_append_left [[-1],[-2]] hg)
  have h := @conquer_verdict [[1,2],[3,4],[-1],[-2]] ⟨[[1,2],[3,4]],[],6,24,4000000,false,64⟩
    [[1,2],[3,4]] [] _ true _ _ _ _ hasserted (by simp) (by simp) hfrontier (by simp)
  exact h.2.1 true 2 0 _ [] true .unsat none (rightRun_of_forall hright _) trivial rfl

/-- The winner's cube is dropped: its model then lies in no outstanding cube, though no
region is given up, and the pool stops with the other half queued. -/
theorem winner_drops_cube :
    ¬ ∀ (clauses : List (List ℤ)) (cfg : Config) (groups : List (List ℤ)) (orlits : List ℤ)
        (q : List Cube) (useCart : Bool) (pushCart push : ℕ → Bool) (cap budget : ℕ),
      (∀ g ∈ groups, Asserted clauses g) → (orlits ≠ [] → Asserted clauses orlits) →
      (∀ b ∈ cfg.bits, b ≠ 0) →
      initialFrontier useCart pushCart push cap budget groups orlits cfg.bits = (q,cfg.ors) →
      q ≠ [] → ∀ spCube spPort es s,
      (Pool.init q q.length spCube spPort).RightRun clauses cfg es →
      Pool.run cfg (.init q q.length spCube spPort) es = some s →
      (s.unresolved = true ∨ s.Covered clauses) ∧ (s.stop = true → ∀ c, ¬ s.Outstanding c) := by
  intro h
  have hmodel : Satisfies (fun _ => true) [[1,2]] := by simp [Satisfies,litValue]
  have hright : (Pool.init [⟨[1],8000,0,0⟩,⟨[-1],8000,0,0⟩] 2 1 0).RightRun [[1,2]] oneBit
      [.loop 0,.finish 0 (answered (.sat fun _ => true))] := by
    refine ⟨trivial,fun s hs => ⟨fun c tcSnap hc => ?_,fun _ _ => trivial⟩⟩
    cases hs
    cases hc
    exact answered_right ⟨hmodel,by simp [Holds,litValue]⟩
  have hrun : Pool.run oneBit (.init [⟨[1],8000,0,0⟩,⟨[-1],8000,0,0⟩] 2 1 0)
      [.loop 0,.finish 0 (answered (.sat fun _ => true))] = some ⟨[⟨[-1],8000,0,0⟩],0,2,true,
        .sat,false,false,some fun _ => true,[.exited],[]⟩ := rfl
  obtain ⟨hcov,-⟩ := h [[1,2]] oneBit [] [] _ false (fun _ => true) (fun _ => true) 200000 8000
    (by simp) (by simp) (by decide) oneBit_frontier (by simp) 1 0 _ _ hright hrun
  obtain ⟨c,hc | ⟨tcSnap,hc⟩,hh⟩ := hcov.resolve_left (by decide) _ hmodel
  · obtain rfl : c = ⟨[-1],8000,0,0⟩ := by simpa using hc
    simp [Holds,litValue] at hh
  · simp at hc

end Cubes
end DvSolve
