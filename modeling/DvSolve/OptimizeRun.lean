import DvSolve.OptimizeSem

/-! When `dvs_solver_optimize` finds the least value of the objective. -/
namespace DvSolve
namespace Optimize

open Maxsat Loop
open Solver (Variable PropResult varBLt varOrd varOrd_beyond varOrd_plain varBLt_iff)

variable {V : Type*} {p : Problem V} {o : Objective V} {F : Engine V} {c : Ctx V} {R : ℕ}
  {late : ℕ → Bool} {s : State V}
variable {c' : Ctx V} {m : V}

/-- Each solution is below the one before; an answer is the least value over the solutions, and
the context is left at a solution that has it. -/
structure Optimal (p : Problem V) (o : Objective V) (r : Result V) : Prop where
  descends : r.log.Pairwise fun x y => varBLt o.var x y = true
  found_iff : r.stop = .answered → (r.found = false ↔ ¬ ∃ m, p.hard m = true)
  least : r.stop = .answered → r.found = true →
    IsLeast {x | ∃ m, p.hard m = true ∧ x = varOrd o.var (o.value m)} (varOrd o.var r.bestObjective)
  left : r.stop = .answered → r.found = true → ∃ c m, r.ctx = some c ∧ c.found = some m ∧
    p.hard m = true ∧ (∀ i, c.value i = true → p.Meets m i) ∧ o.value m = r.bestObjective

/-- With every exact engine, every limit of rounds and whenever the time is up. -/
def Optimizes (p : Problem V) (o : Objective V) (c : Ctx V) : Prop :=
  ∀ F : Engine V, F.Exact p o → ∀ R late, ∃ r, optimize F o R late c = some r ∧ Optimal p o r

/-- Some solution meets all the softs. None of these takes the objective to the pattern whose
predecessor wraps round, and patterns that are ordered as unsigned all lie in one half; with
softs, one of them has the objective at the lower bound of its variable, and when the searches
read another variable all of them do. -/
structure Suited (p : Problem V) (o : Objective V) : Prop where
  some : ∃ m, All p m
  lowest : ∀ m, All p m → o.value m ≠ lowest o.var
  half : o.var.beyond = true → ∀ m m', All p m → All p m' → (o.value m).msb = (o.value m').msb
  softs : o.own = true → p.softs = [] ∨ ∃ m, All p m ∧ varOrd o.var (o.value m) = o.var.least
  merged : o.own = false → ∀ m, All p m → varOrd o.var (o.value m) = o.var.least

theorem round_limit (h : R ≤ s.round ∨ late s.round = true) :
    round F o R late s = .exit (some (s,.limit)) := by
  rw [round,if_pos h]

section Round

variable (hgo : ¬ (R ≤ s.round ∨ late s.round = true))
include hgo

theorem round_unsat (h : solverSolve F o s.record s.ctx = some (.unsat c')) :
    round F o R late s = .exit (some ({ s with ctx := c' },.answered)) := by
  rw [round,if_neg hgo,h]

theorem round_undefined (h : solverSolve F o s.record s.ctx = some .undefined) :
    round F o R late s = .exit none := by
  rw [round,if_neg hgo,h]

theorem round_ok (h : solverSolve F o s.record s.ctx = some (.ok c')) (hm : c'.found = some m) :
    round F o R late s = if (tightenUb o.var (o.value m - 1#64)).1 = .conflict ∨
          !(F (tightenUb o.var (o.value m - 1#64)).2).propagate c'.calls (fun _ => true) then
        .exit (some (s.keep o c' m,.answered))
      else .again { s.keep o c' m with
        record := (tightenUb o.var (o.value m - 1#64)).2, round := s.round+1 } := by
  rw [round,if_neg hgo,h]
  simp only [hm]
  rfl

end Round

section Suited

variable (hF : F.Exact p o) (ho : o.Fits p) (hs : Suited p o)

structure Kept (p : Problem V) (o : Objective V) (log : List (BitVec 64)) (b : Saved V) :
    Prop where
  all : All p b.values
  value : o.value b.values = b.objective
  assumptions : b.assumptions = fun _ => true
  descends : log.Pairwise fun x y => varBLt o.var x y = true
  least : ∀ x ∈ log, varOrd o.var b.objective ≤ varOrd o.var x

structure Going (p : Problem V) (o : Objective V) (s : State V) : Prop where
  fresh : Fresh p s.ctx
  start : s.best = none → s.log = [] ∧ s.record = o.var
  best : ∀ b, s.best = some b → Kept p o s.log b
  bounded : ∀ b, s.best = some b → o.own = true ∧ varOrd o.var b.objective ≠ o.var.least ∧
    ∀ y, holds s.record y = true ↔
      o.var.least ≤ varOrd o.var y ∧ varOrd o.var y < varOrd o.var b.objective

structure Ended (p : Problem V) (o : Objective V) (s : State V) (stop : Stop) : Prop where
  start : s.best = none → s.log = [] ∧ stop = .limit
  best : ∀ b, s.best = some b → Kept p o s.log b
  least : stop = .answered → ∀ b, s.best = some b →
    ∀ m, p.hard m = true → varOrd o.var b.objective ≤ varOrd o.var (o.value m)

include ho hs in
theorem Suited.below (hown : o.own = true) {x : ℤ} (hm : p.hard m = true)
    (hlt : varOrd o.var (o.value m) < x) :
    ∃ m', All p m' ∧ o.var.least ≤ varOrd o.var (o.value m') ∧ varOrd o.var (o.value m') < x := by
  have hge := (holds_iff.mp (ho.inside m hm)).1
  obtain hnil | ⟨m',hall,hleast⟩ := hs.softs hown
  · refine ⟨m,⟨hm,fun i hi => ?_⟩,hge,hlt⟩
    rw [Problem.indices,hnil] at hi
    exact absurd hi (Nat.not_lt_zero i)
  · exact ⟨m',hall,hleast.ge,by omega⟩

theorem better_of_lt (hs : Suited p o) {x : BitVec 64} {best : Option (Saved V)} (hm : All p m)
    (hx : o.value m = x) (hbest : ∀ b, best = some b →
      All p b.values ∧ o.value b.values = b.objective ∧ varOrd o.var x < varOrd o.var b.objective) :
    better best x = true := by
  cases best with
  | none => rfl
  | some b =>
    obtain ⟨hall,hvalue,hlt⟩ := hbest b rfl
    show x.slt b.objective = true
    cases hb : o.var.beyond with
    | false =>
      rw [varOrd_plain hb,varOrd_plain hb,← BitVec.slt_iff_toInt_lt] at hlt
      exact hlt
    | true =>
      have hmsb := hs.half hb m b.values hm hall
      rw [hx,hvalue] at hmsb
      rw [varOrd_beyond hb,varOrd_beyond hb,Int.ofNat_lt] at hlt
      rw [BitVec.slt_eq_ult_of_msb_eq hmsb,BitVec.ult_iff_lt]
      exact hlt

theorem kept_keep (h : Going p o s) (hall : All p m)
    (hlow : ∀ b, s.best = some b → varOrd o.var (o.value m) < varOrd o.var b.objective) :
    Kept p o (s.keep o c' m).log ⟨o.value m,m,s.ctx.value⟩ := by
  have hlog : ∀ x ∈ s.log, varOrd o.var (o.value m) < varOrd o.var x := by
    intro x hx
    cases hb : s.best with
    | none =>
      rw [(h.start hb).1] at hx
      exact absurd hx List.not_mem_nil
    | some b => exact (hlow b hb).trans_le ((h.best b hb).least x hx)
  have hdescends : s.log.Pairwise fun x y => varBLt o.var x y = true := by
    cases hb : s.best with
    | none =>
      rw [(h.start hb).1]
      exact .nil
    | some b => exact (h.best b hb).descends
  refine ⟨hall,rfl,h.fresh.value,.cons (fun x hx => ?_) hdescends,fun x hx => ?_⟩
  · exact (varBLt_iff _ _ _).mpr (hlog x hx)
  · obtain rfl | hx := List.mem_cons.mp hx
    · exact le_rfl
    · exact (hlog x hx).le

include ho hs in
theorem best_of_infeasible (h : Going p o s) (hfe : p.indices ∉ (within p o s.record).feasible) :
    s.best ≠ none := by
  intro hb
  obtain ⟨m,hall⟩ := hs.some
  refine hfe (feasible_within.mpr ⟨m,hall,fun _ => ?_⟩)
  rw [(h.start hb).2]
  exact ho.inside m hall.1

include hF ho hs

theorem least_of_end {k : ℕ} {m' : V} (hall : All p m)
    (hend : (tightenUb o.var (o.value m - 1#64)).1 = .conflict ∨
      (!(F (tightenUb o.var (o.value m - 1#64)).2).propagate k (fun _ => true)) = true)
    (hm' : p.hard m' = true) : varOrd o.var (o.value m) ≤ varOrd o.var (o.value m') := by
  have hin := ho.inside m hall.1
  have hx := hs.lowest m hall
  by_cases hconflict : (tightenUb o.var (o.value m - 1#64)).1 = .conflict
  · rw [(tightenUb_conflict ho.ok hin hx).mp hconflict]
    exact (holds_iff.mp (ho.inside m' hm')).1
  · have hprop := hend.resolve_left hconflict
    have hne := mt (tightenUb_conflict ho.ok hin hx).mpr hconflict
    have hown : o.own = true := by
      by_contra hown
      exact hne (hs.merged (Bool.eq_false_iff.mpr hown) m hall)
    by_contra hlt
    obtain ⟨m'',hall',hge,hlow⟩ := Suited.below ho hs hown hm' (not_le.mp hlt)
    have hfe : p.indices ∈ (within p o (tightenUb o.var (o.value m - 1#64)).2).feasible :=
      feasible_within.mpr ⟨m'',hall',fun _ =>
        (holds_tightenUb ho.ok hin hx hconflict _).mpr ⟨hge,hlow⟩⟩
    rw [(hF _).propagate_of k _ ((within p o _).all_feasible.mpr hfe)] at hprop
    exact absurd hprop (by decide)

theorem round_suited (h : Going p o s) :
    (round F o R late s).Good (fun s => Going p o s)
      (fun r => ∃ s stop, r = some (s,stop) ∧ Ended p o s stop) (fun s => R - s.round) s := by
  by_cases hgo : R ≤ s.round ∨ late s.round = true
  · rw [round_limit hgo]
    exact ⟨s,.limit,rfl,fun hb => ⟨(h.start hb).1,rfl⟩,h.best,nofun⟩
  by_cases hfe : p.indices ∈ (within p o s.record).feasible
  · obtain ⟨m,hcore,hall,hbound⟩ := core_all hF h.fresh hfe
    have hlow : ∀ b, s.best = some b → varOrd o.var (o.value m) < varOrd o.var b.objective :=
      fun b hb => (((h.bounded b hb).2.2 _).mp (hbound (h.bounded b hb).1)).2
    have hbetter : better s.best (o.value m) = true := better_of_lt hs hall rfl fun b hb =>
      ⟨(h.best b hb).all,(h.best b hb).value,hlow b hb⟩
    let c' : Ctx V := { s.ctx.setMask (entryMask s.ctx) with
      calls := s.ctx.calls+1, found := some m }
    have hsolve : solverSolve F o s.record s.ctx = some (.ok c') := solverSolve_first hcore
    have hbest : (s.keep o c' m).best = some ⟨o.value m,m,s.ctx.value⟩ := if_pos hbetter
    have hkept : Kept p o (s.keep o c' m).log ⟨o.value m,m,s.ctx.value⟩ :=
      kept_keep h hall fun b hb => hlow b hb
    have hof : (s.keep o c' m).ctx.Of p := h.fresh.of
    rw [round_ok hgo hsolve rfl]
    by_cases hend : (tightenUb o.var (o.value m - 1#64)).1 = .conflict ∨
        (!(F (tightenUb o.var (o.value m - 1#64)).2).propagate c'.calls (fun _ => true)) = true
    · rw [if_pos hend]
      refine ⟨_,_,rfl,fun hb => ?_,fun b hb => ?_,fun _ b hb m' hm' => ?_⟩
      · rw [hbest] at hb
        exact absurd hb nofun
      · obtain rfl := Option.some.inj (hbest.symm.trans hb)
        exact hkept
      · obtain rfl := Option.some.inj (hbest.symm.trans hb)
        exact least_of_end hF ho hs hall hend hm'
    · rw [if_neg hend]
      rw [not_or] at hend
      have hne := mt (tightenUb_conflict ho.ok (ho.inside m hall.1) (hs.lowest m hall)).mpr hend.1
      have hown : o.own = true := by
        by_contra hown
        exact hne (hs.merged (Bool.eq_false_iff.mpr hown) m hall)
      refine ⟨⟨fresh_reset hof,fun hb => ?_,fun b hb => ?_,fun b hb => ?_⟩,?_⟩
      · rw [hbest] at hb
        exact absurd hb nofun
      · obtain rfl := Option.some.inj (hbest.symm.trans hb)
        exact hkept
      · obtain rfl := Option.some.inj (hbest.symm.trans hb)
        exact ⟨hown,hne,holds_tightenUb ho.ok (ho.inside m hall.1) (hs.lowest m hall) hend.1⟩
      · show R - (s.round+1) < R - s.round
        omega
  · obtain ⟨b,hb⟩ := Option.ne_none_iff_exists'.mp (best_of_infeasible ho hs h hfe)
    obtain ⟨hown,hne,hholds⟩ := h.bounded b hb
    have hleast : ∀ m, p.hard m = true → varOrd o.var b.objective ≤ varOrd o.var (o.value m) := by
      intro m hm
      by_contra hlt
      obtain ⟨m',hall,hge,hlow⟩ := Suited.below ho hs hown hm (not_le.mp hlt)
      exact hfe (feasible_within.mpr ⟨m',hall,fun _ => (hholds _).mpr ⟨hge,hlow⟩⟩)
    have hsofts : p.softs = [] := (hs.softs hown).resolve_right fun ⟨m,hall,hm⟩ => by
      have hle := hleast m hall.1
      have hge := (holds_iff.mp (ho.inside b.values (h.best b hb).all.1)).1
      rw [(h.best b hb).value] at hge
      omega
    obtain ⟨c',hsolve⟩ := solverSolve_unsat hF h.fresh (by simp [hsofts]) hfe hsofts
    rw [round_unsat hgo hsolve]
    refine ⟨_,_,rfl,fun hnone => absurd (hb.symm.trans hnone) nofun,h.best,fun _ b' hb' => ?_⟩
    obtain rfl := Option.some.inj (hb.symm.trans hb')
    exact hleast

omit hF ho hs in
theorem Ended.optimal {stop : Stop} (h : Ended p o s stop) (hm : ∃ m, p.hard m = true) :
    Optimal p o (s.result stop) := by
  cases hb : s.best with
  | none =>
    obtain ⟨hlog,rfl⟩ := h.start hb
    refine ⟨?_,nofun,nofun,nofun⟩
    rw [State.result,hlog]
    exact .nil
  | some b =>
    have hk := h.best b hb
    have hfound : (s.result stop).found = true := by rw [State.result,hb]; rfl
    have hobj : (s.result stop).bestObjective = b.objective := by rw [State.result,hb]; rfl
    have hctx : (s.result stop).ctx = some { reset s.ctx with found := some b.values } := by
      rw [State.result,hb]
      exact if_pos (by rw [hk.assumptions]; simp)
    refine ⟨hk.descends,fun _ => ?_,fun hstop _ => ⟨⟨b.values,hk.all.1,?_⟩,?_⟩,fun _ _ => ?_⟩
    · rw [hfound]
      exact iff_of_false nofun fun hno => hno hm
    · rw [hobj,hk.value]
    · rintro _ ⟨m,hm,rfl⟩
      rw [hobj]
      exact h.least hstop b hb m hm
    · refine ⟨_,b.values,hctx,rfl,hk.all.1,fun i _ => ?_,hk.value.trans hobj.symm⟩
      by_cases hi : i ∈ p.indices
      · exact hk.all.2 i hi
      · exact p.meets_outside hi

theorem optimize_suited (hc : Fresh p c) (R : ℕ) (late : ℕ → Bool) :
    ∃ r, optimize F o R late c = some r ∧ Optimal p o r := by
  have hstart : Going p o ⟨c,o.var,none,0,0,[]⟩ := ⟨hc,fun _ => ⟨rfl,rfl⟩,nofun,nofun⟩
  have hround : ∀ s, Going p o s → (round F o R late s).Good (fun s => Going p o s)
      (fun r => ∃ s stop, r = some (s,stop) ∧ Ended p o s stop) (fun s => R - s.round) s :=
    fun s h => round_suited hF ho hs h
  obtain ⟨_,hloop,s,stop,rfl,hend⟩ := loop_spec _ hround (R+1) _ hstart (Nat.lt_succ_self _)
  obtain ⟨m,hall⟩ := hs.some
  refine ⟨s.result stop,?_,hend.optimal ⟨m,hall.1⟩⟩
  rw [optimize,hloop]
  rfl

end Suited

theorem optimize_unsat (hF : F.Exact p o) (ho : o.Fits p) (hc : Fresh p c)
    (hn : p.softs.length ≤ 64) (hno : ¬ ∃ m, p.hard m = true) (R : ℕ) (late : ℕ → Bool) :
    ∃ r, optimize F o R late c = some r ∧ Optimal p o r := by
  have hround : ∃ c' stop, round F o R late ⟨c,o.var,none,0,0,[]⟩ =
      .exit (some (⟨c',o.var,none,0,0,[]⟩,stop)) := by
    by_cases hgo : R ≤ 0 ∨ late 0 = true
    · exact ⟨c,.limit,round_limit hgo⟩
    · have hfe : p.indices ∉ (within p o o.var).feasible := fun h =>
        hno ((feasible_within.mp h).imp fun m hm => hm.1.1)
      obtain ⟨c',hsolve⟩ : ∃ c', solverSolve F o o.var c = some (.unsat c') := by
        by_cases hsofts : p.softs = []
        · exact solverSolve_unsat hF hc hn hfe hsofts
        · obtain ⟨_,m,_,_,_,hm⟩ | ⟨_,h⟩ := solverSolve_dropped hF hc hn hfe ho hsofts
          · exact absurd ⟨m,hm⟩ hno
          · exact h
      exact ⟨c',.answered,round_unsat hgo hsolve⟩
  obtain ⟨c',stop,hround⟩ := hround
  refine ⟨_,by rw [optimize,loop,hround]; rfl,.nil,fun _ => iff_of_true rfl hno,?_,?_⟩
  · exact fun _ h => (Bool.false_ne_true h).elim
  · exact fun _ h => (Bool.false_ne_true h).elim

def query (p : Problem V) (o : Objective V) (v : Variable) (value : ℕ → Bool) (m : V) : Prop :=
  (within p o v).hard m = true ∧ ∀ i ∈ marks value, p.Meets m i

open Classical in
/-- The engine that answers `m₀` wherever it can. -/
noncomputable def prefer (p : Problem V) (o : Objective V) (m₀ : V) : Engine V := fun v =>
  { core := fun _ value =>
      if query p o v value m₀ then .ok m₀
      else if h : ∃ m, query p o v value m then .ok h.choose else .unsat
    propagate := fun _ _ => true }

theorem prefer_core {v : Variable} {value : ℕ → Bool} {m₀ : V} (h : query p o v value m₀) (k : ℕ) :
    (prefer p o m₀ v).core k value = .ok m₀ := if_pos h

theorem prefer_exact (p : Problem V) (o : Objective V) (m₀ : V) : (prefer p o m₀).Exact p o := by
  refine fun v => ⟨fun k value h => ?_,fun k value h => ?_,fun _ _ _ => rfl⟩
  · by_cases h₀ : query p o v value m₀
    · exact ⟨m₀,if_pos h₀,h₀⟩
    · have hex : ∃ m, query p o v value m := h
      exact ⟨hex.choose,(if_neg h₀).trans (dif_pos hex),hex.choose_spec⟩
  · have hno : ¬ ∃ m, query p o v value m := h
    exact (if_neg fun h₀ => hno ⟨m₀,h₀⟩).trans (dif_neg hno)

section Prefer

variable {m₀ : V} (ho : o.Fits p)

structure Trying (p : Problem V) (o : Objective V) (m₀ : V) (s : State V) : Prop where
  fresh : Fresh p s.ctx
  length : s.log.length = s.round
  best : All p m₀ → (s.round = 0 ∧ s.best = none ∧ s.record = o.var) ∨
    ∃ b, s.best = some b ∧ b.objective.toInt ≤ (o.value m₀).toInt

structure Tried (p : Problem V) (o : Objective V) (m₀ : V) (R : ℕ) (s : State V) (stop : Stop) :
    Prop where
  limit : stop = .limit → R ≤ s.log.length
  answered : stop = .answered →
    p.softs = [] ∨ ∃ m, p.hard m = true ∧ varOrd o.var (o.value m) = o.var.least
  best : All p m₀ → 0 < R → ∃ b, s.best = some b ∧ b.objective.toInt ≤ (o.value m₀).toInt

/-- What is saved only gets smaller as a signed number. -/
theorem keep_best {t : ℤ}
    (h : (s.best = none ∧ (o.value m).toInt ≤ t) ∨ ∃ b, s.best = some b ∧ b.objective.toInt ≤ t) :
    ∃ b, (s.keep o c' m).best = some b ∧ b.objective.toInt ≤ t := by
  by_cases hb : better s.best (o.value m) = true
  · refine ⟨⟨o.value m,m,c'.value⟩,if_pos hb,?_⟩
    obtain ⟨_,hle⟩ | ⟨b,hbest,hle⟩ := h
    · exact hle
    · rw [hbest] at hb
      exact (BitVec.slt_iff_toInt_lt.mp hb).le.trans hle
  · obtain ⟨hnone,_⟩ | ⟨b,hbest,hle⟩ := h
    · rw [hnone] at hb
      exact absurd rfl hb
    · exact ⟨b,(if_neg hb).trans hbest,hle⟩

include ho

theorem trying_ok (hgo : ¬ (R ≤ s.round ∨ (fun _ => false) s.round = true)) (h : Trying p o m₀ s)
    (hsolve : solverSolve (prefer p o m₀) o s.record s.ctx = some (.ok c')) (hof : c'.Of p)
    (hfound : c'.found = some m) (hm : p.hard m = true)
    (hfirst : All p m₀ → s.record = o.var → m = m₀) :
    (round (prefer p o m₀) o R (fun _ => false) s).Good (fun s => Trying p o m₀ s)
      (fun r => ∀ s stop, r = some (s,stop) → Tried p o m₀ R s stop) (fun s => R - s.round) s := by
  have hbest : All p m₀ → ∃ b, (s.keep o c' m).best = some b ∧
      b.objective.toInt ≤ (o.value m₀).toInt := by
    intro hall
    refine keep_best ?_
    obtain ⟨_,hnone,hrec⟩ | hsome := h.best hall
    · exact .inl ⟨hnone,by rw [hfirst hall hrec]⟩
    · exact .inr hsome
  rw [round_ok hgo hsolve hfound]
  by_cases hconflict : (tightenUb o.var (o.value m - 1#64)).1 = .conflict
  · rw [if_pos (.inl hconflict)]
    rintro _ _ ⟨⟩
    refine ⟨nofun,fun _ => .inr ⟨m,hm,?_⟩,fun hall _ => hbest hall⟩
    refine (tightenUb_conflict ho.ok (ho.inside m hm) (fun hx => ?_)).mp hconflict
    rw [hx,tightenUb_lowest] at hconflict
    exact absurd hconflict nofun
  · rw [if_neg fun h => h.elim hconflict nofun]
    refine ⟨⟨fresh_reset hof,congrArg (· + 1) h.length,fun hall => .inr (hbest hall)⟩,?_⟩
    show R - (s.round+1) < R - s.round
    omega

theorem round_trying (hm₀ : p.hard m₀ = true) (h : Trying p o m₀ s) :
    (round (prefer p o m₀) o R (fun _ => false) s).Good (fun s => Trying p o m₀ s)
      (fun r => ∀ s stop, r = some (s,stop) → Tried p o m₀ R s stop) (fun s => R - s.round) s := by
  have hF := prefer_exact p o m₀
  by_cases hgo : R ≤ s.round ∨ (fun _ => false) s.round = true
  · rw [round_limit hgo]
    rintro _ _ ⟨⟩
    have hle : R ≤ s.round := hgo.resolve_right nofun
    refine ⟨fun _ => h.length ▸ hle,nofun,fun hall hR => (h.best hall).resolve_left ?_⟩
    rintro ⟨hzero,_⟩
    omega
  by_cases hfe : p.indices ∈ (within p o s.record).feasible
  · obtain ⟨m,hcore,hall,_⟩ := core_all hF h.fresh hfe
    refine trying_ok ho hgo h (solverSolve_first hcore) h.fresh.of rfl hall.1 fun hall₀ hrec => ?_
    have hq : query p o s.record s.ctx.value m₀ := by
      rw [hrec]
      refine ⟨ho.within_hard.mpr hm₀,fun i _ => ?_⟩
      by_cases hi : i ∈ p.indices
      · exact hall₀.2 i hi
      · exact p.meets_outside hi
    exact Core.ok.inj (hcore.symm.trans (prefer_core hq _))
  · have hbest : All p m₀ → 0 < R → ∃ b, s.best = some b ∧
        b.objective.toInt ≤ (o.value m₀).toInt := fun hall _ => (h.best hall).resolve_left
      fun hstart => hfe (feasible_within.mpr ⟨m₀,hall,fun _ => by
        rw [hstart.2.2]
        exact ho.inside m₀ hm₀⟩)
    by_cases hsofts : p.softs = []
    · obtain ⟨c',hsolve⟩ := solverSolve_unsat hF h.fresh (by simp [hsofts]) hfe hsofts
      rw [round_unsat hgo hsolve]
      rintro _ _ ⟨⟩
      exact ⟨nofun,fun _ => .inl hsofts,hbest⟩
    · by_cases hn : p.softs.length ≤ 64
      · obtain ⟨c',m,hsolve,hof,hfound,hm⟩ | ⟨hno,_⟩ :=
          solverSolve_dropped hF h.fresh hn hfe ho hsofts
        · refine trying_ok ho hgo h hsolve hof hfound hm fun hall hrec => absurd ?_ hfe
          rw [hrec]
          exact feasible_within.mpr ⟨m₀,hall,fun _ => ho.inside m₀ hm₀⟩
        · exact absurd ⟨m₀,hm₀⟩ hno
      · rw [round_undefined hgo (solverSolve_undefined hF h.fresh (not_le.mp hn) hfe)]
        exact fun _ _ hr => absurd hr nofun

omit ho in
theorem descends_length {v : Variable} {l : List (BitVec 64)}
    (h : l.Pairwise fun x y => varBLt v x y = true) : l.length ≤ 2^64 := by
  have hnodup : (l.map BitVec.toFin).Nodup := by
    refine List.Pairwise.map _ (fun x y hxy he => ?_) h
    rw [BitVec.eq_of_toFin_eq he,varBLt_iff] at hxy
    exact lt_irrefl _ hxy
  have hle := hnodup.length_le_card
  rwa [List.length_map,Fintype.card_fin] at hle

omit ho in
theorem optimize_some {G : Engine V} {r : Result V} (h : optimize G o R late c = some r) :
    ∃ s stop, loop (round G o R late) (R+1) ⟨c,o.var,none,0,0,[]⟩ = some (some (s,stop)) ∧
      r = s.result stop := by
  obtain ⟨⟨s,stop⟩,hjoin,rfl⟩ := Option.map_eq_some_iff.mp h
  exact ⟨s,stop,Option.join_eq_some_iff.mp hjoin,rfl⟩

theorem optimizes_ends (hc : Fresh p c) (hopt : Optimizes p o c) (hm₀ : p.hard m₀ = true) :
    ∃ m, All p m ∧ (∀ m', p.hard m' = true → varOrd o.var (o.value m) ≤ varOrd o.var (o.value m')) ∧
      (p.softs = [] ∨ varOrd o.var (o.value m) = o.var.least) ∧
      (All p m₀ → (o.value m).toInt ≤ (o.value m₀).toInt) := by
  obtain ⟨R,hR⟩ : ∃ R : ℕ, 2^64 < R := ⟨_,Nat.lt_succ_self _⟩
  obtain ⟨r,hr,hrun⟩ := hopt _ (prefer_exact p o m₀) R fun _ => false
  obtain ⟨s,stop,hloop,rfl⟩ := optimize_some hr
  have hstart : Trying p o m₀ ⟨c,o.var,none,0,0,[]⟩ := ⟨hc,rfl,fun _ => .inl ⟨rfl,rfl,rfl⟩⟩
  obtain ⟨q,hq,hpost⟩ := loop_spec _ (fun s h => round_trying (R := R) ho hm₀ h) (R+1) _ hstart
    (Nat.lt_succ_self _)
  have htried := hpost s stop (Option.some.inj (hq.symm.trans hloop))
  have hstop : stop = .answered := by
    cases stop with
    | answered => rfl
    | limit =>
      have hlen := descends_length hrun.descends
      exact absurd ((htried.limit rfl).trans hlen) (not_le.mpr hR)
  have hfound : (s.result stop).found = true := by
    by_contra hnot
    exact (hrun.found_iff hstop).mp (Bool.eq_false_iff.mpr hnot) ⟨m₀,hm₀⟩
  obtain ⟨b,hb⟩ : ∃ b, s.best = some b := Option.isSome_iff_exists.mp hfound
  have hobj : (s.result stop).bestObjective = b.objective := by rw [State.result,hb]; rfl
  obtain ⟨c',m,hctx,_,hm,hmeets,hvalue⟩ := hrun.left hstop hfound
  have hc' : c'.value = fun _ => true := by
    have hpin : pinBest s.ctx b = some c' := by
      rw [State.result,hb] at hctx
      exact hctx
    unfold pinBest at hpin
    split_ifs at hpin
    exact Option.some.inj hpin ▸ rfl
  have hleast : ∀ m', p.hard m' = true → varOrd o.var (o.value m) ≤ varOrd o.var (o.value m') := by
    intro m' hm'
    rw [hvalue]
    exact (hrun.least hstop hfound).2 ⟨m',hm',rfl⟩
  refine ⟨m,⟨hm,fun i _ => hmeets i (congrFun hc' i)⟩,hleast,?_,fun hall => ?_⟩
  · refine (htried.answered hstop).imp_right fun ⟨m',hm',hlow⟩ => ?_
    exact le_antisymm (hlow ▸ hleast m' hm') (holds_iff.mp (ho.inside m hm)).1
  · obtain ⟨b',hb',hle⟩ := htried.best hall (by omega)
    obtain rfl := Option.some.inj (hb.symm.trans hb')
    rw [hvalue,hobj]
    exact hle

theorem optimizes_stuck (hc : Fresh p c) (hopt : Optimizes p o c) (hall : All p m₀)
    (hok : (tightenUb o.var (o.value m₀ - 1#64)).1 ≠ .conflict) :
    ¬ (o.own = true → holds (tightenUb o.var (o.value m₀ - 1#64)).2 (o.value m₀) = true) := by
  intro hstill
  have hagain : ∀ s : State V, Fresh p s.ctx → s.round < 2 →
      (o.own = true → holds s.record (o.value m₀) = true) →
      ∃ s', round (prefer p o m₀) o 2 (fun _ => false) s = .again s' ∧ Fresh p s'.ctx ∧
        s'.round = s.round+1 ∧ s'.log = o.value m₀::s.log ∧
        (o.own = true → holds s'.record (o.value m₀) = true) := by
    intro s hs hlt hrec
    have hq : query p o s.record s.ctx.value m₀ := by
      refine ⟨within_hard.mpr ⟨hall.1,hrec⟩,fun i _ => ?_⟩
      by_cases hi : i ∈ p.indices
      · exact hall.2 i hi
      · exact p.meets_outside hi
    let c' : Ctx V := { s.ctx.setMask (entryMask s.ctx) with
      calls := s.ctx.calls+1, found := some m₀ }
    have hsolve : solverSolve (prefer p o m₀) o s.record s.ctx = some (.ok c') :=
      solverSolve_first (prefer_core hq _)
    refine ⟨{ s.keep o c' m₀ with
      record := (tightenUb o.var (o.value m₀ - 1#64)).2, round := s.round+1 },?_,
      fresh_reset hs.of,rfl,rfl,hstill⟩
    have hgo : ¬ (2 ≤ s.round ∨ (fun _ : ℕ => false) s.round = true) :=
      fun h => h.elim (not_le.mpr hlt) nofun
    rw [round_ok hgo hsolve rfl]
    exact if_neg fun h => h.elim hok fun h => Bool.false_ne_true h
  obtain ⟨s₁,h₁,hf₁,hr₁,hl₁,hrec₁⟩ := hagain ⟨c,o.var,none,0,0,[]⟩ hc Nat.zero_lt_two
    fun _ => ho.inside m₀ hall.1
  obtain ⟨s₂,h₂,hf₂,hr₂,hl₂,_⟩ := hagain s₁ hf₁ (by rw [hr₁]; exact Nat.one_lt_two) hrec₁
  obtain ⟨r,hr,hrun⟩ := hopt _ (prefer_exact p o m₀) 2 fun _ => false
  obtain ⟨s,stop,hloop,rfl⟩ := optimize_some hr
  have hreach : Reach (round (prefer p o m₀) o 2 fun _ => false) 2 _ s₂ :=
    .step h₁ (.step h₂ (.refl s₂))
  have hend := hreach.loop_eq (round_limit (.inl (by rw [hr₂,hr₁]))) (Nat.lt_succ_self 2)
  obtain ⟨rfl,_⟩ := Prod.mk.inj (Option.some.inj (Option.some.inj (hend.symm.trans hloop)))
  have hpair := hrun.descends
  rw [show (s₂.result stop).log = s₂.log from rfl,hl₂,hl₁] at hpair
  have hlt := List.rel_of_pairwise_cons hpair (List.mem_cons_self ..)
  rw [varBLt_iff] at hlt
  exact lt_irrefl _ hlt

end Prefer

theorem optimizes_few (hc : Fresh p c) (hopt : Optimizes p o c) (hno : ¬ ∃ m, p.hard m = true) :
    p.softs.length ≤ 64 := by
  by_contra hn
  have hempty : ∀ v (S : Set ℕ), S ∉ (within p o v).feasible := by
    rintro v S ⟨m,hm,_⟩
    exact hno ⟨m,(within_hard.mp hm).1⟩
  have hF : Engine.Exact (fun _ => ⟨fun _ _ => .unsat,fun _ _ => true⟩) p o := fun v =>
    ⟨fun _ _ h => absurd h (hempty v _),fun _ _ _ => rfl,fun _ _ _ => rfl⟩
  obtain ⟨r,hr,_⟩ := hopt _ hF 1 fun _ => false
  obtain ⟨s,stop,hloop,_⟩ := optimize_some hr
  have hgo : ¬ (1 ≤ 0 ∨ (fun _ : ℕ => false) 0 = true) :=
    fun h => h.elim (by decide) Bool.false_ne_true
  rw [loop,round_undefined (s := ⟨c,o.var,none,0,0,[]⟩) hgo
    (solverSolve_undefined hF hc (not_le.mp hn) (hempty _ _))] at hloop
  cases Option.some.inj hloop

theorem Optimizes.suited (ho : o.Fits p) (hc : Fresh p c) (hopt : Optimizes p o c)
    (hm : ∃ m, p.hard m = true) : Suited p o := by
  obtain ⟨m₀,hm₀⟩ := hm
  obtain ⟨m,hall,hleast,hsofts,_⟩ := optimizes_ends ho hc hopt hm₀
  have hlowest : ∀ m, All p m → o.value m ≠ lowest o.var := by
    intro m hall hx
    have htighten : tightenUb o.var (o.value m - 1#64) = (.ok,o.var) := by
      rw [hx,tightenUb_lowest]
    refine optimizes_stuck ho hc hopt hall (by rw [htighten]; exact nofun) fun _ => ?_
    rw [htighten]
    exact ho.inside m hall.1
  have hhalf : o.var.beyond = true → ∀ m m', All p m → All p m' →
      (o.value m).msb = true → (o.value m').msb = true := by
    intro hb m m' hall hall' hmsb
    obtain ⟨m₁,hall₁,hleast₁,_,hle⟩ := optimizes_ends ho hc hopt hall.1
    have hle := hle hall
    have hlow := hleast₁ m' hall'.1
    rw [varOrd_beyond hb,varOrd_beyond hb] at hlow
    rw [BitVec.msb_eq_toInt,decide_eq_true_eq] at hmsb ⊢
    have hneg : (o.value m₁).toInt < 0 := hle.trans_lt hmsb
    rw [BitVec.toInt_eq_toNat_cond] at hneg ⊢
    split_ifs at hneg ⊢ <;> omega
  refine ⟨⟨m,hall⟩,hlowest,fun hb m m' hall hall' => ?_,fun _ => ?_,fun hown m hall => ?_⟩
  · exact Bool.eq_iff_iff.mpr ⟨hhalf hb m m' hall hall',hhalf hb m' m hall' hall⟩
  · exact hsofts.imp_right fun h => ⟨m,hall,h⟩
  · by_contra hne
    have hok := mt (tightenUb_conflict ho.ok (ho.inside m hall.1) (hlowest m hall)).mp hne
    exact optimizes_stuck ho hc hopt hall hok fun h => absurd (hown.symm.trans h) nofun

/-- With every exact engine `dvs_solver_optimize` descends to the least value of the objective
just when there is no solution, and no more softs than the mask has bits, or the softs and the
objective suit. -/
theorem optimizes_iff (p : Problem V) (o : Objective V) (c : Ctx V) (ho : o.Fits p)
    (hc : Fresh p c) : Optimizes p o c ↔ (¬ ∃ m, p.hard m = true) ∧ p.softs.length ≤ 64 ∨ Suited p o := by
  refine ⟨fun hopt => ?_,fun h F hF R late => ?_⟩
  · by_cases hm : ∃ m, p.hard m = true
    · exact .inr (hopt.suited ho hc hm)
    · exact .inl ⟨hm,optimizes_few hc hopt hm⟩
  · obtain ⟨hno,hn⟩ | hs := h
    · exact optimize_unsat hF ho hc hn hno R late
    · exact optimize_suited hF ho hs hc R late

def oneBit (soft : Bool → Bool) : Problem Bool := ⟨fun _ => true,[⟨soft,0⟩]⟩

def bitObjective : Objective Bool where
  var := ⟨0#32,1#32,(0#64,0#64),1,false,false,false,false⟩
  own := true
  value b := if b then 1#64 else 0#64

theorem bitObjective_fits (soft : Bool → Bool) : bitObjective.Fits (oneBit soft) :=
  ⟨⟨by decide,by decide,rfl,fun _ => by decide,fun _ _ => by decide,by decide,by decide⟩,
    fun m _ => by cases m <;> decide⟩

theorem oneBit_fresh (soft : Bool → Bool) :
    Fresh (oneBit soft) (compileSofts (oneBit soft) true fun _ => true) :=
  ⟨compileSofts_of rfl fun _ => rfl,rfl⟩

/-- The soft asks for the lower value. -/
theorem optimizes_low : Optimizes (oneBit not) bitObjective
    (compileSofts (oneBit not) true fun _ => true) := by
  have hall : All (oneBit not) false := ⟨rfl,fun i hi ss hss => by
    obtain rfl : i = 0 := Nat.lt_one_iff.mp hi
    obtain rfl := Option.some.inj hss
    rfl⟩
  refine (optimizes_iff _ _ _ (bitObjective_fits not) (oneBit_fresh not)).mpr (.inr
    ⟨⟨false,hall⟩,fun m _ => ?_,fun h => absurd h (by decide),fun _ => .inr ⟨false,hall,by decide⟩,
      fun h => absurd h (by decide)⟩)
  cases m <;> decide

/-- The soft asks for the higher value: with an exact engine, the least value is not found. -/
theorem optimizes_high : ∃ F : Engine Bool, F.Exact (oneBit id) bitObjective ∧ ∃ R late,
    ¬ ∃ r, optimize F bitObjective R late (compileSofts (oneBit id) true fun _ => true) = some r ∧
      Optimal (oneBit id) bitObjective r := by
  by_contra hno
  have hopt : Optimizes (oneBit id) bitObjective
      (compileSofts (oneBit id) true fun _ => true) := by
    intro F hF R late
    by_contra hr
    exact hno ⟨F,hF,R,late,hr⟩
  have hs := hopt.suited (bitObjective_fits id) (oneBit_fresh id) ⟨true,rfl⟩
  obtain hnil | ⟨m,hall,hleast⟩ := hs.softs rfl
  · exact absurd hnil nofun
  · have hm : m = true := hall.2 0 Nat.one_pos ⟨id,0⟩ rfl
    rw [hm] at hleast
    exact absurd hleast (by decide)

end Optimize
end DvSolve
