import DvSolve.CubeRun
import DvSolve.SatSem

/-! The clause log of `dvs_cube_check`.
The primary instance copies every literal it is given into a growing buffer (`rec_append`)
and the workers replay the copy. A failed growth ends the copy where it stands. -/
namespace DvSolve
namespace Cubes

open DvSolve.Sat Cnf
open List (append_assoc length_append length_singleton)

structure Recorder where
  recording : Bool
  recBuf : List ℤ
  recCap : ℕ
  grows : ℕ

def recAppend (alloc : ℕ → Bool) (r : Recorder) (lit : ℤ) : Recorder :=
  if r.recBuf.length = r.recCap then
    if alloc r.grows then
      { r with
        recBuf := r.recBuf ++ [lit]
        recCap := if r.recCap = 0 then 4096 else r.recCap*2
        grows := r.grows+1 }
    else { r with recording := false, grows := r.grows+1 }
  else { r with recBuf := r.recBuf ++ [lit] }

/-- `dvs_sat_recorded`: there is no buffer before it first grows. -/
def Recorder.recorded (r : Recorder) : Option (List ℤ) :=
  if r.recCap = 0 then none else some r.recBuf

structure Primary where
  sat : DvsSat
  recorder : Recorder

def Primary.add (alloc : ℕ → Bool) (p : Primary) (lit : ℤ) : Primary where
  sat := p.sat.dvsSatAdd lit
  recorder := if p.recorder.recording then recAppend alloc p.recorder lit else p.recorder

def Primary.start (incremental lazy recording : Bool) : Primary :=
  ⟨satNew incremental lazy,recording,[],0,0⟩

def worker (maxVar : ℕ) (db : List ℤ) : DvsSat :=
  db.foldl DvsSat.dvsSatAdd ((satNew true false).dvsSatReserve maxVar)

inductive Encoded
  | ready | unknown | error
  deriving DecidableEq

/-- What a check works on: the number of workers, the end of the encode, the literals it
adds and the material of the frontier. -/
structure Problem where
  nWorkers : ℕ
  incremental : Bool
  isLazy : Bool
  encoded : Encoded
  lits : List ℤ
  cfg : Config
  useCart : Bool
  pushCart : ℕ → Bool
  push : ℕ → Bool
  cap : ℕ
  budget : ℕ
  groups : List (List ℤ)
  orlits : List ℤ

variable {r : Recorder} {x : Problem} {total : ℕ} {c : Cube} {v : ℕ → Bool} {ch : Choice}
  {m : Option (ℕ → Bool)} {s : Pool}

/-- What a run cannot choose: the answer of a solve without cubes (`none` an engine
error), and what `runParallel` and `runSequential` are given. -/
structure Run where
  single : Option Answer
  setup : Bool
  spCube : ℕ
  spPort : ℕ
  events : List Event
  choices : List (Option Choice)
  install : Bool

def Problem.primary (alloc : ℕ → Bool) (x : Problem) : Primary :=
  x.lits.foldl (Primary.add alloc) (.start x.incremental x.isLazy (2 ≤ x.nWorkers))

def Problem.frontier (x : Problem) : List Cube × List (List ℤ) :=
  initialFrontier x.useCart x.pushCart x.push x.cap x.budget x.groups x.orlits x.cfg.bits

def Problem.config (x : Problem) : Config := { x.cfg with ors := x.frontier.2 }

def Problem.handed (alloc : ℕ → Bool) (x : Problem) : List ℤ :=
  (x.primary alloc).recorder.recorded.getD []

/-- The check comes to ask for the log: there are cubes, and two workers for them. -/
def Problem.Asks (x : Problem) : Prop :=
  x.encoded = .ready ∧ x.incremental = true ∧ x.frontier.1 ≠ [] ∧ 2 ≤ x.nWorkers

/-- `dvs_bbsolver_solve_assuming` without assumptions or limit. -/
def singleShot : Option Answer → CubeResult × Option (ℕ → Bool)
  | none => (.error,none)
  | some (.sat v) => (.sat,some v)
  | some .unsat => (.unsat,none)
  | some .unknown => (.unknown,none)

/-- `dvs_bbsolver_install_worker_model`: node 1 is TRUE. -/
def installed (v : ℕ → Bool) : ℕ → Bool := Function.update v 1 true

def cubeCheck (alloc : ℕ → Bool) (x : Problem) (r : Run) :
    Option (CubeResult × Option (ℕ → Bool)) :=
  match x.encoded with
  | .unknown => some (.unknown,none)
  | .error => some (.error,none)
  | .ready =>
    let q := x.frontier.1
    if !x.incremental then some (singleShot r.single)
    else if q = [] then some (singleShot r.single)
    else if x.nWorkers < 2 then runSequential x.config r.choices q q.length false
    else if x.handed alloc = [] then runSequential x.config r.choices q q.length false
    else
      match runParallel x.config q q.length r.setup r.spCube r.spPort r.events r.choices
        r.install with
      | none => none
      | some (.error,_) => some (singleShot r.single)
      | some (res,m) =>
        some (res,if r.spCube + r.spPort = 0 then m else m.map installed)

def clausesOf (lits : List ℤ) : List (List ℤ) := clauses (lits.map Call.add)

/-- The engine's answers are right for the clauses the primary instance has, those of a
worker for the clauses it has replayed. -/
structure Run.Right (alloc : ℕ → Bool) (x : Problem) (r : Run) : Prop where
  single : ∀ a, r.single = some a → a.Right (clauses (x.primary alloc).sat.calls) []
  choices : SequentialRight (clauses (x.primary alloc).sat.calls) x.config r.choices
    x.frontier.1 x.frontier.1.length
  pool : (Pool.init x.frontier.1 x.frontier.1.length r.spCube r.spPort).RightRun
    (clauses (worker (x.primary alloc).sat.maxVar (x.handed alloc)).calls) x.config r.events

def OneFixed (cs : List (List ℤ)) : Prop := [1] ∈ cs ∨ ∀ c ∈ cs, ∀ l ∈ c, l.natAbs ≠ 1

/-- The literals recorded before the `k`-th allocation is asked for. -/
def capAt : ℕ → ℕ
  | 0 => 0
  | k+1 => 4096*2^k

/-- The first allocation fails, or all those that `n` literals ask for succeed. -/
def Kept (alloc : ℕ → Bool) (n : ℕ) : Prop :=
  alloc 0 = false ∨ ∀ k, capAt k < n → alloc k = true

theorem capAt_lt (k : ℕ) : capAt k < capAt (k+1) := by
  cases k with
  | zero => decide
  | succ k =>
    have : 0 < 2^k := Nat.two_pow_pos k
    simp only [capAt,pow_succ]
    omega

structure Recorder.Ready (r : Recorder) : Prop where
  recording : r.recording = true
  cap : r.recCap = capAt r.grows
  length_le : r.recBuf.length ≤ r.recCap

variable {alloc : ℕ → Bool}

def record (alloc : ℕ → Bool) (r : Recorder) (lits : List ℤ) : Recorder :=
  lits.foldl (fun r lit => if r.recording then recAppend alloc r lit else r) r

theorem record_cons (r : Recorder) (lit : ℤ) (lits : List ℤ) :
    record alloc r (lit :: lits) =
      record alloc (if r.recording then recAppend alloc r lit else r) lits := rfl

theorem record_off (h : r.recording = false) (lits : List ℤ) :
    record alloc r lits = r := by
  induction lits with
  | nil => rfl
  | cons lit lits ih => rw [record_cons,if_neg (by simp [h]),ih]

theorem Recorder.Ready.grow (h : r.Ready) (hfull : r.recBuf.length = r.recCap)
    (ha : alloc r.grows = true) (lit : ℤ) :
    (recAppend alloc r lit).Ready ∧ (recAppend alloc r lit).recBuf = r.recBuf ++ [lit] ∧
      (recAppend alloc r lit).grows = r.grows+1 := by
  have hcap : (if r.recCap = 0 then 4096 else r.recCap*2) = capAt (r.grows+1) := by
    rw [h.cap]
    cases r.grows with
    | zero => rfl
    | succ k =>
      rw [if_neg (by simp [capAt]),capAt,capAt,pow_succ]
      ring
  have hlt := capAt_lt r.grows
  rw [recAppend,if_pos hfull,if_pos ha]
  refine ⟨⟨h.recording,hcap,?_⟩,rfl,rfl⟩
  change (r.recBuf ++ [lit]).length ≤ if r.recCap = 0 then 4096 else r.recCap*2
  rw [hcap,length_append,length_singleton,hfull,h.cap]
  omega

theorem Recorder.Ready.push (h : r.Ready) (hroom : r.recBuf.length ≠ r.recCap) (lit : ℤ) :
    (recAppend alloc r lit).Ready ∧ (recAppend alloc r lit).recBuf = r.recBuf ++ [lit] ∧
      (recAppend alloc r lit).grows = r.grows := by
  have hle := h.length_le
  rw [recAppend,if_neg hroom]
  refine ⟨⟨h.recording,h.cap,?_⟩,rfl,rfl⟩
  change (r.recBuf ++ [lit]).length ≤ r.recCap
  rw [length_append,length_singleton]
  omega

theorem record_all (h : r.Ready) (lits : List ℤ)
    (ha : ∀ k, r.grows ≤ k → capAt k < r.recBuf.length + lits.length → alloc k = true) :
    (record alloc r lits).recBuf = r.recBuf ++ lits := by
  induction lits generalizing r with
  | nil => simp [record]
  | cons lit lits ih =>
    rw [record_cons,if_pos h.recording]
    simp only [List.length_cons] at ha
    by_cases hfull : r.recBuf.length = r.recCap
    · obtain ⟨hr,hbuf,hgrows⟩ := Recorder.Ready.grow h hfull
        (ha _ le_rfl (by rw [← h.cap]; omega)) lit
      rw [ih hr,hbuf,append_assoc,List.singleton_append]
      intro k hk hlt
      rw [hbuf,length_append,length_singleton] at hlt
      exact ha k (by omega) (by omega)
    · obtain ⟨hr,hbuf,hgrows⟩ := Recorder.Ready.push h hfull lit
      rw [ih hr,hbuf,append_assoc,List.singleton_append]
      intro k hk hlt
      rw [hbuf,length_append,length_singleton] at hlt
      exact ha k (by omega) (by omega)

theorem record_fails (h : r.Ready) (lits : List ℤ) {k : ℕ} (hk : r.grows ≤ k)
    (hbefore : ∀ j, r.grows ≤ j → j < k → alloc j = true) (hfail : alloc k = false)
    (hlt : capAt k < r.recBuf.length + lits.length) :
    (record alloc r lits).recBuf = (r.recBuf ++ lits).take (capAt k) := by
  induction lits generalizing r with
  | nil =>
    have hmono : capAt r.grows ≤ capAt k := monotone_nat_of_le_succ (fun j => (capAt_lt j).le) hk
    have hle := h.length_le
    rw [h.cap] at hle
    simp only [List.length_nil] at hlt
    omega
  | cons lit lits ih =>
    rw [record_cons,if_pos h.recording]
    simp only [List.length_cons] at hlt
    by_cases hfull : r.recBuf.length = r.recCap
    · by_cases hnow : r.grows = k
      · have hoff : recAppend alloc r lit = { r with recording := false, grows := r.grows+1 } := by
          simp [recAppend,hfull,hnow,hfail]
        rw [record_off (by rw [hoff]),hoff]
        have hlen : r.recBuf.length = capAt k := by rw [hfull,h.cap,hnow]
        rw [List.take_append_of_le_length hlen.ge,← hlen,List.take_length]
      · obtain ⟨hr,hbuf,hgrows⟩ := Recorder.Ready.grow h hfull
          (hbefore _ le_rfl (by omega)) lit
        rw [ih hr (by omega) (fun j hj => hbefore j (by omega)),hbuf,append_assoc,List.singleton_append]
        rw [hbuf,length_append,length_singleton]
        omega
    · obtain ⟨hr,hbuf,hgrows⟩ := Recorder.Ready.push h hfull lit
      rw [ih hr (by omega) (fun j hj => hbefore j (by omega)),hbuf,append_assoc,List.singleton_append]
      rw [hbuf,length_append,length_singleton]
      omega

theorem record_room (h : r.recBuf.length ≤ r.recCap) (lits : List ℤ) :
    (record alloc r lits).recBuf.length ≤ (record alloc r lits).recCap := by
  induction lits generalizing r with
  | nil => exact h
  | cons lit lits ih =>
    have hstep : (recAppend alloc r lit).recBuf.length ≤ (recAppend alloc r lit).recCap := by
      by_cases hfull : r.recBuf.length = r.recCap
      · rw [recAppend,if_pos hfull]
        by_cases ha : alloc r.grows = true
        · rw [if_pos ha]
          change (r.recBuf ++ [lit]).length ≤ if r.recCap = 0 then 4096 else r.recCap*2
          rw [length_append,length_singleton,hfull]
          split_ifs with hcap
          · omega
          · omega
        · rw [if_neg ha]
          exact h
      · rw [recAppend,if_neg hfull]
        change (r.recBuf ++ [lit]).length ≤ r.recCap
        rw [length_append,length_singleton]
        omega
    rw [record_cons]
    split_ifs
    · exact ih hstep
    · exact ih h

theorem handed_eq (h : r.recBuf.length ≤ r.recCap) :
    r.recorded.getD [] = r.recBuf := by
  unfold Recorder.recorded
  split_ifs with hcap
  · rw [hcap,Nat.le_zero,List.length_eq_zero_iff] at h
    rw [h]
    rfl
  · rfl

theorem primary_recorder (x : Problem) : (x.primary alloc).recorder =
    record alloc (Primary.start x.incremental x.isLazy (2 ≤ x.nWorkers)).recorder x.lits := by
  unfold Problem.primary record
  generalize Primary.start x.incremental x.isLazy (2 ≤ x.nWorkers) = p
  induction x.lits generalizing p with
  | nil => rfl
  | cons lit lits ih => exact ih (p.add alloc lit)

theorem handed_record (x : Problem) : x.handed alloc = (record alloc
    (Primary.start x.incremental x.isLazy (2 ≤ x.nWorkers)).recorder x.lits).recBuf := by
  rw [Problem.handed,primary_recorder]
  exact handed_eq (record_room (by simp [Primary.start]) _)

theorem start_ready (hw : 2 ≤ x.nWorkers) :
    (Primary.start x.incremental x.isLazy (2 ≤ x.nWorkers)).recorder.Ready :=
  ⟨decide_eq_true hw,rfl,le_rfl⟩

theorem handed_fails (hw : 2 ≤ x.nWorkers) {k : ℕ} (hfail : alloc k = false)
    (hbefore : ∀ j < k, alloc j = true) (hlt : capAt k < x.lits.length) :
    x.handed alloc = x.lits.take (capAt k) := by
  have h := record_fails (start_ready hw) x.lits (Nat.zero_le k) (fun j _ hj => hbefore j hj)
    hfail (by simpa [Primary.start] using hlt)
  rw [handed_record,h]
  rfl

/-- The log handed over is empty or the whole stream just when nothing was recorded, the
first allocation failed or none did. -/
theorem handed_iff (x : Problem) :
    (x.handed alloc = [] ∨ x.handed alloc = x.lits) ↔ x.nWorkers < 2 ∨ Kept alloc x.lits.length := by
  by_cases hw : x.nWorkers < 2
  · have hoff : (Primary.start x.incremental x.isLazy (2 ≤ x.nWorkers)).recorder.recording =
        false := decide_eq_false (by omega)
    rw [handed_record,record_off hoff]
    exact ⟨fun _ => .inl hw,fun _ => .inl rfl⟩
  · rw [or_iff_right hw]
    by_cases hall : ∀ k, capAt k < x.lits.length → alloc k = true
    · refine ⟨fun _ => .inr hall,fun _ => .inr ?_⟩
      rw [handed_record,record_all (start_ready (by omega)) x.lits fun k _ hk => hall k
        (by simpa [Primary.start] using hk)]
      rfl
    · -- the log ends at the first allocation that fails
      have hex : ∃ k, capAt k < x.lits.length ∧ alloc k = false := by
        simpa using hall
      obtain ⟨hlt,hfail⟩ := Nat.find_spec hex
      have hbefore : ∀ j < Nat.find hex, alloc j = true := by
        intro j hj
        have hmono : capAt j ≤ capAt (Nat.find hex) :=
          monotone_nat_of_le_succ (fun j => (capAt_lt j).le) hj.le
        have := Nat.find_min hex hj
        simpa [show capAt j < x.lits.length by omega] using this
      rw [handed_fails (by omega) hfail hbefore hlt,Kept,or_iff_left hall]
      cases hk : Nat.find hex with
      | zero =>
        rw [hk] at hfail
        exact ⟨fun _ => hfail,fun _ => .inl rfl⟩
      | succ k =>
        rw [hk] at hlt hbefore
        have hpos : 0 < capAt (k+1) := by
          have := capAt_lt k
          omega
        constructor
        · rintro (h | h)
          · have := congrArg List.length h
            rw [List.length_take,List.length_nil] at this
            omega
          · have := congrArg List.length h
            rw [List.length_take] at this
            omega
        · intro h
          rw [hbefore 0 (by omega)] at h
          exact absurd h (by simp)

theorem dvsSatAdd_calls {s : DvsSat} (h : s.LogOk) (hsel : s.selStack = []) (lit : ℤ) :
    (s.dvsSatAdd lit).calls = s.calls ++ [.add lit] ∧ (s.dvsSatAdd lit).LogOk ∧
      (s.dvsSatAdd lit).selStack = [] := by
  have hrest : ∀ p : DvsSat, (p.vtAdd lit).selStack = p.selStack := fun p => by
    simpa [DvsSat.rest] using congrArg DvsSat.selStack (DvsSat.vtAdd_rest p lit)
  have htag : s.tagClause = s := by simp [DvsSat.tagClause,hsel]
  unfold DvsSat.dvsSatAdd
  split_ifs with hzero hlast
  · subst hzero
    exact ⟨(DvsSat.vtAdd_spec h 0).1,(DvsSat.vtAdd_spec h 0).2,(hrest s).trans hsel⟩
  · subst hzero
    rw [htag]
    have h' : ({ s with numClauses := s.numClauses+1 } : DvsSat).LogOk := h
    exact ⟨(DvsSat.vtAdd_spec h' 0).1,(DvsSat.vtAdd_spec h' 0).2,(hrest _).trans hsel⟩
  · exact ⟨(DvsSat.vtAdd_spec h lit).1,(DvsSat.vtAdd_spec h lit).2,(hrest s).trans hsel⟩

theorem foldl_add_calls (lits : List ℤ) {s : DvsSat} (h : s.LogOk) (hsel : s.selStack = []) :
    (lits.foldl DvsSat.dvsSatAdd s).calls = s.calls ++ lits.map Call.add := by
  induction lits generalizing s with
  | nil => simp
  | cons lit lits ih =>
    obtain ⟨hcalls,hlog,hsel'⟩ := dvsSatAdd_calls h hsel lit
    rw [List.foldl_cons,ih hlog hsel',hcalls,append_assoc]
    rfl

theorem satNew_logOk (incremental isLazy : Bool) : (satNew incremental isLazy).LogOk := rfl

theorem primary_clauses (x : Problem) :
    clauses (x.primary alloc).sat.calls = clausesOf x.lits := by
  have hsat : (x.primary alloc).sat = x.lits.foldl DvsSat.dvsSatAdd (satNew x.incremental x.isLazy) := by
    unfold Problem.primary
    change _ = x.lits.foldl DvsSat.dvsSatAdd
      (Primary.start x.incremental x.isLazy (2 ≤ x.nWorkers)).sat
    generalize Primary.start x.incremental x.isLazy (2 ≤ x.nWorkers) = p
    induction x.lits generalizing p with
    | nil => rfl
    | cons lit lits ih => exact ih (p.add alloc lit)
  have hnew : (satNew x.incremental x.isLazy).calls = [] := by
    cases x.isLazy <;> rfl
  rw [hsat,foldl_add_calls _ (satNew_logOk _ _) rfl,hnew]
  rfl

theorem worker_clauses (maxVar : ℕ) (db : List ℤ) :
    clauses (worker maxVar db).calls = clausesOf db := by
  rw [worker]
  rcases Nat.eq_zero_or_pos maxVar with hm | hm
  · rw [hm,DvsSat.dvsSatReserve,if_neg (lt_irrefl 0),foldl_add_calls _ (satNew_logOk _ _) rfl]
    rfl
  · have hspec := DvsSat.vtSet_spec (satNew_logOk true false) .reserve (maxVar : ℤ)
    have hsel : ((satNew true false).vtSet .reserve (maxVar : ℤ)).selStack = [] := rfl
    rw [DvsSat.dvsSatReserve,if_pos hm]
    have hcalls := foldl_add_calls db
      (s:={ (satNew true false).vtSet .reserve (maxVar : ℤ) with
        maxVar := max ((satNew true false).vtSet .reserve (maxVar : ℤ)).maxVar maxVar })
      hspec.2 hsel
    rw [hcalls]
    have hfirst : ({ (satNew true false).vtSet .reserve (maxVar : ℤ) with
        maxVar := max ((satNew true false).vtSet .reserve (maxVar : ℤ)).maxVar maxVar }
          : DvsSat).calls = [.set .reserve maxVar] := hspec.1
    rw [hfirst]
    rfl

variable {clauses : List (List ℤ)} {cfg : Config}

theorem laLoop_sat {probe : ℕ → Answer} {la : ℕ → Bool} {nprobe : ℕ} {ds : List ℤ} {i : ℕ}
    {kids : List Cube}
    (hprobe : ∀ j d, ds[j]? = some d → (probe (i+j)).Right clauses (c.lits ++ [d]))
    (h : laLoop cfg probe la nprobe total c i kids ds = .sat v) : Satisfies v clauses := by
  induction ds generalizing i kids with
  | nil =>
    rw [laLoop] at h
    split_ifs at h
  | cons d ds ih =>
    have hnext : ∀ j d', ds[j]? = some d' → (probe (i+1+j)).Right clauses (c.lits ++ [d']) := by
      intro j d' hd
      rw [show i+1+j = i+(j+1) by omega]
      exact hprobe (j+1) d' (by simpa using hd)
    have hhere := hprobe 0 d rfl
    rw [laLoop] at h
    split at h
    · rename_i w hw
      split_ifs at hw
      rw [Nat.add_zero,hw] at hhere
      cases h
      exact hhere.1
    · exact ih hnext h
    · split_ifs at h
      split at h
      · exact absurd h (by simp)
      · exact ih hnext h

theorem lookaheadChildren_sat (hch : ch.Right clauses cfg c)
    (h : lookaheadChildren cfg ch.probe ch.buf ch.laAlloc total c = .sat v) :
    Satisfies v clauses := by
  unfold lookaheadChildren at h
  by_cases hdepth : c.depth ≥ cfg.maxDepth
  · simp [hdepth] at h
  · rw [if_neg hdepth] at h
    cases hg : cfg.ors[c.orDepth]? with
    | none => simp [hg] at h
    | some g =>
      rw [hg] at h
      dsimp only at h
      split_ifs at h
      exact laLoop_sat (fun j d hd => by simpa using hch.probe g hg j d hd) h

theorem conquer_sat {tcSnap : ℕ} (hch : ch.Right clauses cfg c)
    (h : conquer cfg ch tcSnap total c = .sat v) :
    Satisfies v clauses := by
  have hrc := hch.rc
  unfold conquer at h
  cases hr : ch.rc with
  | sat w =>
    rw [hr] at h hrc
    cases h
    exact hrc.1
  | unsat => simp [hr] at h
  | unknown =>
    rw [hr] at h
    simp only [deepen] at h
    split at h
    · rename_i w hw
      split_ifs at hw
      cases h
      exact lookaheadChildren_sat hch hw
    · exact absurd h (by simp)
    · exact absurd h (by simp)
    · exact absurd h (by simp)

theorem runSequential_sat {chs : List (Option Choice)} {q : List Cube} {unresolved : Bool}
    (hright : SequentialRight clauses cfg chs q total)
    (h : runSequential cfg chs q total unresolved = some (.sat,m)) :
    ∃ v, m = some v ∧ Satisfies v clauses := by
  induction chs generalizing q total unresolved with
  | nil =>
    cases q with
    | nil =>
      rw [runSequential_nil] at h
      cases unresolved <;> simp at h
    | cons c q => simp [runSequential] at h
  | cons o chs ih =>
    cases q with
    | nil =>
      rw [runSequential_nil] at h
      cases unresolved <;> simp at h
    | cons c q =>
      cases o with
      | none => simp [runSequential] at h
      | some ch =>
        obtain ⟨hch,hright⟩ := hright
        rw [runSequential] at h
        cases ho : conquer cfg ch total total c with
        | sat v =>
          rw [ho] at h
          simp only [Option.some.injEq,Prod.mk.injEq,true_and] at h
          exact ⟨v,h.symm,conquer_sat hch ho⟩
        | refuted =>
          rw [ho] at h hright
          exact ih hright h
        | kids ks =>
          rw [ho] at h hright
          cases ks with
          | nil => exact ih hright h
          | cons k ks => exact ih hright h

def Pool.Won (clauses : List (List ℤ)) (s : Pool) : Prop :=
  s.result = .sat → ∃ v, s.winner = some v ∧ Satisfies v clauses

theorem Pool.Won.win (hs : s.Won clauses) (hv : Satisfies v clauses) :
    (s.win v).Won clauses := by
  unfold Pool.win
  split_ifs
  · exact hs
  · exact fun _ => ⟨v,rfl,hv⟩

theorem Pool.Won.finish (hs : s.Won clauses) {i : ℕ} {tcSnap : ℕ} (hch : ch.Right clauses cfg c) :
    (s.finish cfg i ch c tcSnap).Won clauses := by
  unfold Pool.finish
  split
  · rename_i v hv
    exact hs.win (conquer_sat hch hv)
  · exact hs
  · exact hs
  · exact hs

theorem Pool.Won.port (hs : s.Won clauses) {j : ℕ} {rc : Answer} (hrc : rc.Right clauses []) :
    (s.port j rc).Won clauses := by
  cases rc with
  | sat v => exact hs.win hrc.1
  | unsat =>
    unfold Pool.port
    by_cases hstop : s.stop = true
    · rw [if_pos hstop]
      exact hs
    · rw [if_neg hstop]
      exact fun h => absurd h (by simp)
  | unknown =>
    unfold Pool.port
    split_ifs
    · exact hs
    · exact hs

theorem Pool.Won.step {s' : Pool} (hs : s.Won clauses) {e : Event} (he : e.Right clauses cfg s)
    (h : s.step cfg e = some s') : s'.Won clauses := by
  cases e with
  | fail i =>
    simp only [Pool.step] at h
    split at h
    · cases h
      exact hs
    · cases h
  | loop i =>
    have hloop : (s.loopHead i).Won clauses := by
      unfold Pool.loopHead
      by_cases hstop : s.stop = true
      · rw [if_pos hstop]
        exact hs
      · rw [if_neg hstop]
        split
        · by_cases ha : s.active > 0
          · rw [if_pos ha]
            exact hs
          · rw [if_neg ha]
            exact hs
        · exact hs
    simp only [Pool.step] at h
    split at h
    · cases h
      exact hloop
    · cases h
      exact hloop
    · cases h
  | finish i ch =>
    simp only [Pool.step] at h
    split at h
    · rename_i c tcSnap hw
      cases h
      exact hs.finish (he c tcSnap hw)
    · cases h
  | portFail j =>
    simp only [Pool.step] at h
    split_ifs at h
    cases h
    exact hs
  | portStop j =>
    simp only [Pool.step] at h
    split_ifs at h
    cases h
    exact hs
  | port j rc =>
    simp only [Pool.step] at h
    split_ifs at h
    cases h
    exact hs.port he

theorem Pool.Won.run {s' : Pool} (hs : s.Won clauses) {es : List Event}
    (hright : s.RightRun clauses cfg es) (h : Pool.run cfg s es = some s') : s'.Won clauses := by
  induction es generalizing s with
  | nil =>
    cases h
    exact hs
  | cons e es ih =>
    simp only [Pool.run,Option.bind_eq_some_iff] at h
    obtain ⟨t,ht,h⟩ := h
    exact ih (hs.step hright.1 ht) (hright.2 t ht) h

theorem runParallel_sat {q : List Cube} {setup : Bool} {spCube spPort : ℕ} {es : List Event}
    {chs : List (Option Choice)} {install : Bool}
    (hpool : (Pool.init q total spCube spPort).RightRun clauses cfg es)
    (hseq : SequentialRight clauses cfg chs q total)
    (h : runParallel cfg q total setup spCube spPort es chs install = some (.sat,m)) :
    ∃ v, m = some v ∧ Satisfies v clauses := by
  unfold runParallel at h
  split_ifs at h
  · simp at h
  · exact runSequential_sat hseq h
  · split at h
    · rename_i s hs
      split_ifs at h
      simp only [Option.some.injEq,Prod.mk.injEq] at h
      obtain ⟨hres,rfl⟩ := h
      have hwon : (Pool.init q total spCube spPort).Won clauses := fun h => by
        simp [Pool.init] at h
      refine hwon.run hpool hs ?_
      simp only [Pool.verdict] at hres
      split_ifs at hres
      exact hres
    · simp at h

theorem satisfies_installed (hone : OneFixed clauses) (h : Satisfies v clauses) :
    Satisfies (installed v) clauses := by
  rcases hone with hunit | hfree
  · obtain ⟨l,hl,hval⟩ := h [1] hunit
    rw [List.mem_singleton] at hl
    subst hl
    have hv : v 1 = true := by simpa [litValue] using hval
    rw [installed,← hv,Function.update_eq_self]
    exact h
  · intro c hc
    obtain ⟨l,hl,hval⟩ := h c hc
    refine ⟨l,hl,?_⟩
    rw [litValue,installed,Function.update_of_ne (hfree c hc l hl)]
    exact hval

theorem singleShot_sat {a : Option Answer} (ha : ∀ rc, a = some rc → rc.Right clauses [])
    (h : singleShot a = (.sat,m)) :
    ∃ v, m = some v ∧ Satisfies v clauses := by
  match a, h with
  | some (.sat v), h =>
    simp only [singleShot,Prod.mk.injEq,true_and] at h
    exact ⟨v,h.symm,(ha _ rfl).1⟩

/-- With an empty log or the whole one a model that is reported satisfies the clauses. -/
theorem cubeCheck_sat (hone : OneFixed (clausesOf x.lits))
    (hlog : x.Asks → x.handed alloc = [] ∨ x.handed alloc = x.lits) {r : Run} (hr : r.Right alloc x)
    (h : cubeCheck alloc x r = some (.sat,m)) :
    ∃ v, m = some v ∧ Satisfies v (clausesOf x.lits) := by
  have hsingle := hr.single
  have hseq := hr.choices
  rw [primary_clauses] at hsingle hseq
  unfold cubeCheck at h
  split at h
  · simp at h
  · simp at h
  · rename_i hready
    by_cases hinc : (!x.incremental) = true
    · rw [if_pos hinc] at h
      exact singleShot_sat hsingle (Option.some.inj h)
    rw [if_neg hinc] at h
    by_cases hq : x.frontier.1 = []
    · rw [if_pos hq] at h
      exact singleShot_sat hsingle (Option.some.inj h)
    rw [if_neg hq] at h
    by_cases hw : x.nWorkers < 2
    · rw [if_pos hw] at h
      exact runSequential_sat hseq h
    rw [if_neg hw] at h
    by_cases hempty : x.handed alloc = []
    · rw [if_pos hempty] at h
      exact runSequential_sat hseq h
    rw [if_neg hempty] at h
    have hpool := hr.pool
    have hasks : x.Asks := ⟨hready,by simpa using hinc,hq,not_lt.mp hw⟩
    rw [worker_clauses,(hlog hasks).resolve_left hempty] at hpool
    split at h
    · exact absurd h (by simp)
    · exact singleShot_sat hsingle (Option.some.inj h)
    · rename_i res n _ hrun
      simp only [Option.some.injEq,Prod.mk.injEq] at h
      obtain ⟨rfl,hm⟩ := h
      obtain ⟨v,rfl,hv⟩ := runParallel_sat hpool hseq hrun
      by_cases hspawn : r.spCube + r.spPort = 0
      · rw [if_pos hspawn] at hm
        exact ⟨v,hm.symm,hv⟩
      · rw [if_neg hspawn] at hm
        exact ⟨installed v,hm.symm,satisfies_installed hone hv⟩

/-- A check that asks for the log is handed none or the whole one, and every model that is
reported satisfies the clauses, just when the check does not ask for it, the first allocation
of the log fails or all those its literals ask for succeed. -/
theorem cubeCheck_exact_iff (alloc : ℕ → Bool) (x : Problem)
    (hone : OneFixed (clausesOf x.lits)) :
    ((x.Asks → x.handed alloc = [] ∨ x.handed alloc = x.lits) ∧
      ∀ r, r.Right alloc x → ∀ m, cubeCheck alloc x r = some (.sat,m) →
        ∃ v, m = some v ∧ Satisfies v (clausesOf x.lits)) ↔
      (x.Asks → Kept alloc x.lits.length) := by
  have hiff : x.Asks →
      ((x.handed alloc = [] ∨ x.handed alloc = x.lits) ↔ Kept alloc x.lits.length) := by
    rintro ⟨_,_,_,hw⟩
    rw [handed_iff,or_iff_right (not_lt.mpr hw)]
  constructor
  · exact fun h hasks => (hiff hasks).mp (h.1 hasks)
  · intro h
    have hlog := fun hasks => (hiff hasks).mpr (h hasks)
    exact ⟨hlog,fun r hr m hm => cubeCheck_sat hone hlog hr hm⟩

def pairOf (lits : List ℤ) : Problem where
  nWorkers := 2
  incremental := true
  isLazy := false
  encoded := .ready
  lits := lits
  cfg := ⟨[],[3],6,24,4000000,false,64⟩
  useCart := false
  pushCart := fun _ => true
  push := fun _ => true
  cap := 200000
  budget := 8000
  groups := []
  orlits := []

theorem cubeCheck_exact_iff_unit :
    ((pairOf [2,0]).Asks → (pairOf [2,0]).handed (fun _ => true) = [] ∨
        (pairOf [2,0]).handed (fun _ => true) = [2,0]) ∧
      ∀ r, r.Right (fun _ => true) (pairOf [2,0]) → ∀ m,
        cubeCheck (fun _ => true) (pairOf [2,0]) r = some (.sat,m) →
          ∃ v, m = some v ∧ Satisfies v (clausesOf [2,0]) :=
  (cubeCheck_exact_iff (fun _ => true) (pairOf [2,0]) (.inr (by decide))).mpr
    fun _ => .inr fun _ _ => rfl

def units : List ℤ := (List.replicate 2048 [2,0]).flatten

theorem flatten_replicate_length (n : ℕ) :
    (List.replicate n [(2 : ℤ),0]).flatten.length = 2*n := by
  induction n with
  | zero => rfl
  | succ n ih =>
    rw [List.replicate_succ,List.flatten_cons,length_append,ih,List.length_cons,length_singleton]
    omega

theorem units_length : units.length = 4096 := flatten_replicate_length 2048

theorem clausesOf_units (n : ℕ) :
    clausesOf (List.replicate n [2,0]).flatten = List.replicate n [2] ∧
      (parsed ((List.replicate n [2,0]).flatten.map Call.add)).2 = [] := by
  induction n with
  | zero => exact ⟨rfl,rfl⟩
  | succ n ih =>
    have hcalls : (List.replicate (n+1) [(2 : ℤ),0]).flatten.map Call.add =
        (List.replicate n [(2 : ℤ),0]).flatten.map Call.add ++ ([2].map Call.add ++ [.add 0]) := by
      rw [List.replicate_succ',List.flatten_append,List.map_append]
      rfl
    have hp := parsed_clause ih.2 (c:=[2]) (by decide)
    refine ⟨?_,?_⟩
    · rw [clausesOf,hcalls,Sat.clauses,hp,List.replicate_succ',← ih.1]
      rfl
    · rw [hcalls,hp]

theorem units_unsat {n : ℕ} (hn : n ≠ 0) (v : ℕ → Bool) :
    ¬ Satisfies v (clausesOf ((List.replicate n [2,0]).flatten ++ [-2,0])) := by
  have hunits := clausesOf_units n
  have hall : clausesOf ((List.replicate n [2,0]).flatten ++ [-2,0]) =
      List.replicate n [2] ++ [[-2]] := by
    have hp := parsed_clause hunits.2 (c:=[-2]) (by decide)
    rw [clausesOf,List.map_append,Sat.clauses]
    change (parsed (_ ++ ([-2].map Call.add ++ [.add 0]))).1 = _
    rw [hp,← hunits.1]
    rfl
  intro hv
  rw [hall] at hv
  obtain ⟨l,hl,hpos⟩ := hv [2] (List.mem_append_left _ (List.mem_replicate.mpr ⟨hn,rfl⟩))
  obtain ⟨l',hl',hneg⟩ := hv [-2] (List.mem_append_right _ (List.mem_singleton_self _))
  rw [List.mem_singleton] at hl hl'
  subst hl hl'
  have h2 : v 2 = true := by simpa [litValue] using hpos
  simp [litValue,h2] at hneg

def winning : Run where
  single := none
  setup := true
  spCube := 2
  spPort := 0
  events := [.loop 0,.finish 0 ⟨.sat fun _ => true,fun _ => .unknown,true,fun _ => true,
    fun _ => true,fun _ => true⟩,.loop 1]
  choices := []
  install := true

theorem cubeCheck_winning {lits : List ℤ} (hne : (pairOf lits).handed alloc ≠ []) :
    cubeCheck alloc (pairOf lits) winning = some (.sat,some fun _ => true) := by
  have hinst : installed (fun _ => true) = fun _ => true := Function.update_eq_self 1 _
  have hrun : runParallel (pairOf []).config (pairOf []).frontier.1
      (pairOf []).frontier.1.length true 2 0 winning.events [] true =
        some (.sat,some fun _ => true) := rfl
  have hcheck : cubeCheck alloc (pairOf lits) winning = if (pairOf lits).handed alloc = [] then
        runSequential (pairOf []).config [] (pairOf []).frontier.1
          (pairOf []).frontier.1.length false
      else
        match runParallel (pairOf []).config (pairOf []).frontier.1
          (pairOf []).frontier.1.length true 2 0 winning.events [] true with
        | none => none
        | some (.error,_) => some (singleShot none)
        | some (res,m) => some (res,m.map installed) := rfl
  rw [hcheck,if_neg hne,hrun]
  exact congrArg (fun v => some (CubeResult.sat,some v)) hinst

/-- The second allocation fails at the 4097th literal: the clause `¬2` is never recorded, and
the check answers SAT on clauses that have no model. -/
theorem cubeCheck_truncated :
    (pairOf (units ++ [-2,0])).Asks ∧ (pairOf (units ++ [-2,0])).handed (· == 0) = units ∧
      winning.Right (· == 0) (pairOf (units ++ [-2,0])) ∧
      cubeCheck (· == 0) (pairOf (units ++ [-2,0])) winning = some (.sat,some fun _ => true) ∧
      ∀ v, ¬ Satisfies v (clausesOf (pairOf (units ++ [-2,0])).lits) := by
  have hhanded : (pairOf (units ++ [-2,0])).handed (· == 0) = units := by
    rw [handed_fails (k:=1) (by decide) (by decide) (by decide)]
    · rw [show capAt 1 = units.length by rw [units_length]; rfl]
      exact List.take_left
    · change capAt 1 < (units ++ [-2,0]).length
      rw [length_append,units_length]
      decide
  have hmodel : Satisfies (fun _ => true) (clausesOf units) := by
    rw [units,(clausesOf_units 2048).1]
    intro c hc
    rw [List.eq_of_mem_replicate hc]
    exact ⟨2,by simp,by simp [litValue]⟩
  refine ⟨⟨rfl,rfl,by decide,le_rfl⟩,hhanded,⟨by simp [winning],trivial,?_⟩,?_,?_⟩
  · rw [worker_clauses,hhanded]
    refine ⟨trivial,fun s hs => ⟨fun c tcSnap hc => ?_,fun _ _ => ⟨trivial,fun _ _ => trivial⟩⟩⟩
    cases hs
    cases hc
    refine ⟨⟨hmodel,by simp [Holds,litValue]⟩,fun g hg i d _ => trivial⟩
  · refine cubeCheck_winning fun h => ?_
    have := units_length
    rw [← hhanded,h] at this
    exact absurd this (by decide)
  · exact units_unsat (by decide)

end Cubes
end DvSolve
