import DvSolve.Lcg
import DvSolve.Propagate

/-! Notifications of learnt clauses and the databases they run over: `_notify` of
`dvs_clause_prop.c` and `clause_db_add` of `dvs_lcg.c`. -/
namespace DvSolve
namespace Solver

variable {db : ClauseDb}

/-- `_notify`: queue the change while a notification runs, else check the clauses it may
have made unit and drain the queue. -/
def clauseNotify (n : ℕ) (s : Engine) (id : ℕ) (ub : Bool) : Option (PropResult × Engine) :=
  match s.db with
  | none => some (.ok,s)
  | some db =>
    if id ≥ db.nWatchVars then some (.ok,s)
    else if db.inNotify then some (.ok,notifyHeld s id ub)
    else
      let r := checkWatch (if ub then db.watchLb id else db.watchUb id)
        { s with db := some { db with inNotify := true } }
      drain n r.1 r.2

def ctxTightenNotify (n : ℕ) (s : Engine) (t : Tighten) (id : ℕ) (b : BitVec 64) :
    Option (PropResult × Engine) :=
  let r := ctxTighten t s.ctx id b
  let s' := { s with ctx := r.2 }
  if moves t (s.ctx.vars id) b ∧ r.1 = .ok then clauseNotify n s' id t.isUb else some (r.1,s')

def clauseDbInit (nVars : ℕ) : ClauseDb where
  clauses _ := none
  nClauses := 0
  watchLb _ := []
  watchUb _ := []
  nWatchVars := nVars
  inNotify := false
  pendOver := false
  pend := []
  pendCap := 2*nVars+64

/-- Which allocations of an addition succeed: the array of clauses, the clause, and the
watch entry of each literal. -/
structure ArenaRoom where
  array : Bool
  clause : Bool
  entry : ℕ → Bool

def addWatch (room : Bool) (ci : ℕ) (db : ClauseDb) (lit : Literal) : ClauseDb :=
  if !room then db
  else if lit.isLb then
    if lit.varId < db.nWatchVars then
      { db with watchLb := Function.update db.watchLb lit.varId (ci :: db.watchLb lit.varId) }
    else db
  else
    if lit.varId < db.nWatchVars then
      { db with watchUb := Function.update db.watchUb lit.varId (ci :: db.watchUb lit.varId) }
    else db

def addWatches (room : ℕ → Bool) (ci : ℕ) : List (Literal × ℕ) → ClauseDb → ClauseDb
  | [], db => db
  | l :: ls, db => addWatches room ci ls (addWatch (room l.2) ci db l.1)

def clauseDbAdd (m : ArenaRoom) (db : ClauseDb) (lits : List Literal) : Option ℕ × ClauseDb :=
  if lits.length = 0 ∨ lits.length > maxClauseLits then (none,db)
  else if !m.array then (none,db)
  else if !m.clause then (none,db)
  else
    (some db.nClauses,addWatches m.entry db.nClauses lits.zipIdx
      { db with
        clauses := Function.update db.clauses db.nClauses (some lits)
        nClauses := db.nClauses+1 })

def clauseDbGc (lbd : ℕ → ℕ) (threshold : ℕ) (db : ClauseDb) : ClauseDb :=
  { db with
    clauses := fun ci => if ci < db.nClauses ∧ lbd ci > threshold then none else db.clauses ci }

def clauseDbReserve (n : ℕ) (db : ClauseDb) : ClauseDb :=
  if n ≤ db.nWatchVars then db else { db with nWatchVars := n, pendCap := 2*n+64 }

/-- Databases of added clauses, each literal of which got its watch entry. -/
inductive Built : ClauseDb → Prop
  | init (nVars : ℕ) : Built (clauseDbInit nVars)
  | add {db : ClauseDb} (h : Built db) (m : ArenaRoom) (lits : List Literal)
      (room : ∀ i < lits.length, m.entry i = true) (vars : ∀ l ∈ lits, l.varId < db.nWatchVars) :
      Built (clauseDbAdd m db lits).2
  | gc {db : ClauseDb} (h : Built db) (lbd : ℕ → ℕ) (threshold : ℕ) :
      Built (clauseDbGc lbd threshold db)
  | reserve {db : ClauseDb} (h : Built db) (n : ℕ) : Built (clauseDbReserve n db)

/-- The clauses an event concerns: the bounds of literals the change may have falsified. -/
def ClauseDb.watching (db : ClauseDb) (e : ℕ × Bool) : List ℕ :=
  if e.2 then db.watchLb e.1 else db.watchUb e.1

structure ClauseDb.Watched (db : ClauseDb) : Prop where
  ne : ∀ ci lits, db.clauses ci = some lits → lits ≠ []
  lt : ∀ ci lits, db.clauses ci = some lits → ci < db.nClauses
  var : ∀ ci lits, db.clauses ci = some lits → ∀ l ∈ lits, l.varId < db.nWatchVars
  mem : ∀ ci lits, db.clauses ci = some lits → ∀ l ∈ lits, ci ∈ db.watching (l.varId,l.isLb)

structure ClauseDb.Idle (db : ClauseDb) : Prop where
  inNotify : db.inNotify = false
  pendOver : db.pendOver = false
  pend : db.pend = []

theorem addWatch_frame (room : Bool) (ci : ℕ) (db : ClauseDb) (lit : Literal) :
    ∃ lb ub, addWatch room ci db lit = { db with watchLb := lb, watchUb := ub } := by
  unfold addWatch
  split_ifs
  all_goals exact ⟨_,_,rfl⟩

theorem addWatches_frame (room : ℕ → Bool) (ci : ℕ) (ls : List (Literal × ℕ)) (db : ClauseDb) :
    ∃ lb ub, addWatches room ci ls db = { db with watchLb := lb, watchUb := ub } := by
  induction ls generalizing db with
  | nil => exact ⟨_,_,rfl⟩
  | cons l ls ih =>
    obtain ⟨lb,ub,h⟩ := addWatch_frame (room l.2) ci db l.1
    obtain ⟨lb',ub',h'⟩ := ih (addWatch (room l.2) ci db l.1)
    exact ⟨lb',ub',by rw [addWatches,h',h]⟩

theorem mem_addWatch {room : Bool} {ci x : ℕ} {lit : Literal} {e : ℕ × Bool} (h : x ∈ db.watching e) :
    x ∈ (addWatch room ci db lit).watching e := by
  obtain ⟨v,ub⟩ := e
  unfold addWatch ClauseDb.watching at *
  by_cases hv : v = lit.varId
  · subst hv
    split_ifs at * <;> simp [h]
  · split_ifs at * <;> simp [Function.update_of_ne hv,h]

theorem mem_addWatch_self {ci : ℕ} {lit : Literal} (h : lit.varId < db.nWatchVars) :
    ci ∈ (addWatch true ci db lit).watching (lit.varId,lit.isLb) := by
  unfold addWatch ClauseDb.watching
  cases hl : lit.isLb <;> simp [h]

theorem mem_addWatches {room : ℕ → Bool} {ci x : ℕ} {ls : List (Literal × ℕ)} {e : ℕ × Bool}
    (h : x ∈ db.watching e) : x ∈ (addWatches room ci ls db).watching e := by
  induction ls generalizing db with
  | nil => exact h
  | cons l ls ih => exact ih (mem_addWatch h)

theorem mem_addWatches_self {room : ℕ → Bool} {ci : ℕ} {ls : List (Literal × ℕ)}
    (hroom : ∀ l ∈ ls, room l.2 = true) (hvar : ∀ l ∈ ls, l.1.varId < db.nWatchVars)
    {l : Literal × ℕ} (hl : l ∈ ls) :
    ci ∈ (addWatches room ci ls db).watching (l.1.varId,l.1.isLb) := by
  induction ls generalizing db with
  | nil => simp at hl
  | cons a ls ih =>
    rcases List.mem_cons.mp hl with rfl | hl
    · rw [addWatches,hroom l (by simp)]
      exact mem_addWatches (mem_addWatch_self (hvar l (by simp)))
    · obtain ⟨lb,ub,hf⟩ := addWatch_frame (room a.2) ci db a.1
      refine ih (fun x hx => hroom x (by simp [hx])) (fun x hx => ?_) hl
      rw [hf]
      exact hvar x (by simp [hx])

theorem ClauseDb.Watched.add (h : db.Watched) {m : ArenaRoom} {lits : List Literal}
    (hroom : ∀ i < lits.length, m.entry i = true) (hvars : ∀ l ∈ lits, l.varId < db.nWatchVars) :
    (clauseDbAdd m db lits).2.Watched := by
  unfold clauseDbAdd
  split_ifs with hlen
  · exact h
  · exact h
  · exact h
  · set db' : ClauseDb :=
      { db with
        clauses := Function.update db.clauses db.nClauses (some lits)
        nClauses := db.nClauses+1 } with hdb'
    have hold : ∀ ci ls, ci ≠ db.nClauses → db'.clauses ci = some ls → db.clauses ci = some ls := by
      intro ci ls hci hc
      simpa [hdb',Function.update_of_ne hci] using hc
    have hnew : ∀ ls, db'.clauses db.nClauses = some ls → ls = lits := by
      intro ls hc
      simpa [hdb',eq_comm] using hc
    obtain ⟨lb,ub,hf⟩ := addWatches_frame m.entry db.nClauses lits.zipIdx db'
    constructor
    · intro ci ls hc
      rw [hf] at hc
      by_cases hci : ci = db.nClauses
      · subst hci
        rw [hnew ls hc]
        rintro rfl
        simp at hlen
      · exact h.ne ci ls (hold ci ls hci hc)
    · intro ci ls hc
      rw [hf] at hc ⊢
      by_cases hci : ci = db.nClauses
      · subst hci
        exact Nat.lt_succ_self _
      · exact Nat.lt_succ_of_lt (h.lt ci ls (hold ci ls hci hc))
    · intro ci ls hc l hl
      rw [hf] at hc ⊢
      by_cases hci : ci = db.nClauses
      · subst hci
        exact hvars l (hnew ls hc ▸ hl)
      · exact h.var ci ls (hold ci ls hci hc) l hl
    · intro ci ls hc l hl
      have hc' : db'.clauses ci = some ls := by
        rw [hf] at hc
        exact hc
      by_cases hci : ci = db.nClauses
      · subst hci
        obtain ⟨i,hi⟩ := List.mem_iff_getElem?.mp (hnew ls hc' ▸ hl)
        refine mem_addWatches_self (l:=(l,i)) (fun x hx => ?_) (fun x hx => ?_)
          (List.mk_mem_zipIdx_iff_getElem?.mpr hi)
        · exact hroom x.2 (List.snd_lt_of_mem_zipIdx hx)
        · exact hvars x.1 (List.fst_mem_of_mem_zipIdx hx)
      · exact mem_addWatches (h.mem ci ls (hold ci ls hci hc') l hl)

theorem Built.watched (h : Built db) : db.Watched := by
  induction h with
  | init nVars => constructor <;> simp [clauseDbInit]
  | add _ m lits room vars ih => exact ih.add room vars
  | @gc db _ lbd threshold ih =>
    have hold : ∀ ci ls, (clauseDbGc lbd threshold db).clauses ci = some ls →
        db.clauses ci = some ls := fun ci ls hc => (Option.ite_none_left_eq_some.mp hc).2
    exact ⟨fun ci ls hc => ih.ne ci ls (hold ci ls hc),fun ci ls hc => ih.lt ci ls (hold ci ls hc),
      fun ci ls hc => ih.var ci ls (hold ci ls hc),fun ci ls hc => ih.mem ci ls (hold ci ls hc)⟩
  | reserve _ n ih =>
    unfold clauseDbReserve
    split_ifs with hn
    · exact ih
    · exact ⟨ih.ne,ih.lt,fun ci ls hc l hl => (ih.var ci ls hc l hl).trans (not_le.mp hn),ih.mem⟩

theorem Built.idle (h : Built db) : db.Idle := by
  induction h with
  | init nVars => exact ⟨rfl,rfl,rfl⟩
  | @add db _ m lits room vars ih =>
    unfold clauseDbAdd
    split_ifs
    · exact ih
    · exact ih
    · exact ih
    · obtain ⟨lb,ub,hf⟩ := addWatches_frame m.entry db.nClauses lits.zipIdx
        { db with
          clauses := Function.update db.clauses db.nClauses (some lits)
          nClauses := db.nClauses+1 }
      rw [hf]
      exact ⟨ih.inNotify,ih.pendOver,ih.pend⟩
  | gc _ lbd threshold ih => exact ⟨ih.inNotify,ih.pendOver,ih.pend⟩
  | reserve _ n ih =>
    unfold clauseDbReserve
    split_ifs
    · exact ih
    · exact ⟨ih.inNotify,ih.pendOver,ih.pend⟩

end Solver
end DvSolve
