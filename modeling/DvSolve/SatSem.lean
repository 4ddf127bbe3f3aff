import DvSolve.Sat
import DvSolve.Selectors
import DvSolve.Bits

/-! What a session of the dispatcher decides.
The scopes of a session are the clauses outside the frames, those of the open frames
and the assumptions queued since the last solve. On an incremental backend the calls
guard these clauses by live selectors, lazily or not; on another one the clause
counts tell when a popped frame has left clauses behind. -/
namespace DvSolve
namespace Sat

open Selectors Cnf

variable {c : List ℤ} {s : DvsSat}

/-- The finished clauses and the one in progress. -/
def feed (st : List (List ℤ) × List ℤ) : Call → List (List ℤ) × List ℤ
  | .add lit => if lit = 0 then (st.1 ++ [st.2],[]) else (st.1,st.2 ++ [lit])
  | _ => st

def parsed (calls : List Call) : List (List ℤ) × List ℤ := calls.foldl feed ([],[])

def clauses (calls : List Call) : List (List ℤ) := (parsed calls).1

theorem parsed_append (cs ds : List Call) : parsed (cs ++ ds) = ds.foldl feed (parsed cs) := by
  rw [parsed,List.foldl_append]
  rfl

theorem feed_lits (hc : ∀ l ∈ c, l ≠ 0) (st : List (List ℤ) × List ℤ) :
    (c.map Call.add).foldl feed st = (st.1,st.2 ++ c) := by
  induction c generalizing st with
  | nil => simp
  | cons l c ih =>
    have hl : l ≠ 0 := hc l List.mem_cons_self
    rw [List.map_cons,List.foldl_cons,ih fun l' hl' => hc l' (List.mem_cons_of_mem _ hl')]
    simp [feed,hl]

theorem parsed_clause {calls : List Call} (hcur : (parsed calls).2 = []) (hc : ∀ l ∈ c, l ≠ 0) :
    parsed (calls ++ (c.map Call.add ++ [.add 0])) = (clauses calls ++ [c],[]) := by
  rw [parsed_append,List.foldl_append,feed_lits hc,hcur]
  simp [feed,clauses]

/-- The backend decides the clauses it has, under the assumptions of the call. -/
def Exact (answer : List Call → List ℤ → ℤ) : Prop :=
  ∀ calls assumps, (parsed calls).2 = [] →
    (answer calls assumps = satSat ↔ Satisfiable (clauses calls) assumps) ∧
    (answer calls assumps = satUnsat ↔ ¬ Satisfiable (clauses calls) assumps)

namespace DvsSat

def calls (s : DvsSat) : List Call := s.impl.getD (replay s.lzOps s.lzLits)

/-- The literals the log's ops stand for. -/
def litCount : List LzOp → ℕ
  | [] => 0
  | .add v :: ops => v + litCount ops
  | .set _ _ :: ops => litCount ops

def LogOk (s : DvsSat) : Prop := litCount s.lzOps = s.lzLits.length

theorem litCount_append (ops ops' : List LzOp) :
    litCount (ops ++ ops') = litCount ops + litCount ops' := by
  induction ops with
  | nil => simp [litCount]
  | cons op ops ih =>
    cases op with
    | add v => simp [litCount,ih,Nat.add_assoc]
    | set k v => simp [litCount,ih]

theorem replay_append {ops : List LzOp} {lits : List ℤ} (h : litCount ops = lits.length)
    (ops' : List LzOp) (lits' : List ℤ) :
    replay (ops ++ ops') (lits ++ lits') = replay ops lits ++ replay ops' lits' := by
  induction ops generalizing lits with
  | nil =>
    have hnil : lits = [] := List.length_eq_zero_iff.mp h.symm
    simp [hnil,replay]
  | cons op ops ih =>
    cases op with
    | add v =>
      simp only [litCount] at h
      have hv : v ≤ lits.length := by omega
      rw [List.cons_append,replay,replay,List.take_append_of_le_length hv,
        List.drop_append_of_le_length hv,ih (by rw [List.length_drop]; omega),List.append_assoc]
    | set k v =>
      rw [List.cons_append,replay,replay,ih h,List.cons_append]

theorem vtAdd_spec (h : s.LogOk) (lit : ℤ) :
    (s.vtAdd lit).calls = s.calls ++ [.add lit] ∧ (s.vtAdd lit).LogOk := by
  unfold vtAdd
  cases hi : s.impl with
  | some seen => exact ⟨by simp [calls,hi],h⟩
  | none =>
    unfold LogOk at h
    simp only
    split
    · -- the last op grows by one literal
      rename_i v hlast
      obtain ⟨ops,hops⟩ := List.getLast?_eq_some_iff.mp hlast
      rw [hops,litCount_append] at h
      simp only [litCount] at h
      have hsplit := List.take_append_drop (litCount ops) s.lzLits
      have hdrop : (s.lzLits.drop (litCount ops)).length = v := by
        rw [List.length_drop]
        omega
      have htake : litCount ops = (s.lzLits.take (litCount ops)).length := by
        rw [List.length_take]
        omega
      constructor
      · have hnew : replay (ops ++ [.add (v+1)]) (s.lzLits ++ [lit]) =
            replay ops (s.lzLits.take (litCount ops)) ++
              (s.lzLits.drop (litCount ops) ++ [lit]).map .add := by
          conv_lhs => rw [← hsplit,List.append_assoc,replay_append htake]
          have hlen : (s.lzLits.drop (litCount ops) ++ [lit]).length = v+1 := by
            rw [List.length_append,hdrop]
            rfl
          rw [replay,List.take_of_length_le hlen.le,List.drop_of_length_le hlen.le]
          simp [replay]
        have hold : replay (ops ++ [.add v]) s.lzLits = replay ops (s.lzLits.take (litCount ops)) ++
              (s.lzLits.drop (litCount ops)).map .add := by
          conv_lhs => rw [← hsplit,replay_append htake]
          rw [replay,List.take_of_length_le hdrop.le,List.drop_of_length_le hdrop.le]
          simp [replay]
        simp only [calls,hi,hops,List.dropLast_concat,Option.getD_none]
        rw [hnew,hold]
        simp
      · simp only [LogOk,hops,List.dropLast_concat,litCount_append,litCount,List.length_append,
          List.length_singleton]
        omega
    · have hcount : litCount s.lzOps = s.lzLits.length := h
      constructor
      · simp only [calls,lzLog,hi,Option.getD_none]
        rw [replay_append hcount]
        simp [replay]
      · simp only [LogOk,lzLog,litCount_append,litCount,List.length_append,List.length_singleton]
        omega

theorem vtSet_spec (h : s.LogOk) (k : Setting) (v : ℤ) :
    (s.vtSet k v).calls = s.calls ++ [.set k v] ∧ (s.vtSet k v).LogOk := by
  unfold vtSet
  cases hi : s.impl with
  | some seen => exact ⟨by simp [calls,hi],h⟩
  | none =>
    constructor
    · have hr := replay_append h [.set k v] []
      rw [List.append_nil] at hr
      simp only [calls,lzLog,hi,Option.getD_none]
      rw [hr]
      rfl
    · simp only [LogOk,lzLog,litCount_append,litCount]
      exact h

theorem materialize_spec (h : s.LogOk) :
    s.materialize.calls = s.calls ∧ s.materialize.LogOk ∧ s.materialize.impl = some s.calls := by
  unfold materialize
  cases hi : s.impl with
  | some seen => exact ⟨rfl,h,by simp [calls,hi]⟩
  | none => exact ⟨by simp [calls,hi],rfl,by simp [calls,hi]⟩

def rest (s : DvsSat) : DvsSat := { s with impl := none, lzOps := [], lzLits := [] }

@[simp] theorem rest_incremental (s : DvsSat) : s.rest.incremental = s.incremental := rfl
@[simp] theorem rest_numClauses (s : DvsSat) : s.rest.numClauses = s.numClauses := rfl
@[simp] theorem rest_maxVar (s : DvsSat) : s.rest.maxVar = s.maxVar := rfl
@[simp] theorem rest_lastLitWasZero (s : DvsSat) : s.rest.lastLitWasZero = s.lastLitWasZero := rfl
@[simp] theorem rest_tainted (s : DvsSat) : s.rest.tainted = s.tainted := rfl
@[simp] theorem rest_pushNumClauses (s : DvsSat) : s.rest.pushNumClauses = s.pushNumClauses := rfl
@[simp] theorem rest_selStack (s : DvsSat) : s.rest.selStack = s.selStack := rfl
@[simp] theorem rest_selNext (s : DvsSat) : s.rest.selNext = s.selNext := rfl
@[simp] theorem rest_assumeBuf (s : DvsSat) : s.rest.assumeBuf = s.assumeBuf := rfl

theorem rest_over {t : DvsSat} (h : t.rest = s.rest) :
    { t.rest with maxVar := s.maxVar, assumeBuf := s.assumeBuf } = s.rest := by
  rw [h]
  rfl

theorem vtAdd_rest (s : DvsSat) (lit : ℤ) : (s.vtAdd lit).rest = s.rest := by
  unfold vtAdd
  cases s.impl with
  | some seen => rfl
  | none =>
    simp only
    split
    · rfl
    · rfl

theorem vtSet_rest (s : DvsSat) (k : Setting) (v : ℤ) : (s.vtSet k v).rest = s.rest := by
  unfold vtSet
  cases s.impl with
  | some seen => rfl
  | none => rfl

theorem materialize_rest (s : DvsSat) : s.materialize.rest = s.rest := by
  unfold materialize
  cases s.impl with
  | some seen => rfl
  | none => rfl

/-- The largest variable of `c`, at least `n`. -/
def maxOver (n : ℕ) (c : List ℤ) : ℕ := c.foldl (fun n l => max n l.natAbs) n

theorem le_maxOver (n : ℕ) (c : List ℤ) : n ≤ maxOver n c ∧ ∀ l ∈ c, l.natAbs ≤ maxOver n c := by
  induction c generalizing n with
  | nil => exact ⟨le_rfl,fun l hl => by simp at hl⟩
  | cons a c ih =>
    have h := ih (max n a.natAbs)
    refine ⟨(le_max_left _ _).trans h.1,fun l hl => ?_⟩
    rcases List.mem_cons.mp hl with rfl | hl
    · exact (le_max_right _ _).trans h.1
    · exact h.2 l hl

theorem maxOver_eq {n : ℕ} (h : ∀ l ∈ c, l.natAbs ≤ n) : maxOver n c = n := by
  induction c with
  | nil => rfl
  | cons a c ih =>
    have ha : max n a.natAbs = n := max_eq_left (h a List.mem_cons_self)
    rw [maxOver,List.foldl_cons,ha]
    exact ih fun l hl => h l (List.mem_cons_of_mem _ hl)

theorem foldl_add_spec (h : s.LogOk) (hc : ∀ l ∈ c, l ≠ 0) :
    (c.foldl dvsSatAdd s).calls = s.calls ++ c.map .add ∧ (c.foldl dvsSatAdd s).LogOk ∧
      (c.foldl dvsSatAdd s).rest = { s.rest with
        maxVar := maxOver s.maxVar c
        lastLitWasZero := s.lastLitWasZero && decide (c = []) } := by
  induction c generalizing s with
  | nil => exact ⟨by simp,h,by simp [maxOver,rest]⟩
  | cons l c ih =>
    have hl : l ≠ 0 := hc l List.mem_cons_self
    have hadd := vtAdd_spec h l
    have hrest := vtAdd_rest s l
    obtain ⟨h1,h2,h3⟩ := ih (s := s.dvsSatAdd l) (by rw [dvsSatAdd,if_neg hl]; exact hadd.2)
      fun l' hl' => hc l' (List.mem_cons_of_mem _ hl')
    have hcalls : (s.dvsSatAdd l).calls = s.calls ++ [.add l] := by
      rw [dvsSatAdd,if_neg hl]
      exact hadd.1
    have hmax : (s.vtAdd l).maxVar = s.maxVar := by simpa using congrArg maxVar hrest
    have hrest' : (s.dvsSatAdd l).rest = { s.rest with
        maxVar := max s.maxVar l.natAbs, lastLitWasZero := false } := by
      rw [dvsSatAdd,if_neg hl,← hrest,← hmax]
      rfl
    have hmax' : (s.dvsSatAdd l).maxVar = max s.maxVar l.natAbs := by
      simpa using congrArg maxVar hrest'
    have hlast : (s.dvsSatAdd l).lastLitWasZero = false := by
      simpa using congrArg lastLitWasZero hrest'
    rw [List.foldl_cons]
    refine ⟨by rw [h1,hcalls]; simp,h2,?_⟩
    rw [h3,hrest',hmax',hlast]
    simp [maxOver]

/-- The literals a finished clause is given on top of its own. -/
def tag (s : DvsSat) (c : List ℤ) : List ℤ :=
  if c = [] then [] else
    match s.selStack with
    | sel :: _ => if s.incremental then [-toLit sel] else []
    | [] => []

theorem tagClause_spec {p : DvsSat} (h : p.LogOk) (hsel : p.selStack = s.selStack)
    (hinc : p.incremental = s.incremental) (hc : c ≠ []) :
    p.tagClause.calls = p.calls ++ (s.tag c).map .add ∧ p.tagClause.LogOk ∧
      p.tagClause.rest = p.rest := by
  simp only [tag,if_neg hc,tagClause,hsel,hinc]
  cases s.selStack with
  | nil => exact ⟨by simp,h,rfl⟩
  | cons sel rest =>
    cases s.incremental with
    | false => exact ⟨by simp,h,rfl⟩
    | true => exact ⟨(vtAdd_spec h _).1,(vtAdd_spec h _).2,vtAdd_rest p _⟩

theorem dvsSatAdd_zero (p : DvsSat) : p.dvsSatAdd 0 = { (if p.lastLitWasZero then p else
    { p.tagClause with numClauses := p.tagClause.numClauses+1 }).vtAdd 0 with
      lastLitWasZero := true } := rfl

/-- A whole clause, from a state with none in progress. -/
theorem addClause_spec (h : s.LogOk) (hzero : s.lastLitWasZero = true) (hc : ∀ l ∈ c, l ≠ 0) :
    (s.addClause c).calls = s.calls ++ ((c ++ s.tag c).map .add ++ [.add 0]) ∧
      (s.addClause c).LogOk ∧ (s.addClause c).rest = { s.rest with
        maxVar := maxOver s.maxVar c
        numClauses := s.numClauses + if c = [] then 0 else 1 } := by
  obtain ⟨h1,h2,h3⟩ := foldl_add_spec h hc
  have hlast : (c.foldl dvsSatAdd s).lastLitWasZero = decide (c = []) := by
    simpa [hzero] using congrArg lastLitWasZero h3
  have hsel : (c.foldl dvsSatAdd s).selStack = s.selStack := by simpa using congrArg selStack h3
  have hinc : (c.foldl dvsSatAdd s).incremental = s.incremental := by
    simpa using congrArg incremental h3
  have hnum : (c.foldl dvsSatAdd s).numClauses = s.numClauses := by
    simpa using congrArg numClauses h3
  rw [addClause]
  generalize c.foldl dvsSatAdd s = p at h1 h2 h3 hlast hsel hinc hnum
  -- the state in which the final `0` is written
  obtain ⟨q,hq,hcalls,hlog,hrest⟩ : ∃ q : DvsSat,
      p.dvsSatAdd 0 = { q.vtAdd 0 with lastLitWasZero := true } ∧
      q.calls = p.calls ++ (s.tag c).map .add ∧ q.LogOk ∧
      q.rest = { p.rest with numClauses := s.numClauses + if c = [] then 0 else 1 } := by
    by_cases hnil : c = []
    · refine ⟨p,?_,by simp [tag,hnil],h2,?_⟩
      · simp only [dvsSatAdd_zero,hlast,hnil,decide_true,if_true]
      · rw [if_pos hnil,Nat.add_zero,← hnum]
        rfl
    · obtain ⟨t1,t2,t3⟩ := tagClause_spec h2 hsel hinc hnil
      have hn : p.tagClause.numClauses = s.numClauses := by
        simpa [hnum] using congrArg numClauses t3
      refine ⟨{ p.tagClause with numClauses := p.tagClause.numClauses+1 },?_,t1,t2,?_⟩
      · have hopen : p.lastLitWasZero = false := by rw [hlast,decide_eq_false hnil]
        rw [dvsSatAdd_zero,hopen]
        rfl
      · rw [if_neg hnil,← t3,← hn]
        rfl
  have hadd := vtAdd_spec hlog 0
  have hr := vtAdd_rest q 0
  have hdone : (p.dvsSatAdd 0).calls = (q.vtAdd 0).calls ∧ ((p.dvsSatAdd 0).LogOk ↔ (q.vtAdd 0).LogOk) ∧
      (p.dvsSatAdd 0).rest = { (q.vtAdd 0).rest with lastLitWasZero := true } := by
    rw [hq]
    exact ⟨rfl,Iff.rfl,rfl⟩
  refine ⟨?_,hdone.2.1.mpr hadd.2,?_⟩
  · rw [hdone.1,hadd.1,hcalls,h1]
    simp
  · rw [hdone.2.2,hr,hrest,h3]
    simp [rest,hzero]

end DvsSat
end Sat
end DvSolve
