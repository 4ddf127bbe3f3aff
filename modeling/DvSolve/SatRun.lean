import DvSolve.SatSem

/-! Runs of a session.
Each call keeps the guards of the incremental scheme, and the counts of the other
one, as long as the documented contract is met and two things do not happen: a frame
is popped with an empty clause in it, or a literal names the selector of a popped
frame. -/
namespace DvSolve
namespace Sat

open Selectors Cnf
open List (mem_append mem_cons mem_cons_of_mem mem_cons_self mem_singleton)
open DvsSat (dvsSatPop dvsSatReserve dvsSatSolve materialize_rest materialize_spec maxOver rest_over toLit vtSet_rest)

/-- What a session has said: the clauses outside the frames, those of the open frames,
innermost first, and the assumptions since the last solve. `lost` says that a popped
frame had a clause. -/
structure Scopes where
  base : List (List ℤ)
  frames : List (List (List ℤ))
  assumptions : List ℤ
  lost : Bool
  deriving DecidableEq

namespace Scopes

def new : Scopes := ⟨[],[],[],false⟩

def step (x : Scopes) : Op → Scopes
  | .push => { x with frames := [] :: x.frames }
  | .pop =>
    match x.frames with
    | [] => x
    | f :: frames => { x with frames := frames, lost := x.lost || decide (f ≠ []) }
  | .clause c =>
    match x.frames with
    | [] => { x with base := x.base ++ [c] }
    | f :: frames => { x with frames := (f ++ [c]) :: frames }
  | .assume lit => if lit = 0 then x else { x with assumptions := x.assumptions ++ [lit] }
  | .solve => { x with assumptions := [] }
  | .reserve _ => x
  | .set _ _ => x

def clauses (x : Scopes) : List (List ℤ) := x.base ++ x.frames.flatten

def Satisfiable (x : Scopes) : Prop := Selectors.Satisfiable x.clauses x.assumptions

end Scopes

/-- An instance, what has been said to it, and the selectors of its popped frames. -/
structure Session where
  sat : DvsSat
  scopes : Scopes
  retired : List ℕ
  deriving DecidableEq

variable {x : Session} {live : List (ℕ × List (List ℤ))}

namespace Session

def new (incremental lazy : Bool) : Session := ⟨satNew incremental lazy,.new,[]⟩

def step (answer : List Call → List ℤ → ℤ) (x : Session) (op : Op) : Session where
  sat := x.sat.step answer op
  scopes := x.scopes.step op
  retired :=
    match op with
    | .pop => x.sat.selStack.take 1 ++ x.retired
    | _ => x.retired

/-- The premises of the entry points: at most `maxPush` frames, whole clauses, and no
new variable while a frame is open. -/
def Contract (x : Session) : Op → Prop
  | .push => x.sat.pushDepth < maxPush
  | .clause c => (∀ l ∈ c, l ≠ 0) ∧ (0 < x.sat.pushDepth → ∀ l ∈ c, l.natAbs ≤ x.sat.maxVar)
  | .assume lit => 0 < x.sat.pushDepth → lit.natAbs ≤ x.sat.maxVar
  | .reserve n => 0 < x.sat.pushDepth → n ≤ x.sat.maxVar
  | _ => True

def nextSelector (x : Session) : ℕ := max x.sat.selNext (x.sat.maxVar+1)

/-- The steps after which a session is still decided exactly. On an incremental
backend a popped frame has no empty clause, no literal names a retired selector and a
selector is a literal; on another one a popped frame with an empty clause has another
clause too. -/
def Safe (x : Session) : Op → Prop
  | .push => x.sat.incremental = true → x.nextSelector < 2^31
  | .pop => ∀ f ∈ x.scopes.frames.head?, [] ∈ f → x.sat.incremental = false ∧ ∃ c ∈ f, c ≠ []
  | .clause c => Avoids c x.retired
  | .assume lit => lit.natAbs ∉ x.retired
  | _ => True

instance (x : Session) : (op : Op) → Decidable (x.Contract op)
  | .push => inferInstanceAs (Decidable (_ < _))
  | .pop => instDecidableTrue
  | .clause _ => inferInstanceAs (Decidable (_ ∧ (_ → _)))
  | .assume _ => inferInstanceAs (Decidable (_ → _))
  | .solve => instDecidableTrue
  | .reserve _ => inferInstanceAs (Decidable (_ → _))
  | .set _ _ => instDecidableTrue

instance (x : Session) : (op : Op) → Decidable (x.Safe op)
  | .push => inferInstanceAs (Decidable (_ → _))
  | .pop => inferInstanceAs (Decidable (∀ f ∈ _, _))
  | .clause c => inferInstanceAs (Decidable (∀ l ∈ c, l.natAbs ∉ x.retired))
  | .assume _ => inferInstanceAs (Decidable (_ ∉ _))
  | .solve => instDecidableTrue
  | .reserve _ => instDecidableTrue
  | .set _ _ => instDecidableTrue

def Run (answer : List Call → List ℤ → ℤ) (P : Session → Op → Prop) (x : Session) :
    List Op → Prop
  | [] => True
  | op :: ops => P x op ∧ Run answer P (x.step answer op) ops

instance decidableRun (answer : List Call → List ℤ → ℤ) (P : Session → Op → Prop)
    [∀ x op, Decidable (P x op)] : (x : Session) → (ops : List Op) → Decidable (x.Run answer P ops)
  | _, [] => instDecidableTrue
  | x, _ :: ops => @instDecidableAnd _ _ _ (decidableRun answer P (x.step answer _) ops)

def run (answer : List Call → List ℤ → ℤ) (x : Session) (ops : List Op) : Session :=
  ops.foldl (Session.step answer) x

/-- A solve in this state decides what has been said, or on a backend that is not
incremental owns up to a popped frame it cannot forget. -/
def Right (answer : List Call → List ℤ → ℤ) (x : Session) : Prop :=
  let rc := (x.sat.dvsSatSolve answer).1
  if x.sat.incremental then
    (rc = satSat ↔ x.scopes.Satisfiable) ∧ (rc = satUnsat ↔ ¬ x.scopes.Satisfiable)
  else x.scopes.lost = true → rc = satUnknown

/-- `live` are the open frames with their selectors. -/
structure Tracks (x : Session) (live : List (ℕ × List (List ℤ))) : Prop where
  incremental : x.sat.incremental = true
  tainted : x.sat.tainted = false
  log : x.sat.LogOk
  closed : x.sat.lastLitWasZero = true
  whole : (parsed x.sat.calls).2 = []
  sels : live.map Prod.fst = x.sat.selStack
  frames : live.map Prod.snd = x.scopes.frames
  guards : Guards (Sat.clauses x.sat.calls) x.scopes.base live x.retired
  assumptions : x.sat.assumeBuf = x.scopes.assumptions
  assume_avoids : Avoids x.scopes.assumptions (live.map Prod.fst ++ x.retired)
  vars : ∀ c ∈ x.scopes.assumptions :: inForce x.scopes.base live, ∀ l ∈ c, l.natAbs ≤ x.sat.maxVar
  above : ∀ f ∈ live, x.sat.maxVar < f.1
  issued : ∀ s ∈ live.map Prod.fst ++ x.retired, s < x.sat.selNext
  fits : ∀ f ∈ live, f.1 < 2^31

variable {n sel : ℕ}

theorem toLit_eq (h : sel < 2^31) : toLit sel = sel := by
  have hmod : sel % 2^32 = sel := Nat.mod_eq_of_lt (by omega)
  rw [toLit,hmod,if_pos h]

theorem tracks_new (lazy : Bool) : (new true lazy).Tracks [] where
  incremental := rfl
  tainted := rfl
  log := rfl
  closed := rfl
  whole := by cases lazy <;> rfl
  sels := rfl
  frames := rfl
  guards := by cases lazy <;> exact guards_nil
  assumptions := rfl
  assume_avoids l hl := by simp [new,Scopes.new] at hl
  vars c hc l hl := by
    simp only [new,Scopes.new,inForce,List.flatMap_nil,List.append_nil,mem_singleton] at hc
    simp [hc] at hl
  above f hf := by simp at hf
  issued s hs := by simp [new] at hs
  fits f hf := by simp at hf

theorem Tracks.clauses_eq (h : x.Tracks live) :
    x.scopes.clauses = inForce x.scopes.base live := by
  rw [Scopes.clauses,inForce,← h.frames,List.flatMap_def]

theorem Tracks.keep {x' : Session} (h : x.Tracks live) (hlog : x'.sat.LogOk)
    (hcalls : parsed x'.sat.calls = parsed x.sat.calls)
    (hrest : { x'.sat.rest with maxVar := x.sat.maxVar, assumeBuf := x.sat.assumeBuf } =
      x.sat.rest) (hret : x'.retired = x.retired) (hbase : x'.scopes.base = x.scopes.base)
    (hframes : x'.scopes.frames = x.scopes.frames)
    (hassume : x'.sat.assumeBuf = x'.scopes.assumptions)
    (havoid : Avoids x'.scopes.assumptions (live.map Prod.fst ++ x.retired))
    (hmax : x.sat.maxVar ≤ x'.sat.maxVar) (habove : ∀ f ∈ live, x'.sat.maxVar < f.1)
    (hvars : ∀ l ∈ x'.scopes.assumptions, l.natAbs ≤ x'.sat.maxVar) : x'.Tracks live := by
  have hinc : x'.sat.incremental = x.sat.incremental := by
    simpa using congrArg DvsSat.incremental hrest
  have htaint : x'.sat.tainted = x.sat.tainted := by simpa using congrArg DvsSat.tainted hrest
  have hclosed : x'.sat.lastLitWasZero = x.sat.lastLitWasZero := by
    simpa using congrArg DvsSat.lastLitWasZero hrest
  have hsel : x'.sat.selStack = x.sat.selStack := by
    simpa using congrArg DvsSat.selStack hrest
  have hnext : x'.sat.selNext = x.sat.selNext := by simpa using congrArg DvsSat.selNext hrest
  exact {
    incremental := by rw [hinc,h.incremental]
    tainted := by rw [htaint,h.tainted]
    log := hlog
    closed := by rw [hclosed,h.closed]
    whole := by rw [hcalls,h.whole]
    sels := by rw [hsel,h.sels]
    frames := by rw [hframes,h.frames]
    guards := by
      rw [Sat.clauses,hcalls,hbase,hret]
      exact h.guards
    assumptions := hassume
    assume_avoids := by
      rw [hret]
      exact havoid
    vars := by
      intro c hc l hl
      rcases mem_cons.mp hc with rfl | hc
      · exact hvars l hl
      · rw [hbase] at hc
        exact (h.vars c (mem_cons_of_mem _ hc) l hl).trans hmax
    above := habove
    issued := by
      rw [hret,hnext]
      exact h.issued
    fits := h.fits }

theorem parsed_set (calls : List Call) (k : Setting) (v : ℤ) :
    parsed (calls ++ [.set k v]) = parsed calls := by
  rw [parsed_append]
  rfl

theorem Tracks.set (h : x.Tracks live) (answer : List Call → List ℤ → ℤ) (k : Setting) (v : ℤ) :
    (x.step answer (.set k v)).Tracks live := by
  have hset := DvsSat.vtSet_spec h.log k v
  have hrest := vtSet_rest x.sat k v
  have hbuf : (x.sat.vtSet k v).assumeBuf = x.sat.assumeBuf := by
    simpa using congrArg DvsSat.assumeBuf hrest
  have hmax : (x.sat.vtSet k v).maxVar = x.sat.maxVar := by
    simpa using congrArg DvsSat.maxVar hrest
  refine h.keep hset.2 ?_ ?_ rfl rfl rfl ?_ h.assume_avoids hmax.ge ?_ ?_
  · exact (congrArg parsed hset.1).trans (parsed_set _ k v)
  · exact rest_over hrest
  · exact hbuf.trans h.assumptions
  · intro f hf
    exact hmax.trans_lt (h.above f hf)
  · intro l hl
    exact (h.vars _ mem_cons_self l hl).trans hmax.ge

theorem Tracks.depth (h : x.Tracks live) :
    x.sat.pushDepth = live.length := by
  rw [DvsSat.pushDepth,if_pos h.incremental,← h.sels,List.length_map]

theorem Tracks.above_max (h : x.Tracks live) (hn : 0 < x.sat.pushDepth → n ≤ x.sat.maxVar) :
    ∀ f ∈ live, max x.sat.maxVar n < f.1 := by
  intro f hf
  have hpos : 0 < x.sat.pushDepth := by
    rw [h.depth]
    exact List.length_pos_of_mem hf
  have habove := h.above f hf
  rwa [max_eq_left (hn hpos)]

theorem step_reserve_zero (answer : List Call → List ℤ → ℤ) (hn : ¬0 < n) :
    x.step answer (.reserve n) = x := by
  simp only [step,DvsSat.step,dvsSatReserve,if_neg hn]
  rfl

theorem Tracks.reserve (h : x.Tracks live) (answer : List Call → List ℤ → ℤ)
    (hc : x.Contract (.reserve n)) :
    (x.step answer (.reserve n)).Tracks live := by
  by_cases hn : 0 < n
  · have hset := h.set answer .reserve n
    have hmax : (x.sat.vtSet .reserve n).maxVar = x.sat.maxVar := by
      simpa using congrArg DvsSat.maxVar (vtSet_rest x.sat .reserve n)
    have hstep : x.step answer (.reserve n) = { x.step answer (.set .reserve n) with
        sat := { x.sat.vtSet .reserve n with maxVar := max x.sat.maxVar n } } := by
      simp only [step,DvsSat.step,dvsSatReserve,if_pos hn,hmax]
      rfl
    have hsat : (x.step answer (.set .reserve n)).sat = x.sat.vtSet .reserve n := rfl
    rw [hstep]
    refine hset.keep hset.log rfl ?_ rfl rfl rfl hset.assumptions hset.assume_avoids ?_ ?_ ?_
    · simp [DvsSat.rest,hsat]
    · simp [hsat,hmax]
    · exact h.above_max hc
    · intro l hl
      have := hset.vars _ mem_cons_self l hl
      rw [hsat,hmax] at this
      exact this.trans (le_max_left _ _)
  · rwa [step_reserve_zero answer hn]

theorem step_assume (x : Session) (answer : List Call → List ℤ → ℤ) (lit : ℤ) :
    x.step answer (.assume lit) = if lit = 0 then x else { x with
      sat := { x.sat with
        assumeBuf := x.sat.assumeBuf ++ [lit]
        maxVar := max x.sat.maxVar lit.natAbs }
      scopes := { x.scopes with assumptions := x.scopes.assumptions ++ [lit] } } := by
  simp only [step,DvsSat.step,DvsSat.dvsSatAssume,Scopes.step]
  split_ifs <;> rfl

theorem Tracks.assume (h : x.Tracks live) (answer : List Call → List ℤ → ℤ) {lit : ℤ}
    (hc : x.Contract (.assume lit)) (hs : x.Safe (.assume lit)) :
    (x.step answer (.assume lit)).Tracks live := by
  have habove := h.above_max hc
  rw [step_assume]
  split_ifs with hz
  · exact h
  refine h.keep h.log rfl rfl rfl rfl rfl ?_ ?_ (le_max_left _ _) habove ?_
  · simp only [h.assumptions]
  · intro l hl hin
    rcases mem_append.mp hl with hl | hl
    · exact h.assume_avoids l hl hin
    · rw [mem_singleton.mp hl] at hin
      rcases mem_append.mp hin with hin | hin
      · obtain ⟨f,hf,heq⟩ := List.mem_map.mp hin
        have hlt := habove f hf
        omega
      · exact hs hin
  · intro l hl
    rcases mem_append.mp hl with hl | hl
    · exact (h.vars _ mem_cons_self l hl).trans (le_max_left _ _)
    · rw [mem_singleton.mp hl]
      exact le_max_right _ _

theorem Tracks.solve_eq (h : x.Tracks live) (answer : List Call → List ℤ → ℤ) :
    (x.sat.dvsSatSolve answer).1 =
        answer x.sat.calls (x.scopes.assumptions ++ x.sat.selStack.reverse.map toLit) ∧
      (x.sat.dvsSatSolve answer).2 = { x.sat.materialize with
        impl := some (x.sat.calls ++ [.solve
          (x.scopes.assumptions ++ x.sat.selStack.reverse.map toLit)])
        assumeBuf := [] } := by
  have himpl := (materialize_spec h.log).2.2
  have hrest := materialize_rest x.sat
  have hinc : x.sat.materialize.incremental = true := by
    simpa [h.incremental] using congrArg DvsSat.incremental hrest
  have hsel : x.sat.materialize.selStack = x.sat.selStack := by
    simpa using congrArg DvsSat.selStack hrest
  have hbuf : x.sat.materialize.assumeBuf = x.scopes.assumptions := by
    simpa [h.assumptions] using congrArg DvsSat.assumeBuf hrest
  simp only [dvsSatSolve,h.tainted,hinc,himpl,hsel,hbuf,if_true,Option.getD_some]
  exact ⟨rfl,rfl⟩

theorem Tracks.solve (h : x.Tracks live) (answer : List Call → List ℤ → ℤ) :
    (x.step answer .solve).Tracks live := by
  have hsat := (h.solve_eq answer).2
  have hspec := materialize_spec h.log
  have hrest := materialize_rest x.sat
  have hmax : x.sat.materialize.maxVar = x.sat.maxVar := by
    simpa using congrArg DvsSat.maxVar hrest
  have hstep : x.step answer .solve = { x with
      sat := { x.sat.materialize with
        impl := some (x.sat.calls ++ [.solve
          (x.scopes.assumptions ++ x.sat.selStack.reverse.map toLit)])
        assumeBuf := [] }
      scopes := { x.scopes with assumptions := [] } } := by
    rw [← hsat]
    rfl
  rw [hstep]
  refine h.keep hspec.2.1 ?_ ?_ rfl rfl rfl rfl ?_ hmax.ge ?_ ?_
  · exact (parsed_append _ _).trans rfl
  · exact (rest_over hrest :)
  · intro l hl
    simp at hl
  · intro f hf
    exact hmax.trans_lt (h.above f hf)
  · intro l hl
    simp at hl

theorem Tracks.push (h : x.Tracks live) (answer : List Call → List ℤ → ℤ) (hc : x.Contract .push)
    (hs : x.Safe .push) :
    (x.step answer .push).Tracks ((x.nextSelector,[]) :: live) := by
  have hsat : x.sat.dvsSatPush = { x.sat with
      selStack := x.nextSelector :: x.sat.selStack
      selNext := x.nextSelector+1 } := by
    have hdepth : ¬ x.sat.pushDepth ≥ maxPush := not_le.mpr hc
    rw [DvsSat.dvsSatPush,if_neg hdepth,if_pos h.incremental]
    simp only [nextSelector]
    split_ifs with hle
    · rw [max_eq_right (by omega)]
    · rw [max_eq_left (by omega)]
  have hstep : x.step answer .push = { x with
      sat := { x.sat with
        selStack := x.nextSelector :: x.sat.selStack
        selNext := x.nextSelector+1 }
      scopes := { x.scopes with frames := [] :: x.scopes.frames } } := by
    rw [← hsat]
    rfl
  have hnext : x.sat.selNext ≤ x.nextSelector := le_max_left _ _
  have hmax : x.sat.maxVar < x.nextSelector := Nat.lt_of_succ_le (le_max_right _ _)
  have hfresh : ∀ s ∈ live.map Prod.fst ++ x.retired, s ≠ x.nextSelector := fun s hin => by
    have := h.issued s hin
    omega
  have hvar : ∀ c ∈ x.scopes.assumptions :: inForce x.scopes.base live, Avoids c [x.nextSelector] := by
    intro c hcm l hl hin
    have hle := h.vars c hcm l hl
    rw [mem_singleton.mp hin] at hle
    omega
  rw [hstep]
  exact {
    incremental := h.incremental
    tainted := h.tainted
    log := h.log
    closed := h.closed
    whole := h.whole
    sels := by simp [h.sels]
    frames := by simp [h.frames]
    guards := h.guards.push (by omega) (fun hin => hfresh _ (List.mem_append_left _ hin) rfl)
      (fun hin => hfresh _ (List.mem_append_right _ hin) rfl)
      fun c hcm => hvar c (mem_cons_of_mem _ hcm)
    assumptions := h.assumptions
    assume_avoids := by
      intro l hl hin
      rcases mem_cons.mp hin with heq | hin
      · exact hvar _ mem_cons_self l hl (mem_singleton.mpr heq)
      · exact h.assume_avoids l hl hin
    vars := h.vars
    above := by
      intro f hf
      rcases mem_cons.mp hf with rfl | hf
      · exact hmax
      · exact h.above f hf
    issued := by
      intro s hin
      rcases mem_cons.mp hin with rfl | hin
      · exact Nat.lt_succ_self _
      · exact (h.issued s hin).trans_le (hnext.trans (Nat.le_succ _))
    fits := by
      intro f hf
      rcases mem_cons.mp hf with rfl | hf
      · exact hs h.incremental
      · exact h.fits f hf }

theorem Tracks.pop_nil (h : x.Tracks []) (answer : List Call → List ℤ → ℤ) :
    (x.step answer .pop).Tracks [] := by
  have hsel : x.sat.selStack = [] := h.sels.symm
  have hframes : x.scopes.frames = [] := h.frames.symm
  have hstep : x.step answer .pop = x := by
    simp only [step,DvsSat.step,dvsSatPop,h.incremental,hsel,hframes,Scopes.step,if_true,
      List.take_nil,List.nil_append]
  rwa [hstep]

theorem Tracks.pop {f : List (List ℤ)} (h : x.Tracks ((sel,f) :: live))
    (answer : List Call → List ℤ → ℤ) (hs : x.Safe .pop) : (x.step answer .pop).Tracks live := by
  have hsel : x.sat.selStack = sel :: live.map Prod.fst := h.sels.symm
  have hframes : x.scopes.frames = f :: live.map Prod.snd := h.frames.symm
  have hempty : [] ∉ f := fun hmem => by
    have := hs f (by simp [hframes]) hmem
    rw [h.incremental] at this
    exact absurd this.1 (by simp)
  have hlit : toLit sel = sel := toLit_eq (h.fits _ mem_cons_self)
  have hpos : 0 < sel := h.guards.live_pos _ mem_cons_self
  let s₁ : DvsSat := { x.sat with selStack := live.map Prod.fst }
  have h1 := DvsSat.vtAdd_spec (s := s₁) h.log (-(sel : ℤ))
  have h2 := DvsSat.vtAdd_spec h1.2 0
  have hrest : ((s₁.vtAdd (-(sel : ℤ))).vtAdd 0).rest = s₁.rest := by
    rw [DvsSat.vtAdd_rest,DvsSat.vtAdd_rest]
  have hstep : x.step answer .pop = ⟨(s₁.vtAdd (-(sel : ℤ))).vtAdd 0,{ x.scopes with
        frames := live.map Prod.snd
        lost := x.scopes.lost || decide (f ≠ []) },sel :: x.retired⟩ := by
    simp only [step,DvsSat.step,dvsSatPop,h.incremental,hsel,hframes,hlit,Scopes.step,
      if_true,List.take_succ_cons,List.take_zero,List.cons_append,List.nil_append,s₁]
  have hcalls : parsed ((s₁.vtAdd (-(sel : ℤ))).vtAdd 0).calls =
      (Sat.clauses x.sat.calls ++ [[-(sel : ℤ)]],[]) := by
    have hc : ∀ l ∈ [-(sel : ℤ)], l ≠ 0 := fun l hl => by
      rw [mem_singleton.mp hl]
      omega
    rw [h2.1,h1.1,← parsed_clause h.whole hc]
    simp [s₁,DvsSat.calls]
  have hfield : ∀ {α : Type} (p : DvsSat → α), (∀ s : DvsSat, p s.rest = p s) →
      p ((s₁.vtAdd (-(sel : ℤ))).vtAdd 0) = p s₁ := fun p hp => by
    rw [← hp,hrest,hp]
  have hperm : ∀ s, s ∈ live.map Prod.fst ++ sel :: x.retired →
      s ∈ ((sel,f) :: live).map Prod.fst ++ x.retired := fun s hin => by
    simp only [List.map_cons,mem_append,mem_cons] at hin ⊢
    tauto
  rw [hstep]
  exact {
    incremental := (hfield DvsSat.incremental fun _ => rfl).trans h.incremental
    tainted := (hfield DvsSat.tainted fun _ => rfl).trans h.tainted
    log := h2.2
    closed := (hfield DvsSat.lastLitWasZero fun _ => rfl).trans h.closed
    whole := by rw [hcalls]
    sels := (hfield DvsSat.selStack fun _ => rfl).symm
    frames := rfl
    guards := by
      simp only [Sat.clauses,hcalls]
      exact h.guards.pop hempty
    assumptions := (hfield DvsSat.assumeBuf fun _ => rfl).trans h.assumptions
    assume_avoids := fun l hl hin => h.assume_avoids l hl (hperm _ hin)
    vars := by
      intro c hc l hl
      have hle : ((s₁.vtAdd (-(sel : ℤ))).vtAdd 0).maxVar = x.sat.maxVar :=
        hfield DvsSat.maxVar fun _ => rfl
      rw [hle]
      refine h.vars c ?_ l hl
      simp only [inForce,mem_cons,mem_append,List.flatMap_cons] at hc ⊢
      tauto
    above := by
      intro g hg
      exact (hfield DvsSat.maxVar fun _ => rfl).trans_lt (h.above g (mem_cons_of_mem _ hg))
    issued := fun s hin =>
      (h.issued s (hperm s hin)).trans_eq (hfield DvsSat.selNext fun _ => rfl).symm
    fits := fun g hg => h.fits g (mem_cons_of_mem _ hg) }

def guarded (live : List (ℕ × List (List ℤ))) (c : List ℤ) : List ℤ :=
  match live with
  | [] => c
  | f :: _ => guardWith f.1 c

theorem Tracks.tag_eq (h : x.Tracks live) (c : List ℤ) : c ++ x.sat.tag c = guarded live c := by
  unfold DvsSat.tag guarded guardWith
  have hsel := h.sels
  cases live with
  | nil =>
    rw [← hsel]
    simp
  | cons f live =>
    rw [← hsel]
    by_cases hc : c = []
    · simp [hc]
    · simp [hc,h.incremental,toLit_eq (h.fits f mem_cons_self)]

theorem Tracks.clause (h : x.Tracks live) (answer : List Call → List ℤ → ℤ) {c : List ℤ}
    (hc : x.Contract (.clause c)) (hs : x.Safe (.clause c)) :
    ∃ live', (x.step answer (.clause c)).Tracks live' := by
  obtain ⟨h1,h2,h3⟩ := DvsSat.addClause_spec h.log h.closed hc.1
  have hpar : parsed (x.sat.addClause c).calls = (Sat.clauses x.sat.calls ++ [guarded live c],[]) := by
    have hne : ∀ l ∈ guarded live c, l ≠ 0 := by
      intro l hl
      unfold guarded guardWith at hl
      split at hl
      · exact hc.1 l hl
      · rename_i f live'
        split_ifs at hl
        · simp at hl
        · have hpos := h.guards.live_pos f mem_cons_self
          rcases mem_append.mp hl with hl | hl
          · exact hc.1 l hl
          · rw [mem_singleton.mp hl]
            omega
    rw [h1,h.tag_eq,parsed_clause h.whole hne]
  have hinc : (x.sat.addClause c).incremental = true := by
    simpa [h.incremental] using congrArg DvsSat.incremental h3
  have htaint : (x.sat.addClause c).tainted = false := by
    simpa [h.tainted] using congrArg DvsSat.tainted h3
  have hclosed : (x.sat.addClause c).lastLitWasZero = true := by
    simpa [h.closed] using congrArg DvsSat.lastLitWasZero h3
  have hsel : (x.sat.addClause c).selStack = x.sat.selStack := by
    simpa using congrArg DvsSat.selStack h3
  have hnext : (x.sat.addClause c).selNext = x.sat.selNext := by
    simpa using congrArg DvsSat.selNext h3
  have hbuf : (x.sat.addClause c).assumeBuf = x.sat.assumeBuf := by
    simpa using congrArg DvsSat.assumeBuf h3
  have hmax : (x.sat.addClause c).maxVar = maxOver x.sat.maxVar c := by
    simpa using congrArg DvsSat.maxVar h3
  have hle := DvsSat.le_maxOver x.sat.maxVar c
  have hsame : live ≠ [] → maxOver x.sat.maxVar c = x.sat.maxVar := fun hne => by
    apply DvsSat.maxOver_eq
    apply hc.2
    rw [h.depth]
    exact List.length_pos_of_ne_nil hne
  have havoid : Avoids c (live.map Prod.fst ++ x.retired) := by
    intro l hl hin
    rcases mem_append.mp hin with hin | hin
    · obtain ⟨f,hf,heq⟩ := List.mem_map.mp hin
      have habove := h.above f hf
      have hbound := hle.2 l hl
      rw [hsame (List.ne_nil_of_mem hf)] at hbound
      omega
    · exact hs l hl hin
  have hold : ∀ d ∈ x.scopes.assumptions :: inForce x.scopes.base live, ∀ l ∈ d,
      l.natAbs ≤ (x.sat.addClause c).maxVar := fun d hd l hl => by
    rw [hmax]
    exact (h.vars d hd l hl).trans hle.1
  have hnew : ∀ l ∈ c, l.natAbs ≤ (x.sat.addClause c).maxVar := by
    rw [hmax]
    exact hle.2
  cases live with
  | nil =>
    have hframes : x.scopes.frames = [] := h.frames.symm
    have hstep : x.step answer (.clause c) = ⟨x.sat.addClause c,
        { x.scopes with base := x.scopes.base ++ [c] },x.retired⟩ := by
      simp only [step,DvsSat.step,Scopes.step,hframes]
    refine ⟨[],?_⟩
    rw [hstep]
    exact {
      incremental := hinc
      tainted := htaint
      log := h2
      closed := hclosed
      whole := by rw [hpar]
      sels := by rw [hsel,h.sels]
      frames := h.frames
      guards := by
        simp only [Sat.clauses,hpar]
        exact h.guards.addBase fun l hl hin => havoid l hl (List.mem_append_right _ hin)
      assumptions := by rw [hbuf,h.assumptions]
      assume_avoids := h.assume_avoids
      vars := by
        intro d hd l hl
        simp only [inForce,List.flatMap_nil,List.append_nil,mem_cons,mem_append,
          List.not_mem_nil,or_false] at hd
        rcases hd with rfl | hd | rfl
        · exact hold _ mem_cons_self l hl
        · exact hold d (mem_cons_of_mem _ (List.mem_append_left _ hd)) l hl
        · exact hnew l hl
      above := fun f hf => by simp at hf
      issued := by
        rw [hnext]
        exact h.issued
      fits := fun f hf => by simp at hf }
  | cons f live =>
    have hframes : x.scopes.frames = f.2 :: live.map Prod.snd := h.frames.symm
    have hstep : x.step answer (.clause c) = ⟨x.sat.addClause c,
        { x.scopes with frames := (f.2 ++ [c]) :: live.map Prod.snd },x.retired⟩ := by
      simp only [step,DvsSat.step,Scopes.step,hframes]
    refine ⟨(f.1,f.2 ++ [c]) :: live,?_⟩
    rw [hstep]
    exact {
      incremental := hinc
      tainted := htaint
      log := h2
      closed := hclosed
      whole := by rw [hpar]
      sels := by rw [hsel,← h.sels]; rfl
      frames := rfl
      guards := by
        simp only [Sat.clauses,hpar]
        exact h.guards.addLive havoid
      assumptions := by rw [hbuf,h.assumptions]
      assume_avoids := h.assume_avoids
      vars := by
        intro d hd l hl
        simp only [inForce,List.flatMap_cons,mem_cons,mem_append,List.not_mem_nil,or_false] at hd
        have hin : d = x.scopes.assumptions ∨ d ∈ inForce x.scopes.base (f :: live) ∨ d = c := by
          simp only [inForce,List.flatMap_cons,mem_append]
          tauto
        rcases hin with rfl | hin | rfl
        · exact hold _ mem_cons_self l hl
        · exact hold d (mem_cons_of_mem _ hin) l hl
        · exact hnew l hl
      above := by
        intro g hg
        rw [hmax,hsame (by simp)]
        rcases mem_cons.mp hg with rfl | hg
        · exact h.above f mem_cons_self
        · exact h.above g (mem_cons_of_mem _ hg)
      issued := by
        rw [hnext]
        exact h.issued
      fits := by
        intro g hg
        rcases mem_cons.mp hg with rfl | hg
        · exact h.fits f mem_cons_self
        · exact h.fits g (mem_cons_of_mem _ hg) }

theorem Tracks.step (h : x.Tracks live) (answer : List Call → List ℤ → ℤ) {op : Op}
    (hc : x.Contract op) (hs : x.Safe op) :
    ∃ live', (x.step answer op).Tracks live' := by
  cases op with
  | push => exact ⟨_,h.push answer hc hs⟩
  | pop =>
    cases live with
    | nil => exact ⟨_,h.pop_nil answer⟩
    | cons f live => exact ⟨_,Tracks.pop h answer hs⟩
  | clause c => exact h.clause answer hc hs
  | assume lit => exact ⟨_,h.assume answer hc hs⟩
  | solve => exact ⟨_,h.solve answer⟩
  | reserve n => exact ⟨_,h.reserve answer hc⟩
  | set k v => exact ⟨_,h.set answer k v⟩

variable {answer : List Call → List ℤ → ℤ}

theorem Tracks.right (h : x.Tracks live) (hexact : Exact answer) :
    x.Right answer := by
  have hsels : ∀ l, l ∈ x.sat.selStack.reverse.map toLit ↔ ∃ f ∈ live, l = (f.1 : ℤ) := by
    intro l
    simp only [← h.sels,List.mem_map,List.mem_reverse]
    constructor
    · rintro ⟨s,⟨f,hf,rfl⟩,rfl⟩
      exact ⟨f,hf,toLit_eq (h.fits f hf)⟩
    · rintro ⟨f,hf,rfl⟩
      exact ⟨f.1,⟨f,hf,rfl⟩,toLit_eq (h.fits f hf)⟩
  have hiff := h.guards.satisfiable_iff hsels h.assume_avoids
  have hans := hexact x.sat.calls
    (x.scopes.assumptions ++ x.sat.selStack.reverse.map toLit) h.whole
  rw [hiff,← h.clauses_eq,← (h.solve_eq answer).1] at hans
  simp only [Right,h.incremental,if_true]
  exact hans

/-- Each snapshot is the count of the clauses that are not empty before its frame. -/
def Snapshots : ℕ → List ℕ → List (List (List ℤ)) → Prop
  | _, [], [] => True
  | n, snap :: snaps, f :: frames =>
    n = snap + (f.filter fun c => c ≠ []).length ∧ Snapshots snap snaps frames
  | _, _, _ => False

structure Counts (x : Session) : Prop where
  incremental : x.sat.incremental = false
  log : x.sat.LogOk
  closed : x.sat.lastLitWasZero = true
  lost : x.scopes.lost = true → x.sat.tainted = true
  snapshots : x.sat.tainted = true ∨ Snapshots x.sat.numClauses x.sat.pushNumClauses x.scopes.frames

theorem counts_new (lazy : Bool) : (new false lazy).Counts :=
  ⟨rfl,rfl,rfl,fun h => absurd h (by simp [new,Scopes.new]),.inr trivial⟩

/-- A step that says no clause and opens or closes no frame. -/
theorem Counts.keep {x' : Session} (h : x.Counts) (hlog : x'.sat.LogOk)
    (hrest : { x'.sat.rest with maxVar := x.sat.maxVar, assumeBuf := x.sat.assumeBuf } =
      x.sat.rest) (hlost : x'.scopes.lost = x.scopes.lost)
    (hframes : x'.scopes.frames = x.scopes.frames) :
    x'.Counts := by
  have hinc : x'.sat.incremental = x.sat.incremental := by
    simpa using congrArg DvsSat.incremental hrest
  have htaint : x'.sat.tainted = x.sat.tainted := by simpa using congrArg DvsSat.tainted hrest
  have hclosed : x'.sat.lastLitWasZero = x.sat.lastLitWasZero := by
    simpa using congrArg DvsSat.lastLitWasZero hrest
  have hnum : x'.sat.numClauses = x.sat.numClauses := by
    simpa using congrArg DvsSat.numClauses hrest
  have hpush : x'.sat.pushNumClauses = x.sat.pushNumClauses := by
    simpa using congrArg DvsSat.pushNumClauses hrest
  refine ⟨by rw [hinc,h.incremental],hlog,by rw [hclosed,h.closed],?_,?_⟩
  · rw [hlost,htaint]
    exact h.lost
  · rw [htaint,hnum,hpush,hframes]
    exact h.snapshots

theorem Counts.push (h : x.Counts) (answer : List Call → List ℤ → ℤ) (hc : x.Contract .push) :
    (x.step answer .push).Counts := by
  have hsat : x.sat.dvsSatPush =
      { x.sat with pushNumClauses := x.sat.numClauses :: x.sat.pushNumClauses } := by
    have hdepth : ¬ x.sat.pushDepth ≥ maxPush := not_le.mpr hc
    have hinc : ¬ x.sat.incremental = true := by simp [h.incremental]
    rw [DvsSat.dvsSatPush,if_neg hdepth,if_neg hinc]
  have hstep : x.step answer .push = { x with
      sat := { x.sat with pushNumClauses := x.sat.numClauses :: x.sat.pushNumClauses }
      scopes := { x.scopes with frames := [] :: x.scopes.frames } } := by
    rw [← hsat]
    rfl
  rw [hstep]
  refine ⟨h.incremental,h.log,h.closed,h.lost,h.snapshots.imp id fun hs => ?_⟩
  exact ⟨rfl,hs⟩

theorem Counts.pop (h : x.Counts) (answer : List Call → List ℤ → ℤ) (hs : x.Safe .pop) :
    (x.step answer .pop).Counts := by
  have hinc : ¬ x.sat.incremental = true := by simp [h.incremental]
  have hsat : (x.step answer .pop).sat = x.sat.dvsSatPop := rfl
  have hscopes : (x.step answer .pop).scopes = x.scopes.step .pop := rfl
  cases hpush : x.sat.pushNumClauses with
  | nil =>
    have hpop : x.sat.dvsSatPop = x.sat := by
      rw [dvsSatPop,if_neg hinc,hpush]
    rw [← hsat] at hpop
    rcases h.snapshots with ht | hsnap
    · exact ⟨by rw [hpop,h.incremental],by rw [hpop]; exact h.log,by rw [hpop,h.closed],
        fun _ => by rw [hpop,ht],.inl (by rw [hpop,ht])⟩
    · have hframes : x.scopes.frames = [] := by
        rw [hpush] at hsnap
        cases hf : x.scopes.frames with
        | nil => rfl
        | cons f frames => simp [hf,Snapshots] at hsnap
      have hsame : (x.step answer .pop).scopes = x.scopes := by
        rw [hscopes,Scopes.step,hframes]
      exact h.keep (by rw [hpop]; exact h.log) (by rw [hpop]; rfl) (by rw [hsame]) (by rw [hsame])
  | cons snap snaps =>
    have hpop : (x.step answer .pop).sat = if x.sat.numClauses ≠ snap then
        { x.sat with pushNumClauses := snaps, tainted := true }
        else { x.sat with pushNumClauses := snaps } := by
      rw [hsat,dvsSatPop,if_neg hinc,hpush]
    have hkeep : (x.step answer .pop).sat.incremental = false ∧
        (x.step answer .pop).sat.LogOk ∧ (x.step answer .pop).sat.lastLitWasZero = true ∧
        (x.sat.tainted = true ∨ x.sat.numClauses ≠ snap → (x.step answer .pop).sat.tainted = true) := by
      rw [hpop]
      split_ifs with hne
      · exact ⟨h.incremental,h.log,h.closed,fun _ => rfl⟩
      · exact ⟨h.incremental,h.log,h.closed,fun ht => ht.resolve_right hne⟩
    obtain ⟨h1,h2,h3,h4⟩ := hkeep
    by_cases ht : x.sat.tainted = true ∨ x.sat.numClauses ≠ snap
    · exact ⟨h1,h2,h3,fun _ => h4 ht,.inl (h4 ht)⟩
    · push Not at ht
      obtain ⟨f,frames,hframes⟩ : ∃ f frames, x.scopes.frames = f :: frames := by
        have hsnap := h.snapshots.resolve_left ht.1
        rw [hpush] at hsnap
        cases hf : x.scopes.frames with
        | nil => simp [hf,Snapshots] at hsnap
        | cons f frames => exact ⟨f,frames,rfl⟩
      have hsnap := h.snapshots.resolve_left ht.1
      rw [hpush,hframes,ht.2] at hsnap
      obtain ⟨hcount,hsnap⟩ := hsnap
      -- the counts agree, so the frame has no clause but empty ones, and then none
      have hnil : f = [] := by
        by_contra hne
        have hall : ∀ c ∈ f, c = [] := by
          have hzero : (f.filter fun c => c ≠ []) = [] :=
            List.length_eq_zero_iff.mp (by omega)
          intro c hc
          by_contra hcne
          have hmem : c ∈ f.filter fun c => c ≠ [] := List.mem_filter.mpr ⟨hc,by simpa using hcne⟩
          rw [hzero] at hmem
          simp at hmem
        obtain ⟨c,hc⟩ := List.exists_mem_of_ne_nil f hne
        have hempty : [] ∈ f := by
          have := hall c hc
          rwa [← this]
        obtain ⟨d,hd,hdne⟩ := (hs f (by simp [hframes]) hempty).2
        exact hdne (hall d hd)
      have hsat' : (x.step answer .pop).sat = { x.sat with pushNumClauses := snaps } := by
        rw [hpop,if_neg (by simp [ht.2])]
      refine ⟨h1,h2,h3,?_,.inr ?_⟩
      · rw [hscopes,hsat']
        simp only [Scopes.step,hframes,hnil,ne_eq,not_true_eq_false,decide_false,Bool.or_false]
        exact h.lost
      · rw [hscopes,hsat']
        simp only [Scopes.step,hframes,ht.2]
        exact hsnap

theorem snapshots_cons {snap : ℕ} {snaps : List ℕ} {frames : List (List (List ℤ))}
    (h : Snapshots n (snap :: snaps) frames) : ∃ f rest, frames = f :: rest ∧
      n = snap + (f.filter fun c => c ≠ []).length ∧ Snapshots snap snaps rest := by
  cases frames with
  | nil => simp [Snapshots] at h
  | cons f rest => exact ⟨f,rest,rfl,h.1,h.2⟩

theorem Counts.clause (h : x.Counts) (answer : List Call → List ℤ → ℤ) {c : List ℤ}
    (hc : x.Contract (.clause c)) : (x.step answer (.clause c)).Counts := by
  obtain ⟨_,h2,h3⟩ := DvsSat.addClause_spec h.log h.closed hc.1
  have hinc : (x.sat.addClause c).incremental = false := by
    simpa [h.incremental] using congrArg DvsSat.incremental h3
  have htaint : (x.sat.addClause c).tainted = x.sat.tainted := by
    simpa using congrArg DvsSat.tainted h3
  have hclosed : (x.sat.addClause c).lastLitWasZero = true := by
    simpa [h.closed] using congrArg DvsSat.lastLitWasZero h3
  have hnum : (x.sat.addClause c).numClauses = x.sat.numClauses + if c = [] then 0 else 1 := by
    simpa using congrArg DvsSat.numClauses h3
  have hpush : (x.sat.addClause c).pushNumClauses = x.sat.pushNumClauses := by
    simpa using congrArg DvsSat.pushNumClauses h3
  have hlost : (x.step answer (.clause c)).scopes.lost = x.scopes.lost := by
    simp only [step,Scopes.step]
    split
    · rfl
    · rfl
  refine ⟨hinc,h2,hclosed,?_,?_⟩
  · rw [hlost]
    exact fun hl => htaint.trans (h.lost hl)
  · refine h.snapshots.imp (fun ht => htaint.trans ht) fun hsnap => ?_
    show Snapshots (x.sat.addClause c).numClauses (x.sat.addClause c).pushNumClauses
      (x.scopes.step (.clause c)).frames
    rw [hnum,hpush]
    cases hp : x.sat.pushNumClauses with
    | nil =>
      rw [hp] at hsnap
      cases hf : x.scopes.frames with
      | nil => simp [Scopes.step,hf,Snapshots]
      | cons f frames => simp [hf,Snapshots] at hsnap
    | cons snap snaps =>
      rw [hp] at hsnap
      obtain ⟨f,frames,hf,hn,hrest⟩ := snapshots_cons hsnap
      simp only [Scopes.step,hf]
      refine ⟨?_,hrest⟩
      rw [hn,List.filter_append,List.length_append]
      by_cases hnil : c = []
      · simp [hnil]
      · simp [hnil,Nat.add_assoc]

theorem Counts.step (h : x.Counts) (answer : List Call → List ℤ → ℤ) {op : Op} (hc : x.Contract op)
    (hs : x.Safe op) : (x.step answer op).Counts := by
  have hset : ∀ k v, ((x.sat.vtSet k v).LogOk) ∧ (x.sat.vtSet k v).rest = x.sat.rest :=
    fun k v => ⟨(DvsSat.vtSet_spec h.log k v).2,vtSet_rest x.sat k v⟩
  cases op with
  | push => exact h.push answer hc
  | pop => exact h.pop answer hs
  | clause c => exact h.clause answer hc
  | assume lit =>
    rw [Session.step_assume]
    split_ifs
    · exact h
    · exact h.keep h.log rfl rfl rfl
  | solve =>
    have hspec := materialize_spec h.log
    have hrest := materialize_rest x.sat
    by_cases ht : x.sat.tainted = true
    · have hsat : (x.step answer .solve).sat = x.sat := by
        simp only [Session.step,DvsSat.step,dvsSatSolve,ht,if_true]
      exact h.keep (by rw [hsat]; exact h.log) (by rw [hsat]; rfl) rfl rfl
    · have hinc : ¬ x.sat.materialize.incremental = true := by
        have := congrArg DvsSat.incremental hrest
        simp only [DvsSat.rest_incremental,h.incremental] at this
        simp [this]
      have hsat : (x.step answer .solve).sat = { x.sat.materialize with
          impl := some (x.sat.materialize.impl.getD [] ++ [.solve x.sat.materialize.assumeBuf])
          assumeBuf := [] } := by
        simp only [Session.step,DvsSat.step,dvsSatSolve,if_neg ht,if_neg hinc]
      refine h.keep (by rw [hsat]; exact hspec.2.1) ?_ rfl rfl
      rw [hsat]
      exact (rest_over hrest :)
  | reserve n =>
    by_cases hn : 0 < n
    · have hsat : (x.step answer (.reserve n)).sat = { x.sat.vtSet .reserve n with
          maxVar := max (x.sat.vtSet .reserve n).maxVar n } := by
        simp only [Session.step,DvsSat.step,dvsSatReserve,if_pos hn]
      refine h.keep (by rw [hsat]; exact (hset _ _).1) ?_ rfl rfl
      rw [hsat]
      exact (rest_over (hset .reserve n).2 :)
    · rwa [Session.step_reserve_zero answer hn]
  | set k v =>
    exact h.keep (hset k v).1 (rest_over (hset k v).2) rfl rfl

theorem Counts.right (h : x.Counts) (answer : List Call → List ℤ → ℤ) :
    x.Right answer := by
  have hinc : ¬ x.sat.incremental = true := by simp [h.incremental]
  rw [Right,if_neg hinc]
  intro hl
  rw [dvsSatSolve,if_pos (h.lost hl)]

def Inv (x : Session) : Prop := (∃ live, x.Tracks live) ∨ x.Counts

theorem Inv.run (h : x.Inv) {ops : List Op}
    (hrun : x.Run answer (fun x op => x.Contract op ∧ x.Safe op) ops) :
    (x.run answer ops).Inv := by
  induction ops generalizing x with
  | nil => exact h
  | cons op ops ih =>
    obtain ⟨⟨hc,hs⟩,hrest⟩ := hrun
    refine ih ?_ hrest
    rcases h with ⟨live,h⟩ | h
    · exact .inl (h.step answer hc hs)
    · exact .inr (h.step answer hc hs)

/-- A solve at any point of a run that meets the contract, with no step that reaches an
empty clause of a popped frame or a retired selector, is right. -/
theorem run_right {answer : List Call → List ℤ → ℤ} (hexact : Exact answer)
    (incremental lazy : Bool) {ops : List Op}
    (hrun : (new incremental lazy).Run answer (fun x op => x.Contract op ∧ x.Safe op) ops) :
    ((new incremental lazy).run answer ops).Right answer := by
  have hnew : (new incremental lazy).Inv := by
    cases incremental with
    | false => exact .inr (counts_new lazy)
    | true => exact .inl ⟨[],tracks_new lazy⟩
  rcases hnew.run hrun with ⟨live,h⟩ | h
  · exact h.right hexact
  · exact h.right answer

def modelOfDec (v : ℕ → Bool) (cs : List (List ℤ)) (assumps : List ℤ) : Bool :=
  cs.all (fun c => c.any (litValue v)) && assumps.all (litValue v)

variable {cs : List (List ℤ)}

theorem modelOfDec_iff {v : ℕ → Bool} {assumps : List ℤ} :
    modelOfDec v cs assumps = true ↔ ModelOf v cs assumps := by
  simp [modelOfDec,ModelOf,Satisfies]

def varBound (cs : List (List ℤ)) (assumps : List ℤ) : ℕ :=
  maxOver 0 (cs.flatten ++ assumps) + 1

def tryAll (calls : List Call) (assumps : List ℤ) : ℤ :=
  let cs := Sat.clauses calls
  if (List.range (2^varBound cs assumps)).any fun n => modelOfDec n.testBit cs assumps then satSat
  else satUnsat

theorem modelOf_congr {v v' : ℕ → Bool} {assumps : List ℤ}
    (h : ∀ l ∈ cs.flatten ++ assumps, v l.natAbs = v' l.natAbs) (hv : ModelOf v cs assumps) :
    ModelOf v' cs assumps := by
  refine ⟨fun c hc => ?_,fun l hl => ?_⟩
  · obtain ⟨l,hl,hlv⟩ := hv.1 c hc
    refine ⟨l,hl,?_⟩
    rw [litValue,← h l (List.mem_append_left _ (List.mem_flatten.mpr ⟨c,hc,hl⟩))]
    exact hlv
  · rw [litValue,← h l (List.mem_append_right _ hl)]
    exact hv.2 l hl

theorem tryAll_exact : Exact tryAll := by
  intro calls assumps _
  set cs := Sat.clauses calls with hcs
  have hany : ((List.range (2^varBound cs assumps)).any
      fun n => modelOfDec n.testBit cs assumps) = true ↔ Satisfiable cs assumps := by
    rw [List.any_eq_true]
    constructor
    · rintro ⟨n,_,hn⟩
      exact ⟨n.testBit,modelOfDec_iff.mp hn⟩
    · rintro ⟨v,hv⟩
      refine ⟨Bits.low v (varBound cs assumps),List.mem_range.mpr (Bits.low_lt _ _),
        modelOfDec_iff.mpr (modelOf_congr (fun l hl => ?_) hv)⟩
      have hle := (DvsSat.le_maxOver 0 (cs.flatten ++ assumps)).2 l hl
      have hlt : l.natAbs < varBound cs assumps := Nat.lt_succ_of_le hle
      rw [Bits.testBit_low]
      simp [hlt]
  rw [tryAll,← hcs,← hany]
  split_ifs with h
  · simp [h,satSat,satUnsat]
  · simp [h,satSat,satUnsat]

/-- A frame opened, filled and popped on a lazy instance, with an assumption queued. -/
theorem run_right_frame : ((new true true).run tryAll
    [.clause [1,2],.push,.clause [-1],.solve,.pop,.assume 1]).Right tryAll :=
  run_right tryAll_exact true true (by decide +kernel)

/-- The contract alone is not enough: a variable introduced after a pop is the selector
of the popped frame, and an empty clause outlives its frame on either backend. -/
theorem run_contract_fails :
    ((new true false).Run tryAll Contract [.push,.pop,.clause [1]] ∧
      ¬ ((new true false).run tryAll [.push,.pop,.clause [1]]).Right tryAll) ∧
    ((new true false).Run tryAll Contract [.push,.clause [],.pop] ∧
      ¬ ((new true false).run tryAll [.push,.clause [],.pop]).Right tryAll) ∧
    ((new false false).Run tryAll Contract [.push,.clause [],.pop] ∧
      ¬ ((new false false).run tryAll [.push,.clause [],.pop]).Right tryAll) := by
  have hone : Selectors.Satisfiable [[1]] [] := ⟨fun _ => true,modelOfDec_iff.mp (by decide)⟩
  have hnone : Selectors.Satisfiable [] [] := ⟨fun _ => true,modelOfDec_iff.mp (by decide)⟩
  refine ⟨⟨by decide +kernel,fun h => ?_⟩,⟨by decide +kernel,fun h => ?_⟩,
    ⟨by decide +kernel,fun h => ?_⟩⟩
  · exact absurd (h.1.mpr hone) (by decide +kernel)
  · exact absurd (h.1.mpr hnone) (by decide +kernel)
  · exact absurd (h (by decide +kernel)) (by decide +kernel)

end Session
end Sat
end DvSolve
