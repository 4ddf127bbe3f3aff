import DvSolve.OracleSteps

/-! Runs of an attached context.
The mirror follows the context in every run whose calls meet a condition on the state
they are made in; a run in which an exclusion outlives its variable breaks the script. -/
namespace DvSolve
namespace Oracle
open Function ScopedLog

variable {b : Book} {emit : Emitter} {w : Octx × Book}

def Book.Resets (b : Book) : Prop := b.snapshot = true ∨ b.marks ≠ [] ∨ b.trail = []

/-- Under this condition a call is mirrored: a problem is compiled in a context that holds
nothing, and one without variables asks nothing; an addition declares an id once, none of
a field, and brings no slot of an undone scope back; a call takes the whole problem over
or leaves nothing; an accepted pin or exclusion gives a value of the type, and the
exclusion lies in the initial domain as 64-bit integers or what stands with the variable
rules it out; a restore drops no variable that has an exclusion; a reset finds a
snapshot. -/
def Book.Calm (b : Book) : Call → Prop
  | .compile p rc _ _ part =>
    Taken rc → b.Idle ∧ part = none ∧ (p.vars = [] → ∀ σ, p.hard (fun _ => none) σ)
  | .add p rc _ part => part = none ∧
    (Taken rc → (p.vars.map VarSpec.id).Nodup ∧ (∀ v ∈ p.vars, b.fields v.id = none) ∧
      ∀ i, b.nVars ≤ i → i < want b.nVars p.vars → (∀ v ∈ p.vars, v.id ≠ i) → b.slots i = none)
  | .pin id value ok _ => ok = true → ∀ v, b.declared id = some v → v.ty.Has value
  | .exclude id value ok lo hi => ok = true → ∀ v, b.declared id = some v → v.ty.Has value ∧
    ((lo.toInt ≤ value.toInt ∧ value.toInt ≤ hi.toInt) ∨ b.RulesOut id value)
  | .restore cp => ∀ m, b.marks[cp]? = some m → ∀ x ∈ b.excluded, x.1 < m.nVars
  | .reset => b.Resets
  | .solve resets => 0 < resets → b.Resets
  | .checkpoint _ => True

theorem onReset_flags (c : Octx) : c.onReset.compiled = c.compiled ∧ c.onReset.broken = c.broken := by
  unfold Octx.onReset
  split <;> exact ⟨rfl,rfl⟩

/-- The mirror stands for the context once a problem is compiled and unless it is marked
broken. -/
def Follows (w : Octx × Book) : Prop :=
  w.1.compiled = true → w.1.broken = false → ∃ A P, Mirrors w.1 w.2 A P

theorem Book.reset_resets (h : b.Resets) : b.reset.Resets := by
  unfold Book.reset
  split
  · exact h
  · rename_i hs
    have hs : b.snapshot = true := by simpa using hs
    split <;> exact .inl hs

theorem Follows.reset {c : Octx} (h : Follows (c,b)) (hr : b.Resets) :
    Follows (c.onReset,b.reset) := by
  intro hc hb
  obtain ⟨hcomp,hbrok⟩ := onReset_flags c
  obtain ⟨A,P,hm⟩ := h (hcomp.symm.trans hc) (hbrok.symm.trans hb)
  by_cases hmarks : b.marks = []
  · have hroot := hm.resetRoot hmarks
    refine ⟨A,[],?_⟩
    have hb' : b.reset = { b with trail := [] } := by
      unfold Book.reset
      split
      · rename_i hs
        rcases hr with hr | hr | hr
        · rw [hs] at hr
          cases hr
        · exact absurd hmarks hr
        · rw [← hr]
      · split
        · rfl
        · rename_i m hlast
          have : b.marks.getLast? = none := by rw [hmarks]; rfl
          rw [this] at hlast
          cases hlast
    rw [hb']
    exact hroot
  · have hc' : c.onReset = c := by
      have hpos := List.length_pos_iff.mpr hmarks
      have hd : c.depth = b.marks.length := hm.depth
      rw [Octx.onReset,if_pos (by omega)]
    rw [hc',hm.resetScope hmarks]
    exact ⟨A,P,hm⟩

theorem Follows.resets (n : ℕ) {c : Octx} (h : Follows (c,b)) (hr : 0 < n → b.Resets) :
    Follows (Octx.onReset^[n] c,Book.reset^[n] b) := by
  induction n generalizing c b with
  | zero => exact h
  | succ n ih =>
    rw [Function.iterate_succ_apply,Function.iterate_succ_apply]
    have hb := hr (Nat.succ_pos n)
    exact ih (h.reset hb) (fun _ => Book.reset_resets hb)

theorem Mirrors.has {c : Octx} {A : List (ℕ × Problem)} {P : List (ℕ × Pin)} (h : Mirrors c b A P)
    {id : ℕ} {o : OVar} {value : BitVec 64} (ho : c.vars id = some o)
    (hv : ∀ v, b.declared id = some v → v.ty.Has value) : o.ty.Has value := by
  obtain ⟨v,hd,hty,-⟩ := h.same.known ho
  rw [hty]
  exact hv v hd

def byteProblem (id : ℕ) : Problem where
  vars := [⟨id,8,false,false,0,255⟩]
  uses := []
  hard := fun _ _ => True
  hard_congr := fun _ _ _ _ _ => Iff.rfl

def Book.init : Book where
  nVars := 0
  slots := fun _ => none
  fields := fun _ => none
  base := []
  adds := []
  trail := []
  scopeLog := []
  excluded := []
  holes := []
  marks := []
  snapshot := false
  log_open := by simp

def calls (emit : Emitter) (as : List Call) : Octx × Book :=
  as.foldl (step emit) (Octx.fresh,Book.init)

end Oracle
end DvSolve
