import DvSolve.PropagateSem

/-! What a propagation keeps.
Clauses, fires and the loop change the context by five steps only: what these steps keep is kept
by every propagation, whatever it ends in. -/
namespace DvSolve
namespace Solver

variable {r : PropResult} {overBudget : Engine → Bool} {s s' : Engine} {ref n k : ℕ}

/-- What the steps of a propagation keep: `P` until a conflict, and `C` from then on. The
propagators that are queued lie below `n`, and one that is marked entailed has `E`. -/
structure Round (n : ℕ) (C P : Engine → Prop) (E : ℕ → Engine → Prop) : Prop extends Walk C P where
  reason : ∀ {s} ref flags, P s → P (s.withReason ref flags)
  reasonC : ∀ {s} ref flags, C s → C (s.withReason ref flags)
  reasonE : ∀ {s ref} r flags, E ref s → E ref (s.withReason r flags)
  entails : ∀ ref, Walk C fun s => P s ∧ E ref s
  mark : ∀ {s} ref, ref < n → P s → E ref s → P { s with ctx := trailMarkEntailed s.ctx ref }
  shut : ∀ {s ref}, P s → gateOf s.ctx ref = .shut → E ref s
  enqueue : ∀ {s} ref, ref < n → P s → P { s with ctx := propEnqueue s.ctx ref }
  enqueueC : ∀ {s} ref, ref < n → C s → C { s with ctx := propEnqueue s.ctx ref }
  take : ∀ {s ref c}, dequeue s.ctx = some (ref,c) → P s → ref < n ∧ P { s with ctx := c }
  fire : ∀ {s ref}, ref < n → P s → gateOf s.ctx ref = .through →
    After C (fun t => P t ∧ (((s.ctx.props ref).fire.run s).1 = .entailed → E ref t))
      ((s.ctx.props ref).fire.run s).1 ((s.ctx.props ref).fire.run s).2

namespace Round

variable {C P : Engine → Prop} {E : ℕ → Engine → Prop} (h : Round n C P E)

include h

theorem answered (ref : ℕ) (r : PropResult) :
    Walk C fun t => P t ∧ (r = .entailed → E ref t) := by
  by_cases hr : r = .entailed
  · simpa [hr] using h.entails ref
  · simpa [hr] using h.toWalk

theorem fireHeld (href : ref < n) (hs : P s) (hg : gateOf s.ctx ref = .through)
    (hr : fireHeld k s ref = some (r,s')) :
    After C (fun t => P t ∧ (r = .entailed → E ref t)) r s' := by
  obtain ⟨t,ht⟩ : ∃ t, t = (clauseNotifyHold s).2.setReason (some ref) := ⟨_,rfl⟩
  have htc : t.ctx = { s.ctx with currentPropRef := some ref } := by
    rw [ht]
    change { (clauseNotifyHold s).2.ctx with currentPropRef := some ref } = _
    rw [clauseNotifyHold_ctx]
  have hhold : P (clauseNotifyHold s).2 := by
    refine h.plain hs (clauseNotifyHold_ctx s) ?_
    unfold clauseNotifyHold
    split
    · rfl
    · rename_i hdb
      split_ifs <;> simp [hdb]
  have hrun := h.fire (s:=t) href (ht ▸ h.reason _ _ hhold) (by rw [htc]; exact hg)
  have hfire : (t.ctx.props ref).fire = ((clauseNotifyHold s).2.ctx.props ref).fire := by
    rw [htc,clauseNotifyHold_ctx]
  rw [hfire] at hrun
  unfold Solver.fireHeld at hr
  simp only [← ht] at hr
  generalize ((clauseNotifyHold s).2.ctx.props ref).fire.run t = out at hrun hr
  have hw := h.answered ref out.1
  have hout : After C (fun t => P t ∧ (out.1 = .entailed → E ref t)) out.1
      (out.2.setReason none) := by
    unfold After at hrun ⊢
    split_ifs at hrun ⊢
    · exact h.reasonC _ _ hrun
    · exact ⟨h.reason _ _ hrun.1,fun he => h.reasonE _ _ (hrun.2 he)⟩
  split at hr
  · obtain ⟨⟨r',t'⟩,hrel,heq⟩ := Option.map_eq_some_iff.mp hr
    obtain ⟨rfl,rfl⟩ := Prod.mk.inj heq
    unfold clauseNotifyRelease at hrel
    by_cases hc : out.1 = .conflict
    · rw [if_neg (by simpa using hc)] at hrel
      obtain ⟨rfl,rfl⟩ := Prod.mk.inj (Option.some.inj hrel)
      exact hw.endNotify hout
    · rw [if_pos (by simpa using hc)] at hrel
      have hd := hw.drain ((After.iff (by simp)).mpr ((After.iff hc).mp hout)) hrel
      split_ifs with hr'
      · rw [show r' = .conflict from hr',after_conflict] at hd
        exact after_conflict.mpr hd
      · exact (After.iff hc).mpr ((After.iff hr').mp hd)
  · obtain ⟨rfl,rfl⟩ := Prod.mk.inj (Option.some.inj hr)
    exact hout

theorem visitProp {o : Option PropResult} (href : ref < n) (hs : P s)
    (hv : visitProp overBudget k s ref = some (o,s')) :
    o = some .conflict ∧ s'.aborted = true ∧ P s' ∨ After C P (o.getD .ok) s' := by
  have hok : ∀ {t : Engine}, P t → After C P .ok t := (After.iff (by simp)).mpr
  unfold Solver.visitProp at hv
  dsimp only at hv
  have hs' : P { s with fires := s.fires+1, ticks := s.ticks+1 } := h.plain hs rfl rfl
  split_ifs at hv
  · obtain ⟨rfl,rfl⟩ := Prod.mk.inj (Option.some.inj hv)
    exact .inr (hok hs)
  · obtain ⟨rfl,rfl⟩ := Prod.mk.inj (Option.some.inj hv)
    exact .inl ⟨rfl,rfl,h.plain (h.enqueue ref href hs') rfl rfl⟩
  · split at hv
    · rename_i hg
      obtain ⟨rfl,rfl⟩ := Prod.mk.inj (Option.some.inj hv)
      exact .inr (hok (h.mark ref href hs' (h.shut hs' hg)))
    · obtain ⟨rfl,rfl⟩ := Prod.mk.inj (Option.some.inj hv)
      exact .inr (hok hs')
    · rename_i hg
      obtain ⟨⟨r,t⟩,hfire,heq⟩ := Option.map_eq_some_iff.mp hv
      have ht := h.fireHeld (s:={ s with fires := s.fires+1, ticks := s.ticks+1 }) href hs' hg hfire
      cases r with
      | conflict =>
        obtain ⟨rfl,rfl⟩ := Prod.mk.inj heq
        exact .inr (after_conflict.mpr
          (h.plainC (h.enqueueC (s:=t) ref href (after_conflict.mp ht)) rfl rfl))
      | ok =>
        obtain ⟨rfl,rfl⟩ := Prod.mk.inj heq
        exact .inr (hok ((After.iff (by simp)).mp ht).1)
      | entailed =>
        obtain ⟨rfl,rfl⟩ := Prod.mk.inj heq
        obtain ⟨ht,he⟩ := (After.iff (by simp)).mp ht
        exact .inr (hok (h.mark ref href ht (he rfl)))

theorem propagateLoop (hs : P s) (hl : propagateLoop overBudget k s = some (r,s')) :
    r = .conflict ∧ s'.aborted = true ∧ P s' ∨ After C P r s' := by
  induction k generalizing s with
  | zero => simp [Solver.propagateLoop] at hl
  | succ k ih =>
    rw [Solver.propagateLoop] at hl
    split at hl
    · obtain ⟨rfl,rfl⟩ := Prod.mk.inj (Option.some.inj hl)
      exact .inr ((After.iff (by simp)).mpr hs)
    · split at hl
      · simp at hl
      · rename_i ref c hdeq
        obtain ⟨href,hc⟩ := h.take hdeq hs
        split at hl
        · simp at hl
        all_goals
          rename_i hv
          have hstep := h.visitProp href hc hv
        · obtain ⟨rfl,rfl⟩ := Prod.mk.inj (Option.some.inj hl)
          simpa using hstep
        · exact ih ((After.iff (by simp)).mp (hstep.resolve_left (by simp))) hl

theorem propagate (hs : P s) (hp : dvsSolverPropagate overBudget k s = some (r,s')) :
    r = .conflict ∧ s'.aborted = true ∧ P s' ∨ After C P r s' := by
  unfold dvsSolverPropagate at hp
  split_ifs at hp with hab
  · obtain ⟨rfl,rfl⟩ := Prod.mk.inj (Option.some.inj hp)
    exact .inl ⟨rfl,hab,hs⟩
  · exact h.propagateLoop (s:={ s with conflictProp := none, conflictClause := none })
      (h.plain hs rfl rfl) hp

end Round

/-- The steps of a propagation keep `P`; the propagators they name lie below `n`. -/
structure Steady (n : ℕ) (P : Ctx → Prop) : Prop where
  tighten : ∀ c t id b, P c → P (ctxTighten t c id b).2
  reason : ∀ c ref flags, P c → P { c with currentPropRef := ref, currentFlags := flags }
  mark : ∀ c ref, ref < n → P c → P (trailMarkEntailed c ref)
  enqueue : ∀ c ref, ref < n → P c → P (propEnqueue c ref)
  take : ∀ c ref c', dequeue c = some (ref,c') → P c → ref < n ∧ P c'

namespace Steady

variable {P : Ctx → Prop}

theorem tightenHeld (h : Steady n P) (hs : P s.ctx) (t : Tighten) (id : ℕ) (b : BitVec 64) :
    P (tightenHeld s t id b).2.ctx := by
  rw [tightenHeld_ctx]
  exact h.tighten _ _ _ _ hs

theorem withReason (h : Steady n P) (hs : P s.ctx) (ref : Option ℕ) (flags : ℕ) :
    P (s.withReason ref flags).ctx := h.reason _ _ _ hs

theorem visitClause (h : Steady n P) (hs : P s.ctx) (ci : ℕ) : P (visitClause s ci).2.2.ctx := by
  unfold Solver.visitClause
  split
  · exact hs
  · split_ifs
    · exact hs
    · exact hs
    · split
      · exact hs
      · unfold enforceUnit
        split_ifs
        · exact hs
        · exact h.withReason (h.tightenHeld (h.withReason hs _ _) _ _ _) _ _
        · exact h.withReason (h.tightenHeld (h.withReason hs _ _) _ _ _) _ _
      · exact hs

theorem fire (h : Steady n P) (f : Fire) {s : Engine} (hs : P s.ctx) : P (f.run s).2.ctx := by
  induction f generalizing s with
  | done r => exact hs
  | read v k ih => exact ih _ hs
  | tighten t v b k ih => exact ih _ (h.tightenHeld hs t v b)

theorem after_self {Q : Engine → Prop} : After Q Q r s ↔ Q s := by
  unfold After
  split_ifs <;> rfl

theorem walk (h : Steady n P) : Walk (fun s => P s.ctx) fun s => P s.ctx where
  plain hs hc _ := by simpa only [hc] using hs
  plainC hs hc _ := by simpa only [hc] using hs
  visit ci hs := after_self.mpr (h.visitClause hs ci)

theorem round (h : Steady n P) : Round n (fun s => P s.ctx) (fun s => P s.ctx) fun _ _ => True where
  toWalk := h.walk
  reason ref flags hs := h.withReason hs ref flags
  reasonC ref flags hs := h.withReason hs ref flags
  reasonE _ _ _ := trivial
  entails _ := by simpa using h.walk
  mark ref href hs _ := h.mark _ ref href hs
  shut _ _ := trivial
  enqueue ref href hs := h.enqueue _ ref href hs
  enqueueC ref href hs := h.enqueue _ ref href hs
  take hd hs := h.take _ _ _ hd hs
  fire _ hs _ := by simpa using after_self.mpr (h.fire _ hs)

theorem visitProp (h : Steady n P) {o : Option PropResult} (hs : P s.ctx) (href : ref < n)
    (hv : visitProp overBudget k s ref = some (o,s')) : P s'.ctx :=
  (h.round.visitProp href hs hv).elim (fun ha => ha.2.2) after_self.mp

theorem propagate (h : Steady n P) (hs : P s.ctx)
    (hp : dvsSolverPropagate overBudget k s = some (r,s')) : P s'.ctx :=
  (h.round.propagate hs hp).elim (fun ha => ha.2.2) after_self.mp

end Steady

end Solver
end DvSolve
