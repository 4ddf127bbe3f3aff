import DvSolve.AssertsLost
import DvSolve.DiversifyMemo
import DvSolve.AigCnfSem

/-! What is read back once an assertion is lost.
The simulation and the samplers stand aside then; the flip-check does not, and the answers
stand as long as it has nothing to turn. -/
namespace DvSolve
namespace Bbsolver

open Aig Aigsim

variable {s t : Bb} {e : Env} {c : Entry}

/-- Calls whose solve does not assume the scopes' selectors. -/
def Entry.unscoped : Entry → Bool
  | .check _ | .resolve _ | .resolveRaw | .solveAssuming | .installWorkerModel => true
  | _ => false

/-- What the code around a call promises: the graph only grows, the literals are of it and of
an open scope, and a model the SAT solver gives, on this instance or on another one with its
clauses, satisfies what the instance holds. -/
structure Env.Honest (e : Env) (s : Bb) (c : Entry) : Prop where
  wf : e.aig.Wf
  extends_ : s.aig.Extends e.aig
  valid : ∀ a ∈ e.asserted, e.aig.Valid a.lit ∧ a.scope ≤ s.frames.length
  answer : ∀ v, e.answer = .sat v →
    ∀ x ∈ (s.built e c).held !c.unscoped, (s.built e c).aig.evalLit v x = true
  satFresh : ∀ v, e.satFresh = .sat v →
    ∀ x ∈ (s.built e c).held false, (s.built e c).aig.evalLit v x = true
  portfolio : ∀ v, e.portfolio = some (.sat v) →
    ∀ x ∈ (s.built e c).held false, (s.built e c).aig.evalLit v x = true

def Entry.flipSeed (s : Bb) : Entry → Option (BitVec 64)
  | .check seed | .resolve seed | .rediversify seed | .resample seed | .sessSolve seed => some seed
  | .solveAssuming => some s.seed
  | .sample seed => some (if seed = 0#64 then 1#64 else seed)
  | _ => none

def Diversifier.Still (m : Aig) (x : Diversifier) : Prop :=
  x.Idle m ∨ x.scratch = false ∨ x.candidates m x.seed = []

/-- No flip-check turns anything once an assertion is lost, and the calls that do not know
of scopes are made outside them. -/
structure Env.Calm (e : Env) (s : Bb) (c : Entry) : Prop where
  still : (s.built e c).lost = true → ∀ seed ∈ c.flipSeed s,
    (e.diversifier ((s.built e c).setSeed seed)).Still (s.built e c).aig
  scopes : c.unscoped = true → s.frames = []

/-- The input `id` as the readback sees it: free bits are filled when there is a seed. -/
def Bb.read (s : Bb) (free fill : ℕ → Bool) (id : ℕ) : Bool :=
  match s.nodeVal with
  | some nv => nv id
  | none => if s.seed ≠ 0#64 ∧ free id = true then fill id else s.satVal id

/-- The literals are of the graph and of open scopes. -/
structure Bb.Core (s : Bb) : Prop where
  wf : s.aig.Wf
  valid : ∀ c ∈ s.clauses, s.aig.Valid c.2
  scopes : ∀ c ∈ s.clauses, c.1 ≤ s.frames.length

/-- The model of the last answer satisfies what was asserted, and it is still the one read. -/
structure Bb.Stands (s : Bb) (as : List ℤ) (v : ℕ → Bool) : Prop where
  lost : s.lost = true
  live : as = s.live
  holds : ∀ a ∈ as, s.aig.evalLit v a = true
  model : ∀ id, leftOf s.aig id = 0 → 1 ≤ id → s.nodeVal.getD s.satVal id = v id
  inSat : s.modelInSat = true → ∀ id, leftOf s.aig id = 0 → 1 ≤ id → s.satVal id = v id

structure Bb.Sound (s : Bb) : Prop extends s.Core where
  stands : ∀ as v, s.asked = some (as,v) → s.Stands as v

theorem Bb.Core.sound (h : s.Core) (ha : s.asked = none) : s.Sound :=
  ⟨h,fun as v hsome => absurd (ha.symm.trans hsome) (by simp)⟩

theorem Bb.Core.of_eq (h : s.Core) (h₁ : t.aig = s.aig) (h₂ : t.clauses = s.clauses)
    (h₃ : t.frames = s.frames) : t.Core := by
  refine ⟨?_,?_,?_⟩
  · rw [h₁]
    exact h.wf
  · rw [h₁,h₂]
    exact h.valid
  · rw [h₂,h₃]
    exact h.scopes

theorem assertTop_clauses (s : Bb) (a : Asserted) :
    (s.assertTop a).aig = s.aig ∧ (s.assertTop a).clauses = s.clauses ++ [(a.scope,a.lit)] ∧
      (s.assertTop a).frames = s.frames ∧ (s.assertTop a).asked = none := by
  unfold Bb.assertTop
  dsimp only
  split_ifs <;> exact ⟨rfl,rfl,rfl,rfl⟩

theorem assertTop_core (h : s.Core) {a : Asserted} (hv : s.aig.Valid a.lit)
    (hs : a.scope ≤ s.frames.length) : (s.assertTop a).Sound := by
  obtain ⟨h1,h2,h3,h4⟩ := assertTop_clauses s a
  refine Bb.Core.sound ⟨?_,fun c hc => ?_,fun c hc => ?_⟩ h4
  · rw [h1]
    exact h.wf
  · rw [h2,List.mem_append,List.mem_singleton] at hc
    rw [h1]
    rcases hc with hc | rfl
    · exact h.valid c hc
    · exact hv
  · rw [h2,List.mem_append,List.mem_singleton] at hc
    rw [h3]
    rcases hc with hc | rfl
    · exact h.scopes c hc
    · exact hs

theorem assertAll_sound (as : List Asserted) (h : s.Sound)
    (has : ∀ a ∈ as, s.aig.Valid a.lit ∧ a.scope ≤ s.frames.length) :
    (as.foldl Bb.assertTop s).Sound := by
  induction as generalizing s with
  | nil => exact h
  | cons a as ih =>
    obtain ⟨hv,hs⟩ := has a List.mem_cons_self
    obtain ⟨h1,_,h3,_⟩ := assertTop_clauses s a
    refine ih (assertTop_core h.toCore hv hs) fun b hb => ?_
    rw [h1,h3]
    exact has b (List.mem_cons_of_mem _ hb)

theorem leftOf_extends {m m' : Aig} (hm : m.Extends m') {id : ℕ} (h : leftOf m' id = 0) :
    leftOf m id = 0 := by
  by_contra hne
  obtain ⟨h2,hle,hand⟩ := leftOf_and hne
  have hleft : (m'.childrenOf id).1 = (m.childrenOf id).1 := hm.node_left id hle
  have hand' : m'.isAndId id = true := by
    obtain ⟨hgt,_,hc⟩ := isAndId_iff.mp hand
    refine isAndId_iff.mpr ⟨hgt,?_,?_⟩
    · simpa using hle.trans hm.size_le
    · rw [hleft]
      exact hc
  rw [(leftOf_eq h2 hand').1,hleft] at h
  exact (isAndId_iff.mp hand).2.2 h

theorem Bb.Sound.grown (h : s.Sound) {m : Aig} (hwf : m.Wf) (hm : s.aig.Extends m) :
    { s with aig := m }.Sound := by
  refine ⟨⟨hwf,fun c hc => (h.valid c hc).extends hm,h.scopes⟩,fun as v hs => ?_⟩
  have hst := h.stands as v hs
  refine ⟨hst.lost,hst.live,fun a ha => ?_,fun id hid => hst.model id (leftOf_extends hm hid),
    fun hin id hid => hst.inSat hin id (leftOf_extends hm hid)⟩
  have hlive := hst.live
  rw [hlive] at ha
  obtain ⟨c,hc,rfl⟩ := List.mem_map.mp ha
  rw [evalLit_extends hm v (h.valid c hc)]
  exact hst.holds c.2 (hlive ▸ ha)

structure Bb.Alike (s t : Bb) : Prop where
  aig : t.aig = s.aig
  clauses : t.clauses = s.clauses
  frames : t.frames = s.frames
  lost : t.lost = s.lost
  asked : t.asked = s.asked
  nodeVal : t.nodeVal = s.nodeVal
  satVal : t.satVal = s.satVal
  modelInSat : t.modelInSat = s.modelInSat

theorem Bb.Sound.alike (h : s.Sound) (ht : s.Alike t) : t.Sound := by
  refine ⟨h.of_eq ht.aig ht.clauses ht.frames,fun as v hs => ?_⟩
  rw [ht.asked] at hs
  obtain ⟨h1,h2,h3,h4,h5⟩ := h.stands as v hs
  refine ⟨ht.lost.trans h1,?_,?_,?_,?_⟩
  · rw [h2,Bb.live,Bb.live,ht.clauses]
  · rw [ht.aig]
    exact h3
  · rw [ht.aig,ht.nodeVal,ht.satVal]
    exact h4
  · rw [ht.aig,ht.modelInSat,ht.satVal]
    exact h5

theorem Bb.Sound.encode (h : s.Sound) (he : e.aig.Wf) (hm : s.aig.Extends e.aig)
    (hv : ∀ a ∈ e.asserted, e.aig.Valid a.lit ∧ a.scope ≤ s.frames.length) :
    (s.encode e).Sound := by
  have hall := assertAll_sound e.asserted (h.grown he hm) hv
  unfold Bb.encode
  split_ifs
  · exact hall
  · exact hall.alike ⟨rfl,rfl,rfl,rfl,rfl,rfl,rfl,rfl⟩

theorem Bb.Core.answered (h : s.Core) {v : ℕ → Bool} (hv : ∀ a ∈ s.live, s.aig.evalLit v a = true)
    (hread : s.nodeVal.getD s.satVal = v) (hin : s.modelInSat = true → s.satVal = v) :
    (s.verdict (.sat v)).Sound := by
  refine ⟨h.of_eq rfl rfl rfl,fun as w hs => ?_⟩
  unfold Bb.verdict at hs
  split_ifs at hs with hl
  obtain ⟨rfl,rfl⟩ := Prod.mk.inj (Option.some.inj hs)
  refine ⟨hl,rfl,hv,fun id _ _ => congrFun hread id,fun h1 id _ _ => congrFun (hin h1) id⟩

theorem Bb.Core.refused (h : s.Core) {r : Answer} (hr : r.isSat = false) : (s.verdict r).Sound := by
  refine (h.of_eq (t:=s.verdict r) rfl rfl rfl).sound ?_
  cases r with
  | sat v => exact absurd hr (by simp [Answer.isSat])
  | unsat => rfl
  | unknown => rfl

theorem Bb.Core.recorded (h : s.Core) (hl : s.lost = false) (r : Answer) : (s.verdict r).Sound := by
  refine (h.of_eq (t:=s.verdict r) rfl rfl rfl).sound ?_
  cases r with
  | sat v => simp [Bb.verdict,hl]
  | unsat => rfl
  | unknown => rfl

/-- What a search without the SAT instance leaves alone. -/
structure Bb.Kept (s t : Bb) : Prop where
  aig : t.aig = s.aig
  clauses : t.clauses = s.clauses
  frames : t.frames = s.frames
  lost : t.lost = s.lost

theorem Bb.Kept.core (hk : s.Kept t) (h : s.Core) : t.Core := h.of_eq hk.aig hk.clauses hk.frames

theorem Bb.Kept.trans {u : Bb} (h : s.Kept t) (h' : t.Kept u) : s.Kept u :=
  ⟨h'.aig.trans h.aig,h'.clauses.trans h.clauses,h'.frames.trans h.frames,h'.lost.trans h.lost⟩

theorem sampler_kept (s : Bb) (a : Answer) : s.Kept (s.sampler a).1 := by
  unfold Bb.sampler
  split_ifs
  · exact ⟨rfl,rfl,rfl,rfl⟩
  · cases a <;> exact ⟨rfl,rfl,rfl,rfl⟩

theorem sampled_kept (go : Answer → Bool) (as : List Answer) (s : Bb) :
    s.Kept (s.sampled go as).1 := by
  induction as generalizing s with
  | nil => exact ⟨rfl,rfl,rfl,rfl⟩
  | cons a as ih =>
    rw [Bb.sampled]
    split_ifs
    · exact (sampler_kept s a).trans (ih _)
    · exact sampler_kept s a

theorem satSolve_kept (s : Bb) (e : Env) : s.Kept (s.satSolve e).1 := by
  unfold Bb.satSolve
  split <;> exact ⟨rfl,rfl,rfl,rfl⟩

theorem solveWithSim_kept (s : Bb) (e : Env) : s.Kept (s.solveWithSim e).1 := by
  unfold Bb.solveWithSim
  split_ifs
  · exact satSolve_kept s e
  · split
    · exact ⟨rfl,rfl,rfl,rfl⟩
    · exact ⟨rfl,rfl,rfl,rfl⟩
    · exact satSolve_kept s e

theorem sampled_lost (go : Answer → Bool) (as : List Answer) (hl : s.lost = true)
    (hgo : go .unknown = true) : s.sampled go as = (s,.unknown) := by
  have hgate : s.simulates = false := by simp [Bb.simulates,hl]
  have hone : ∀ a, s.sampler a = (s,.unknown) := fun a => by simp [Bb.sampler,hgate]
  induction as with
  | nil => rfl
  | cons a as ih =>
    rw [Bb.sampled,hone a]
    rw [if_pos hgo,ih]

theorem solveWithSim_lost (e : Env) (hl : s.lost = true) : s.solveWithSim e = s.satSolve e := by
  have hgate : s.simulates = false := by simp [Bb.simulates,hl]
  simp [Bb.solveWithSim,hgate]

theorem startVal_leaf {m : Aig} {base : ℕ → Bool} {id : ℕ} (h : leftOf m id = 0) (h1 : 1 ≤ id) :
    startVal m base id = base id := by
  have hstart : startVal m base id = settle m (Function.update base 0 false) id := rfl
  rw [hstart,settle_leaf h,Function.update_of_ne (by omega)]

theorem diversifySweeps_still {m : Aig} {x : Diversifier} (h : x.Still m) (hidle : ¬ x.Idle m)
    (sweeps : ℕ) (base : ℕ → Bool) : diversifySweeps m x sweeps base = some (startVal m base) := by
  unfold diversifySweeps
  rw [if_neg hidle]
  cases hsc : x.scratch with
  | false => rfl
  | true =>
    rw [if_neg (by simp)]
    obtain hnil : x.candidates m x.seed = [] := by
      rcases h with h | h | h
      · exact absurd h hidle
      · exact absurd (h.symm.trans hsc) (by simp)
      · exact h
    have hvis : x.visits m sweeps = [] := visits_eq_nil.mpr hnil
    rw [hvis,hnil,if_pos rfl]
    have hmemo : ¬ ((x.inputs m).length ≤ memoBits ∧
        4*2^(x.inputs m).length ≤ ([] : List (ℕ × Bool)).length ∧ (!x.memoOff) = true) := fun h =>
      absurd h.2.1 (by simp)
    rw [if_neg hmemo]
    split_ifs <;> rfl

theorem Bb.Sound.diversify (h : s.Sound) (sweeps : ℕ)
    (hstill : s.lost = true → (e.diversifier s).Still s.aig) : (s.diversify e sweeps).Sound := by
  unfold Bb.diversify
  by_cases hidle : (e.diversifier s).Idle s.aig
  · rw [if_pos hidle]
    exact h
  rw [if_neg hidle]
  refine ⟨h.of_eq rfl rfl rfl,fun as v hs => ?_⟩
  have hst := h.stands as v hs
  refine ⟨hst.lost,hst.live,hst.holds,fun id hid h1 => ?_,hst.inSat⟩
  rw [diversifySweeps_still (hstill hst.lost) hidle,Option.getD_some,Option.getD_some,
    startVal_leaf hid h1]
  exact hst.model id hid h1

theorem Bb.Core.satSolve (h : s.Core)
    (hans : ∀ v, e.answer = .sat v → ∀ a ∈ s.live, s.aig.evalLit v a = true)
    (hnv : s.nodeVal = none) : ((s.satSolve e).1.verdict (s.satSolve e).2).Sound := by
  have hkept := (satSolve_kept s e).core h
  unfold Bb.satSolve at hkept ⊢
  cases ha : e.answer with
  | sat v =>
    rw [ha] at hkept
    refine hkept.answered (hans v ha) ?_ fun _ => rfl
    rw [hnv]
    rfl
  | unsat =>
    rw [ha] at hkept
    exact hkept.refused rfl
  | unknown =>
    rw [ha] at hkept
    exact hkept.refused rfl

theorem drop_kept (s : Bb) : s.Kept s.drop := ⟨rfl,rfl,rfl,rfl⟩

theorem satSolve_diversifier (s : Bb) (e : Env) (r : Answer) :
    e.diversifier ((s.satSolve e).1.verdict r) = e.diversifier s := by
  unfold Bb.satSolve
  split <;> rfl

theorem Bb.Core.search (h : s.Core)
    (hans : ∀ v, e.answer = .sat v → ∀ a ∈ s.live, s.aig.evalLit v a = true)
    (hstill : s.lost = true → (e.diversifier s).Still s.aig) (as : List Answer) :
    (s.search e as).Sound := by
  have hs := (drop_kept s).core h
  unfold Bb.search
  dsimp only
  by_cases hl : s.lost = true
  · rw [sampled_lost Answer.isUnknown as (s:=s.drop) hl rfl]
    rw [if_pos (show Answer.unknown.isUnknown = true from rfl),solveWithSim_lost e (s:=s.drop) hl]
    have hsat := hs.satSolve (e:=e) hans rfl
    have hkept := satSolve_kept s.drop e
    split_ifs
    · refine hsat.diversify 1 fun _ => ?_
      rw [satSolve_diversifier]
      change (e.diversifier s).Still (s.drop.satSolve e).1.aig
      rw [hkept.aig]
      exact hstill hl
    · exact hsat
  · have hl' := Bool.eq_false_iff.mpr hl
    have hp := sampled_kept Answer.isUnknown as s.drop
    have hr := hp.trans (solveWithSim_kept _ e)
    have hrl := hr.lost.trans hl'
    split_ifs
    · refine ((hr.core hs).recorded hrl _).diversify 1 fun h1 => ?_
      exact absurd (h1.symm.trans hrl) (by simp)
    · exact (hr.core hs).recorded hrl _
    · exact (hp.core hs).recorded (hp.lost.trans hl') _

theorem satSolve_cases (s : Bb) (e : Env) :
    (∃ v, e.answer = .sat v ∧ s.satSolve e = ({ s with satVal := v, modelInSat := true },.sat v)) ∨
      (e.answer.isSat = false ∧ s.satSolve e = ({ s with modelInSat := false },e.answer)) := by
  unfold Bb.satSolve
  cases ha : e.answer with
  | sat v => exact .inl ⟨v,rfl,rfl⟩
  | unsat => exact .inr ⟨rfl,rfl⟩
  | unknown => exact .inr ⟨rfl,rfl⟩

theorem Bb.Core.plainSolve (h : s.Core)
    (hans : ∀ v, e.answer = .sat v → ∀ a ∈ s.live, s.aig.evalLit v a = true)
    (hstill : s.lost = true → (e.diversifier s).Still s.aig) : (s.plainSolve e).Sound := by
  unfold Bb.plainSolve
  rcases satSolve_cases s e with ⟨v,hv,hs⟩ | ⟨hr,hs⟩
  · rw [hs,if_pos (show (Answer.sat v).isSat = true from rfl)]
    refine Bb.Sound.diversify ?_ 1 hstill
    refine Bb.Core.answered ?_ (hans v hv) rfl fun _ => rfl
    exact h.of_eq rfl rfl rfl
  · rw [hs,if_neg (by rw [hr]; simp)]
    refine Bb.Core.refused ?_ hr
    exact h.of_eq rfl rfl rfl

theorem Bb.Core.sampleSolve (h : s.Core) (seed : BitVec 64)
    (hans : ∀ v, e.answer = .sat v → ∀ a ∈ s.live, s.aig.evalLit v a = true)
    (hstill : s.lost = true →
      (e.diversifier (s.setSeed (if seed = 0#64 then 1#64 else seed))).Still s.aig) :
    (s.sampleSolve e seed).Sound := by
  unfold Bb.sampleSolve
  rcases satSolve_cases s e with ⟨v,hv,hs⟩ | ⟨hr,hs⟩
  · rw [hs,if_pos (show (Answer.sat v).isSat = true from rfl)]
    refine Bb.Sound.diversify ?_ diversifySweepCount hstill
    refine Bb.Core.answered ?_ (hans v hv) rfl fun _ => rfl
    exact h.of_eq rfl rfl rfl
  · rw [hs,if_neg (by rw [hr]; simp)]
    refine Bb.Core.refused ?_ hr
    exact h.of_eq rfl rfl rfl

theorem Bb.Sound.sameBase (h : s.Sound) (seed : BitVec 64)
    (hstill : s.lost = true → (e.diversifier (s.setSeed seed)).Still s.aig) :
    (s.sameBase e seed).Sound := by
  unfold Bb.sameBase
  split_ifs with hin hnone
  · refine Bb.Sound.diversify ?_ 1 hstill
    refine ⟨h.of_eq rfl rfl rfl,fun as v hs => ?_⟩
    have hst := h.stands as v hs
    exact ⟨hst.lost,hst.live,hst.holds,hst.inSat hin,hst.inSat⟩
  · exact h
  · refine Bb.Sound.diversify ?_ 1 hstill
    exact h.alike ⟨rfl,rfl,rfl,rfl,rfl,rfl,rfl,rfl⟩

theorem Bb.Core.installWorkerModel (h : s.Core) {v : ℕ → Bool}
    (hv : ∀ a ∈ s.live, s.aig.evalLit v a = true) : (s.installWorkerModel v).Sound := by
  refine Bb.Core.answered ?_ hv rfl fun h1 => absurd h1 (by simp)
  exact h.of_eq rfl rfl rfl

theorem Bb.Sound.freshBase (h : s.Sound) (seed : BitVec 64)
    (hans : ∀ v, e.satFresh = .sat v → ∀ a ∈ s.live, s.aig.evalLit v a = true)
    (hstill : s.lost = true → (e.diversifier (s.setSeed seed)).Still s.aig) :
    (s.freshBase e seed).1.Sound := by
  have hseed : (s.setSeed seed).Sound := h.alike ⟨rfl,rfl,rfl,rfl,rfl,rfl,rfl,rfl⟩
  unfold Bb.freshBase
  dsimp only
  by_cases hl : s.lost = true
  · rw [sampled_lost (fun a => !a.isSat) _ (s:=s.setSeed seed) hl rfl]
    have hsim : ((s.setSeed seed).baseSim && !(s.setSeed seed).lost) = false := by
      change (s.baseSim && !s.lost) = false
      simp [hl]
    rw [if_neg (by simp [Answer.isSat]),hsim,if_neg (by simp)]
    dsimp only
    split
    · rename_i v hv
      split_ifs at hv with hr
      refine Bb.Sound.diversify ?_ 1 hstill
      refine Bb.Core.installWorkerModel ?_ (hans v hv)
      exact h.of_eq rfl rfl rfl
    · exact hseed
  · have hl' := Bool.eq_false_iff.mpr hl
    have hany : ∀ t : Bb, t.Sound → t.lost = false → (t.diversify e 1).Sound := fun t ht htl =>
      ht.diversify 1 fun h1 => absurd (h1.symm.trans htl) (by simp)
    generalize hp : (s.setSeed seed).sampled (fun a => !a.isSat) _ = p
    have hkept : (s.setSeed seed).Kept p.1 := hp ▸ sampled_kept _ _ _
    by_cases hsat : p.2.isSat = true
    · rw [if_pos hsat]
      refine Bb.Core.recorded ?_ ?_ _
      · exact (hkept.core hseed.toCore).of_eq rfl rfl rfl
      · exact hkept.lost.trans hl'
    rw [if_neg hsat]
    split
    · rename_i v _
      have hsound : (Bb.verdict { (s.setSeed seed).install v with redivs := 0 } (.sat v)).Sound := by
        refine Bb.Core.recorded ?_ ?_ _
        · exact h.of_eq rfl rfl rfl
        · exact hl'
      split_ifs
      · exact hsound
      · exact hany _ hsound hl'
    · split
      · rename_i v _
        have hsound : (Bb.installWorkerModel { s.setSeed seed with redivs := 0 } v).Sound := by
          refine Bb.Core.recorded ?_ ?_ _
          · exact h.of_eq rfl rfl rfl
          · exact hl'
        exact hany _ hsound hl'
      · exact hseed

theorem freshBase_none {seed : BitVec 64} (h : (s.freshBase e seed).2 = false) :
    (s.freshBase e seed).1 = s.setSeed seed := by
  unfold Bb.freshBase at h ⊢
  dsimp only at h ⊢
  generalize (s.setSeed seed).sampled (fun a => !a.isSat) _ = p at h ⊢
  by_cases hsat : p.2.isSat = true
  · rw [if_pos hsat] at h
    exact absurd h (by simp)
  rw [if_neg hsat] at h ⊢
  split at h
  · exact absurd h (by simp)
  · split at h
    · exact absurd h (by simp)
    · rfl

theorem Bb.Sound.sameAfter (h : s.Sound) (seed : BitVec 64)
    (hstill : s.lost = true → (e.diversifier (s.setSeed seed)).Still s.aig)
    (hans : ∀ v, e.satFresh = .sat v → ∀ a ∈ s.live, s.aig.evalLit v a = true) :
    (if (s.freshBase e seed).2 then (s.freshBase e seed).1
      else (s.freshBase e seed).1.sameBase e seed).Sound := by
  by_cases hb : (s.freshBase e seed).2 = true
  · rw [if_pos hb]
    exact h.freshBase seed hans hstill
  · rw [if_neg hb,freshBase_none (Bool.eq_false_iff.mpr hb)]
    refine Bb.Sound.sameBase ?_ seed hstill
    exact h.alike ⟨rfl,rfl,rfl,rfl,rfl,rfl,rfl,rfl⟩

theorem Bb.Sound.rediversify (h : s.Sound) (seed : BitVec 64)
    (hstill : s.lost = true → (e.diversifier (s.setSeed seed)).Still s.aig)
    (hans : s.frames = [] → ∀ v, e.satFresh = .sat v → ∀ a ∈ s.live, s.aig.evalLit v a = true) :
    (s.rediversify e seed).Sound := by
  have hnext : Bb.Sound { s with redivs := s.redivs+1 } :=
    h.alike ⟨rfl,rfl,rfl,rfl,rfl,rfl,rfl,rfl⟩
  unfold Bb.rediversify
  by_cases h1 : (!s.lastSat) = true
  · rw [if_pos h1]
    exact h
  rw [if_neg h1]
  dsimp only
  by_cases hf : s.frames = []
  · split_ifs
    · exact hnext.freshBase seed (hans hf) hstill
    · rename_i hb
      have := hnext.sameAfter seed hstill (hans hf)
      rw [if_neg hb] at this
      exact this
    · exact hnext.sameBase seed hstill
  · rw [if_neg fun h2 => hf h2.2.1]
    exact hnext.sameBase seed hstill

theorem Bb.Sound.resampled (h : s.Sound) (seed : BitVec 64)
    (hstill : s.lost = true → (e.diversifier (s.setSeed seed)).Still s.aig)
    (hans : s.frames = [] → ∀ v, e.satFresh = .sat v → ∀ a ∈ s.live, s.aig.evalLit v a = true) :
    (s.resampled e seed).Sound := by
  unfold Bb.resampled
  by_cases h1 : (!s.lastSat) = true
  · rw [if_pos h1]
    exact h
  rw [if_neg h1]
  by_cases h2 : s.frames ≠ [] ∨ seed = 0#64
  · rw [if_pos h2]
    exact h.rediversify seed hstill hans
  · rw [if_neg h2]
    exact h.sameAfter seed hstill (hans (by simpa using (not_or.mp h2).1))

theorem Bb.Sound.sessPop (h : s.Sound) : s.sessPop.Sound := by
  unfold Bb.sessPop
  split
  · exact h
  · refine Bb.Core.sound ⟨h.wf,fun c hc => h.valid c (List.mem_of_mem_filter hc),fun c hc => ?_⟩ rfl
    have hlt := of_decide_eq_true (List.mem_filter.mp hc).2
    change c.1 ≤ s.frames.dropLast.length
    rw [List.length_dropLast]
    omega

theorem Bb.Sound.built (h : s.Sound) (he : e.Honest s c) : (s.built e c).Sound := by
  have henc : (s.encode e).Sound := h.encode he.wf he.extends_ he.valid
  have hgrown := h.grown he.wf he.extends_
  cases c with
  | check | prepare | assert => exact henc
  | sample =>
    unfold Bb.built
    dsimp only
    split_ifs
    · exact hgrown
    · exact henc
  | sessAdd =>
    unfold Bb.built
    dsimp only
    split_ifs
    · exact henc
    · exact h
  | sessPush =>
    unfold Bb.built
    dsimp only
    split_ifs
    · exact hgrown
    · exact h
  | _ => exact h

theorem assertAll_frames (as : List Asserted) (s : Bb) :
    (as.foldl Bb.assertTop s).frames = s.frames := by
  induction as generalizing s with
  | nil => rfl
  | cons a as ih => rw [List.foldl_cons,ih,(assertTop_clauses s a).2.2.1]

theorem built_frames (s : Bb) (e : Env) (c : Entry) : (s.built e c).frames = s.frames := by
  have henc : (s.encode e).frames = s.frames := by
    unfold Bb.encode
    split_ifs
    · exact assertAll_frames _ _
    · exact assertAll_frames _ _
  cases c with
  | check | prepare | assert => exact henc
  | sample =>
    unfold Bb.built
    dsimp only
    split_ifs
    · rfl
    · exact henc
  | sessAdd =>
    unfold Bb.built
    dsimp only
    split_ifs
    · exact henc
    · rfl
  | sessPush =>
    unfold Bb.built
    split_ifs <;> rfl
  | _ => rfl

theorem Bb.Core.held_false (h : s.Core) (hf : s.frames = []) : s.held false = s.live := by
  unfold Bb.held Bb.live
  rw [List.filter_eq_self.mpr fun c hc => ?_]
  have := h.scopes c hc
  rw [hf] at this
  simpa using this

theorem held_true (s : Bb) : s.held true = s.live := by
  have hall : (s.clauses.filter fun c => true || c.1 == 0) = s.clauses :=
    List.filter_eq_self.mpr fun _ _ => rfl
  rw [Bb.held,Bb.live,hall]

theorem Bb.Sound.run (h : s.Sound) (he : e.Honest s c) (hc : e.Calm s c) : (s.run e c).Sound := by
  have hb := h.built he
  have hfr := built_frames s e c
  have hans : ∀ v, e.answer = .sat v →
      ∀ a ∈ (s.built e c).live, (s.built e c).aig.evalLit v a = true := by
    intro v hv
    have hx := he.answer v hv
    cases hu : c.unscoped with
    | true =>
      rw [hu,Bool.not_true,hb.held_false (hfr.trans (hc.scopes hu))] at hx
      exact hx
    | false =>
      rw [hu,Bool.not_false,held_true] at hx
      exact hx
  have hfresh : (s.built e c).frames = [] → ∀ v, e.satFresh = .sat v →
      ∀ a ∈ (s.built e c).live, (s.built e c).aig.evalLit v a = true := by
    intro hf v hv
    have hx := he.satFresh v hv
    rw [hb.held_false hf] at hx
    exact hx
  have hport : (s.built e c).frames = [] → ∀ v, e.portfolio = some (.sat v) →
      ∀ a ∈ (s.built e c).live, (s.built e c).aig.evalLit v a = true := by
    intro hf v hv
    have hx := he.portfolio v hv
    rw [hb.held_false hf] at hx
    exact hx
  have hstill := hc.still
  have hscopes := hc.scopes
  unfold Bb.run
  cases c with
  | check seed =>
    dsimp only
    by_cases hr : (!e.ready) = true
    · rw [if_pos hr]
      exact hb.alike ⟨rfl,rfl,rfl,rfl,rfl,rfl,rfl,rfl⟩
    rw [if_neg hr]
    split
    · rename_i v hv
      refine Bb.Core.installWorkerModel ?_ (hport (hfr.trans (hscopes rfl)) v hv)
      exact hb.of_eq rfl rfl rfl
    · rename_i r hno hp
      refine Bb.Core.refused ?_ ?_
      · exact hb.of_eq rfl rfl rfl
      · cases r with
        | sat v => exact absurd rfl (hno v)
        | unsat => rfl
        | unknown => rfl
    · refine Bb.Core.search ?_ ?_ ?_ _
      · exact hb.of_eq rfl rfl rfl
      · exact hans
      · exact fun hl => hstill hl seed rfl
  | prepare seed => exact hb.alike ⟨rfl,rfl,rfl,rfl,rfl,rfl,rfl,rfl⟩
  | assert => exact hb
  | resolve seed =>
    refine Bb.Core.plainSolve ?_ hans fun hl => hstill hl seed rfl
    exact hb.of_eq rfl rfl rfl
  | resolveRaw =>
    refine Bb.Core.satSolve ?_ hans rfl
    exact hb.of_eq rfl rfl rfl
  | solveAssuming => exact hb.plainSolve hans fun hl => hstill hl s.seed rfl
  | sample seed =>
    dsimp only
    by_cases hsr : s.sampleReady = true
    · rw [if_pos hsr,if_neg (by simp [hsr])]
      split_ifs
      · exact hb.alike ⟨rfl,rfl,rfl,rfl,rfl,rfl,rfl,rfl⟩
      · refine Bb.Core.sampleSolve ?_ seed ?_ ?_
        · exact hb.of_eq rfl rfl rfl
        · exact hans
        · exact fun hl => hstill hl _ rfl
    · rw [if_neg hsr]
      split_ifs
      · exact hb.alike ⟨rfl,rfl,rfl,rfl,rfl,rfl,rfl,rfl⟩
      · exact hb.alike ⟨rfl,rfl,rfl,rfl,rfl,rfl,rfl,rfl⟩
      · refine Bb.Core.sampleSolve ?_ seed ?_ ?_
        · exact hb.of_eq rfl rfl rfl
        · exact hans
        · exact fun hl => hstill hl _ rfl
  | rediversify seed => exact hb.rediversify seed (fun hl => hstill hl seed rfl) hfresh
  | resample seed => exact hb.resampled seed (fun hl => hstill hl seed rfl) hfresh
  | sessBegin =>
    dsimp only
    split_ifs
    · exact hb
    · exact hb.alike ⟨rfl,rfl,rfl,rfl,rfl,rfl,rfl,rfl⟩
  | sessPush =>
    dsimp only
    split_ifs
    · refine ⟨⟨hb.wf,hb.valid,fun x hx => ?_⟩,fun as v hs => ?_⟩
      · have hle := hb.scopes x hx
        rw [List.length_append]
        exact hle.trans (Nat.le_add_right _ _)
      · obtain ⟨h1,h2,h3,h4,h5⟩ := hb.stands as v hs
        exact ⟨h1,h2,h3,h4,h5⟩
    · exact hb
  | sessPop =>
    dsimp only
    split_ifs
    · exact hb.sessPop
    · exact hb
  | sessAdd => exact hb
  | sessSolve seed =>
    dsimp only
    split_ifs
    · refine Bb.Core.search ?_ ?_ ?_ _
      · exact hb.of_eq rfl rfl rfl
      · exact hans
      · exact fun hl => hstill hl seed rfl
    · exact hb
  | installWorkerModel =>
    dsimp only
    split
    · rename_i v hv
      exact Bb.Core.installWorkerModel hb.toCore (hans v hv)
    · exact hb
  | setDiversify on => exact hb.alike ⟨rfl,rfl,rfl,rfl,rfl,rfl,rfl,rfl⟩
  | setPresim on => exact hb.alike ⟨rfl,rfl,rfl,rfl,rfl,rfl,rfl,rfl⟩
  | setResample on => exact hb.alike ⟨rfl,rfl,rfl,rfl,rfl,rfl,rfl,rfl⟩

/-- The states of a run from a new solver, each step as `P` allows. -/
inductive Bb.Reach (P : Env → Bb → Entry → Prop) : Bb → Prop
  | new {m : Aig} (hm : m.Wf) : Reach P (.new m)
  | step {s : Bb} {e : Env} {c : Entry} (h : Reach P s) (he : e.Honest s c) (hp : P e s c) :
      Reach P (s.run e c)

theorem Bb.Reach.sound (h : Bb.Reach Env.Calm s) : s.Sound := by
  induction h with
  | new hm => exact Bb.Core.sound ⟨hm,by simp [Bb.new],by simp [Bb.new]⟩ rfl
  | step _ he hp ih => exact ih.run he hp

theorem Bb.read_leaf (s : Bb) {free fill : ℕ → Bool} {id : ℕ} (h : free id = false) :
    s.read free fill id = s.nodeVal.getD s.satVal id := by
  unfold Bb.read
  cases s.nodeVal with
  | some nv => rfl
  | none => simp [h]

/-- In a run whose flip-checks turn nothing once an assertion is lost, whatever SAT answer comes
after that stands: what is read back is the model of the SAT search and satisfies every
assertion in force, and no simulation or sampler has a say. -/
theorem lost_answers_stand (h : Bb.Reach Env.Calm s) :
    (∀ as v, s.asked = some (as,v) → as = s.live ∧ ∀ free fill : ℕ → Bool,
      (∀ id, free id = true → ∀ a ∈ s.live, ¬ Cnf.Cone s.aig a.natAbs id) →
      (∀ a ∈ s.live, s.aig.evalLit (s.read free fill) a = true) ∧
        ∀ id, leftOf s.aig id = 0 → 1 ≤ id → free id = false → s.read free fill id = v id) ∧
    (s.lost = true → (∀ e, s.solveWithSim e = s.satSolve e) ∧
      ∀ go as, go .unknown = true → s.sampled go as = (s,.unknown)) := by
  have hs := h.sound
  refine ⟨fun as v hasked => ?_,fun hl => ⟨fun e => solveWithSim_lost e hl,fun go as hgo =>
    sampled_lost go as hl hgo⟩⟩
  have hst := hs.stands as v hasked
  have hread : ∀ free fill : ℕ → Bool, ∀ id, leftOf s.aig id = 0 → 1 ≤ id → free id = false →
      s.read free fill id = v id := by
    intro free fill id hid h1 hf
    rw [s.read_leaf hf]
    exact hst.model id hid h1
  refine ⟨hst.live,fun free fill hfree => ⟨fun a ha => ?_,hread free fill⟩⟩
  obtain ⟨c,hc,hca⟩ := List.mem_map.mp ha
  have hva : s.aig.Valid a := hca ▸ hs.valid c hc
  have heval : s.aig.evalNode (s.read free fill) a.natAbs = s.aig.evalNode v a.natAbs := by
    refine Cnf.evalNode_congr_cone hs.wf a.natAbs hva.2 fun j hj hin => ?_
    obtain ⟨h2,_,hleft⟩ := isInput_spec hin
    have hfj : free j = false := by
      rw [Bool.eq_false_iff]
      exact fun hf => hfree j hf a ha hj
    refine hread free fill j ?_ (by omega) hfj
    by_contra hne
    exact (isAndId_iff.mp (leftOf_and hne).2.2).2.2 hleft
  have hholds := hst.holds a (hst.live ▸ ha)
  rw [evalLit,heval]
  exact hholds

def single : Aig := (Aig.Call.mkInput.run Aig.new).2

/-- The input is asserted and cannot be recorded, or it is solved for, with all ones the SAT
solver's answer; the flip-check has its one bit to turn. -/
def singleEnv (asserted : List Asserted) (vars : List (Option (List ℤ))) : Env :=
  { aig := single, asserted := asserted, ready := true, bits := true, answer := .sat fun _ => true
    samplers := [], enumsamp := .unknown, sim := .unknown, simExact := false, satFresh := .unknown
    portfolio := none, vars := vars, memoOff := false, buffers := true, scratch := true
    listed := true, slotted := true, table := true, junk := fun _ => false }

theorem single_wf : single.Wf := (Aig.Reachable.new.call .mkInput (by decide)).wf

theorem single_eval (ρ : ℕ → Bool) : single.evalLit ρ 2 = ρ 2 := by
  have hin : single.isInput ((2 : ℤ).natAbs : ℕ) = true := by decide
  rw [evalLit,evalNode_isInput ρ hin]
  simp

theorem singleEnv_honest {s : Bb} {c : Entry} {asserted : List Asserted}
    {vars : List (Option (List ℤ))} (hs : s.aig = single)
    (hv : ∀ a ∈ asserted, single.Valid a.lit ∧ a.scope ≤ s.frames.length)
    (haig : (s.built (singleEnv asserted vars) c).aig = single)
    (hheld : (s.built (singleEnv asserted vars) c).held (!c.unscoped) = [2]) :
    (singleEnv asserted vars).Honest s c where
  wf := single_wf
  extends_ := hs ▸ .refl single
  valid := hv
  answer := by
    intro v h x hx
    cases h
    rw [hheld] at hx
    obtain rfl : x = 2 := List.mem_singleton.mp hx
    rw [haig]
    exact single_eval _
  satFresh := nofun
  portfolio := nofun

def singleLost : Bb := (Bb.new single).run (singleEnv [⟨0,2,true,false⟩] []) .assert

/-- Diversification is turned off after the loss. -/
def singleStill : Bb := singleLost.run (singleEnv [] []) (.setDiversify false)

theorem singleEnv_assert : (singleEnv [⟨0,2,true,false⟩] []).Honest (.new single) .assert :=
  singleEnv_honest rfl (by decide) rfl rfl

/-- A solve after the loss, with a variable on the input and diversification off: the input
asserted is read as 1. -/
theorem lost_answers_stand_single :
    let s := singleStill.run (singleEnv [] [some [2]]) (.resolve 5#64)
    s.asked = some ([2],fun _ => true) ∧
      s.aig.evalLit (s.read (fun _ => false) fun _ => false) 2 = true := by
  intro s
  have hlost : Bb.Reach Env.Calm singleLost := by
    refine .step (.new single_wf) singleEnv_assert ⟨fun _ seed hs => ?_,nofun⟩
    simp [Entry.flipSeed] at hs
  have hstill : Bb.Reach Env.Calm singleStill := by
    refine .step hlost (singleEnv_honest rfl (by simp) rfl rfl) ⟨fun _ seed hs => ?_,nofun⟩
    simp [Entry.flipSeed] at hs
  have hreach : Bb.Reach Env.Calm s := by
    refine .step hstill (singleEnv_honest rfl (by simp) rfl rfl) ⟨fun _ seed _ => ?_,fun _ => rfl⟩
    exact .inl (.inr (.inl rfl))
  have hasked : s.asked = some ([2],fun _ => true) := rfl
  refine ⟨hasked,?_⟩
  obtain ⟨hlive,hread⟩ := (lost_answers_stand hreach).1 _ _ hasked
  refine (hread (fun _ => false) (fun _ => false) nofun).1 2 ?_
  rw [← hlive]
  exact List.mem_singleton_self 2

/-- The same solve with diversification on: the flip-check turns it. -/
theorem lost_answer_flipped :
    let s := singleLost.run (singleEnv [] [some [2]]) (.resolve 5#64)
    Bb.Reach (fun _ _ _ => True) s ∧ s.lastSat = true ∧ s.live = [2] ∧
      s.aig.evalLit (s.read (fun _ => false) fun _ => false) 2 = false := by
  intro s
  have hstep : Bb.Reach (fun _ _ _ => True) singleLost :=
    .step (.new single_wf) singleEnv_assert trivial
  refine ⟨.step hstep (singleEnv_honest rfl (by simp) rfl rfl) trivial,rfl,rfl,?_⟩
  exact (single_eval _).trans (by decide)

end Bbsolver
end DvSolve
