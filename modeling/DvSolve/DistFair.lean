import DvSolve.SearchExact

/-! Runs of the search on which it agrees with the bit-blast engine: no step is left with
solutions that all give a variable with a distribution the same value outside its ranges. -/
namespace DvSolve
namespace Dist

open Solver Pick
open List (mem_cons)

variable {p : Problem} {D d d' : Dom} {r x : ℕ} {es : List Entry} {b v y : BitVec 64}
  {S T : (ℕ → BitVec 64) → Prop} {a : ℕ → BitVec 64}

/-- A distribution that meets its declared domain, on a variable merged into `r`. -/
def Governs (p : Problem) (r : ℕ) (es : List Entry) : Prop :=
  ∃ d ∈ p.dists, Overlaps (p.vars d.varId) d.entries ∧ p.resolve d.varId = r ∧ d.entries = es

/-- The solutions in `D` with `S` all give `r` one value, and it is in no range. -/
def Forces (p : Problem) (D : Dom) (r : ℕ) (es : List Entry) (S : (ℕ → BitVec 64) → Prop) : Prop :=
  ∃ a, p.holds a ∧ D.Roots p a ∧ S a ∧ ¬InDist (p.vars r) es (a r) ∧
    ∀ a', p.holds a' → D.Roots p a' → S a' → a' r = a r

/-- The solutions have a variable with a distribution in a range where `D` leaves it one value. -/
def Decided (p : Problem) (D : Dom) : Prop :=
  ∀ r es, Governs p r es → D.Single r → ∀ a, p.holds a → D.Roots p a → InDist (p.vars r) es (a r)

theorem Governs.root (h : Governs p r es) (hp : p.WellFormed) : r < p.nVars ∧ p.resolve r = r := by
  obtain ⟨d,hd,-,rfl,-⟩ := h
  exact ⟨(p.resolve_le _).trans_lt (hp d hd).1,p.resolve_resolve _⟩

theorem distOffsets_isSome (l : List Spec) (t : ℕ → Option (List Entry))
    (h : (t r).isSome ∨ ∃ d ∈ l, p.resolve d.varId = r) :
    (l.foldl (fun t d => Function.update t (p.resolve d.varId) (some d.entries)) t r).isSome := by
  induction l generalizing t with
  | nil => exact h.resolve_right (by simp)
  | cons d l ih =>
    refine ih _ ?_
    dsimp only
    by_cases hr : r = p.resolve d.varId
    · left
      rw [hr,Function.update_self]
      rfl
    · rw [Function.update_of_ne hr]
      refine h.imp_right fun hex => ?_
      obtain ⟨e,he,her⟩ := hex
      rcases mem_cons.mp he with rfl | he
      · exact absurd her.symm hr
      · exact ⟨e,he,her⟩

theorem Governs.offsets (h : Governs p r es) : (p.distOffsets r).isNone = false := by
  obtain ⟨d,hd,-,hr,-⟩ := h
  rw [Option.isNone_eq_false_iff]
  exact distOffsets_isSome _ _ (.inr ⟨d,hd,hr⟩)

structure Cut (p : Problem) (D : Dom) (S : (ℕ → BitVec 64) → Prop) (d : Dom) : Prop where
  within : d.Within p.vars D
  keeps : ∀ {a}, p.holds a → D.Roots p a → S a → d.Roots p a
  only : ∀ {a}, p.holds a → d.Roots p a → S a

theorem Dom.Within.roots (h : d'.Within p.vars d) (ha : d'.Roots p a) : d.Roots p a :=
  fun x hx hr => ⟨(h.le x).1.trans (ha x hx hr).1,(ha x hx hr).2.trans (h.le x).2⟩

namespace Cut

theorem comp (h : Cut p D S d) (h' : Cut p d T d') : Cut p D (fun a => S a ∧ T a) d' where
  within := h'.within.trans h.within
  keeps := fun ha hD hS => h'.keeps ha (h.keeps ha hD hS.1) hS.2
  only := fun ha hd => ⟨h.only ha (h'.within.roots hd),h'.only ha hd⟩

theorem congr (h : Cut p D S d) (hST : ∀ a, S a ↔ T a) : Cut p D T d where
  within := h.within
  keeps := fun ha hD hT => h.keeps ha hD ((hST _).mpr hT)
  only := fun ha hd => (hST _).mp (h.only ha hd)

theorem trans (h : Cut p D S d) (h' : Cut p d (fun _ => True) d') : Cut p D S d' :=
  (h.comp h').congr fun _ => and_iff_left trivial

theorem decided (hp : p.WellFormed) (hD : Decided p D) (h : Cut p D S d)
    (hf : ∀ r es a, Governs p r es → ¬D.Single r → p.holds a → D.Roots p a →
      ¬Forces p D r es S) : Decided p d := by
  intro r es hg hs a ha hda
  have hDa := h.within.roots hda
  by_cases hsD : D.Single r
  · exact hD r es hg hsD a ha hDa
  · by_contra hout
    obtain ⟨hlt,hroot⟩ := hg.root hp
    refine hf r es a hg hsD ha hDa ⟨a,ha,hDa,h.only ha hda,hout,fun a' ha' hDa' hSa' => ?_⟩
    have hb := hda r hlt hroot
    have hb' := h.keeps ha' hDa' hSa' r hlt hroot
    unfold Dom.Single at hs
    rw [← hs] at hb hb'
    exact rank_injective ((hb'.2.trans hb.1).antisymm (hb.2.trans hb'.1))

end Cut

theorem Right.cut {σ : Type*} {E : Engine p σ} {f : σ → Dom → σ × Option Dom} (h : Right E f)
    {s : σ} (hf : (f s d).2 = some d') : Cut p d (fun _ => True) d' where
  within := h.within hf
  keeps := fun ha hd _ x hx hr => h.keeps ha hd hf x hx (hd x hx hr)
  only := fun _ _ => trivial

section Tighten

theorem tightenLb_cut (hx : x < p.nVars) (h : d.tightenLb p.vars x b = some d') :
    Cut p d (fun a => p.resolve x = x → rank (p.vars x) b ≤ rank (p.vars x) (a x)) d' where
  within := (Dom.tightenLb_within h).1
  keeps := by
    intro a _ hd hS
    obtain ⟨rfl,-⟩ | ⟨rfl,-⟩ := Dom.tightenLb_cases h
    · exact hd
    · intro y hy hr
      by_cases hxy : y = x
      · subst hxy
        rw [Function.update_self]
        exact ⟨hS hr,(hd y hy hr).2⟩
      · rw [Function.update_of_ne hxy]
        exact hd y hy hr
  only := fun _ hd hr => (Dom.tightenLb_within h).2.trans (hd x hx hr).1

theorem tightenUb_cut (hx : x < p.nVars) (h : d.tightenUb p.vars x b = some d') :
    Cut p d (fun a => p.resolve x = x → rank (p.vars x) (a x) ≤ rank (p.vars x) b) d' where
  within := (Dom.tightenUb_within h).1
  keeps := by
    intro a _ hd hS
    obtain ⟨rfl,-⟩ | ⟨rfl,-⟩ := Dom.tightenUb_cases h
    · exact hd
    · intro y hy hr
      by_cases hxy : y = x
      · subst hxy
        rw [Function.update_self]
        exact ⟨(hd y hy hr).1,hS hr⟩
      · rw [Function.update_of_ne hxy]
        exact hd y hy hr
  only := fun _ hd hr => (hd x hx hr).2.trans (Dom.tightenUb_within h).2

theorem rank_succ_first {w : Variable} (h : ¬rank w b < rank w (b+1#64)) :
    rank w (b+1#64) ≤ rank w y := by
  by_contra hlt
  have h₁ := rank_eq_add (not_le.mp hlt).le
  have h₂ := rank_eq_add ((not_le.mp hlt).le.trans (not_lt.mp h))
  bv_omega

theorem rank_pred_last {w : Variable} (h : ¬rank w (b-1#64) < rank w b) :
    rank w y ≤ rank w (b-1#64) := by
  by_contra hlt
  have h₁ := rank_eq_add (not_le.mp hlt).le
  have h₂ := rank_eq_add ((not_lt.mp h).trans (not_le.mp hlt).le)
  bv_omega

theorem tightenLb_above (hx : x < p.nVars) (h : d.tightenLb p.vars x (b+1#64) = some d') : d' = d ∨
    Cut p d (fun a => p.resolve x = x → rank (p.vars x) b < rank (p.vars x) (a x)) d' := by
  by_cases hlt : rank (p.vars x) b < rank (p.vars x) (b+1#64)
  · exact .inr ((tightenLb_cut hx h).congr fun a =>
      imp_congr_right fun _ => ⟨hlt.trans_le,rank_succ⟩)
  · obtain ⟨heq,-⟩ | ⟨-,hlo,-⟩ := Dom.tightenLb_cases h
    · exact .inl heq
    · exact absurd (rank_succ_first hlt) (not_le.mpr hlo)

theorem tightenUb_below (hx : x < p.nVars) (h : d.tightenUb p.vars x (b-1#64) = some d') : d' = d ∨
    Cut p d (fun a => p.resolve x = x → rank (p.vars x) (a x) < rank (p.vars x) b) d' := by
  by_cases hlt : rank (p.vars x) (b-1#64) < rank (p.vars x) b
  · exact .inr ((tightenUb_cut hx h).congr fun a =>
      imp_congr_right fun _ => ⟨fun h => h.trans_lt hlt,rank_pred⟩)
  · obtain ⟨heq,-⟩ | ⟨-,hhi,-⟩ := Dom.tightenUb_cases h
    · exact .inl heq
    · exact absurd (rank_pred_last hlt) (not_le.mpr hhi)

def Bound.Leaves (w : Variable) (v y : BitVec 64) : Bound → Prop
  | .value => y = v
  | .upper => rank w y ≤ rank w v
  | .lower => rank w v ≤ rank w y

theorem assign_cut {bd : Bound} (hx : x < p.nVars) (h : Search.assign p.vars d x v bd = some d') :
    Cut p d (fun a => p.resolve x = x → bd.Leaves (p.vars x) v (a x)) d' := by
  cases bd with
  | upper => exact tightenUb_cut hx h
  | lower => exact tightenLb_cut hx h
  | value =>
    obtain ⟨d₁,h₁,h₂⟩ := Option.bind_eq_some_iff.mp h
    refine ((tightenLb_cut hx h₁).comp (tightenUb_cut hx h₂)).congr fun a => ?_
    constructor
    · exact fun hS hr => rank_injective ((hS.2 hr).antisymm (hS.1 hr))
    · intro hS
      constructor <;> intro hr
      · exact (congrArg (rank (p.vars x)) (hS hr)).ge
      · exact (congrArg (rank (p.vars x)) (hS hr)).le

end Tighten

def Level.Side (p : Problem) (l : Level) (up : Bool) (a : ℕ → BitVec 64) : Prop :=
  let rk := rank (p.vars l.decision.varId)
  if up then rk l.decision.tried < rk (a l.decision.varId)
  else rk (a l.decision.varId) < rk l.decision.tried

def Level.Rest (p : Problem) (l : Level) (up : Bool) (a : ℕ → BitVec 64) : Prop :=
  p.resolve l.decision.varId = l.decision.varId → l.Left p a ∧ l.Side p up a

namespace Search

variable {σ : Type*} {E : Engine p σ} {o : Opts} {s : Search σ}

theorem bisect_split (up second counted : Bool) :
    (bisect o p s ⟨x,v,true,up,second,.value⟩ counted).2 = if second then none
      else if up then s.dom.tightenUb p.vars x (v-1#64) else s.dom.tightenLb p.vars x (v+1#64) := by
  unfold bisect
  cases second <;> cases up <;> simp only [if_true,Bool.false_eq_true,if_false]

theorem bisect_cut {l : Level} (hx : l.decision.varId < p.nVars) (hdom : s.dom = l.saved)
    (ht : l.decision.bound = .value → l.decision.isSplit = false →
      p.resolve l.decision.varId = l.decision.varId → Pick.Between (p.vars l.decision.varId)
        (l.saved l.decision.varId).1 (l.saved l.decision.varId).2 l.decision.tried)
    {counted : Bool} (h : (bisect o p s l.decision counted).2 = some d') :
    d' = l.saved ∨ ∃ up, Cut p l.saved (l.Rest p up) d' := by
  obtain ⟨⟨y,v,split,upper,second,bound⟩,d⟩ := l
  have habove : ∀ {c}, d.tightenLb p.vars y (c+1#64) = some d' →
      (∀ a, p.resolve y = y → (rank (p.vars y) c < rank (p.vars y) (a y) ↔
        Level.Left p ⟨⟨y,v,split,upper,second,bound⟩,d⟩ a ∧ rank (p.vars y) v < rank (p.vars y) (a y))) →
      d' = d ∨ ∃ up, Cut p d (Level.Rest p ⟨⟨y,v,split,upper,second,bound⟩,d⟩ up) d' :=
    fun hb hiff => (tightenLb_above hx hb).imp_right fun hc =>
      ⟨true,hc.congr fun a => by simpa [Level.Rest,Level.Side] using forall_congr' (hiff a)⟩
  have hbelow : ∀ {c}, d.tightenUb p.vars y (c-1#64) = some d' →
      (∀ a, p.resolve y = y → (rank (p.vars y) (a y) < rank (p.vars y) c ↔
        Level.Left p ⟨⟨y,v,split,upper,second,bound⟩,d⟩ a ∧ rank (p.vars y) (a y) < rank (p.vars y) v)) →
      d' = d ∨ ∃ up, Cut p d (Level.Rest p ⟨⟨y,v,split,upper,second,bound⟩,d⟩ up) d' :=
    fun hb hiff => (tightenUb_below hx hb).imp_right fun hc =>
      ⟨false,hc.congr fun a => by simpa [Level.Rest,Level.Side] using forall_congr' (hiff a)⟩
  dsimp only at hdom ht
  cases bound with
  | upper => exact habove (hdom ▸ h) fun a _ => (and_self_iff).symm
  | lower => exact hbelow (hdom ▸ h) fun a _ => (and_self_iff).symm
  | value =>
    cases split with
    | true =>
      rw [bisect_split,hdom] at h
      cases second with
      | true => cases h
      | false =>
        cases upper with
        | true => exact hbelow h fun a _ => by simp [Level.Left]
        | false => exact habove h fun a _ => by simp [Level.Left]
    | false =>
      have hne : ∀ a : ℕ → BitVec 64, Level.Left p ⟨⟨y,v,false,upper,second,.value⟩,d⟩ a ↔ a y ≠ v :=
        fun a => by simp [Level.Left]
      have hup : ∀ a : ℕ → BitVec 64, rank (p.vars y) v < rank (p.vars y) (a y) → a y ≠ v :=
        fun a h heq => (heq ▸ h).ne rfl
      have hdown : ∀ a : ℕ → BitVec 64, rank (p.vars y) (a y) < rank (p.vars y) v → a y ≠ v :=
        fun a h heq => (heq ▸ h).ne rfl
      unfold bisect at h
      simp only [hdom,Bool.false_eq_true,if_false] at h
      split_ifs at h with _ hlow hhigh hagain hside
      · rw [Bool.not_eq_true',varBGt_eq_false] at hlow
        refine habove h fun a hr => ?_
        rw [hne,(ht rfl rfl hr).1.antisymm hlow]
        exact ⟨fun h => ⟨hup a h,h⟩,And.right⟩
      · rw [Bool.not_eq_true',varBLt_eq_false] at hhigh
        refine hbelow h fun a hr => ?_
        rw [hne,hhigh.antisymm (ht rfl rfl hr).2]
        exact ⟨fun h => ⟨hdown a h,h⟩,And.right⟩
      · exact .inl (Option.some.inj h).symm
      · exact habove h fun a _ => by
          rw [hne]
          exact ⟨fun h => ⟨hup a h,h⟩,And.right⟩
      · exact hbelow h fun a _ => by
          rw [hne]
          exact ⟨fun h => ⟨hdown a h,h⟩,And.right⟩

/-- The draw is made from the distribution `es`: the table keeps it, a range with a weight meets
the domain, and neither the saved phase nor a hole takes the value out of the ranges. -/
structure Drawn (E : Engine p σ) (o : Opts) (s : Search σ) (x : ℕ) (es : List Entry) : Prop where
  kept : p.distOffsets x = some es
  phase : o.usePhaseSave = true ∧ o.seed = 0#64 ∧ feasible E s x (s.phase x) = true →
    InDist (p.vars x) es (s.phase x)
  holes : ∀ v ∈ E.holes s.eng x, ¬InDist (p.vars x) es v
  meets : totalWeight (p.vars x) (s.dom x).1 (s.dom x).2 es ≠ 0#64
  closed : tierOpen E s.dom = false

theorem pickValue_inDist (h : Drawn E o s x es)
    (hkeep : ∀ w, s.keep x = .set w → InDist (p.vars x) es w) :
    InDist (p.vars x) es (pickValue E o s x).1 := by
  have hnew : InDist (p.vars x) es (newDraw E s x).1 := by
    have hin := pickValueDist_inDist s.rng h.meets
    have hhole : (pickValueDist (p.vars x) es s.rng (s.dom x).1 (s.dom x).2).1 ∉ E.holes s.eng x :=
      fun hmem => h.holes _ hmem hin
    simp only [newDraw,h.kept,pickAvoidingHoles,hhole,not_false_eq_true,if_true]
    exact hin
  unfold pickValue
  split_ifs with hphase
  · exact h.phase hphase
  · split
    case h_1 w hon hset =>
      split_ifs
      · exact hkeep w hset
      · exact hnew
    case h_2 => exact hnew

/-- The decision on `x` is to a value: clause learning has not met the variable, too few
values have failed, or few are left. -/
def ValueDecision (E : Engine p σ) (o : Opts) (s : Search σ) (x : ℕ) : Prop :=
  E.active s.eng x = false ∨ (o.seed ≠ 0#64 ∧ s.fails x < boundDecisionTries) ∨
    (s.dom x).2-(s.dom x).1 ≤ boundDecisionMin

theorem boundDecision_value {s' : Search σ} (hf : Frame s s') (v : BitVec 64) :
    (boundDecision E o s' x v).1 = .value ↔ ValueDecision E o s x := by
  unfold boundDecision ValueDecision
  rw [hf.eng,hf.fails,hf.dom]
  split_ifs with h₁ h₂ h₃ h₄ h₅
  · exact iff_of_true rfl (.inl (by simpa using h₁))
  · exact iff_of_true rfl (.inr (.inl h₂))
  · exact iff_of_true rfl (.inr (.inr h₃))
  all_goals
    refine iff_of_false ?_ fun hval => ?_
    · first
      | exact id
      | generalize splitUpperFirst o s'.rng (s.dom x).1 v (s.dom x).2 = u
        obtain ⟨up,rng⟩ := u
        cases up <;> exact Bound.noConfusion
    · rcases hval with h | h | h
      · exact h₁ (by simp [h])
      · exact h₂ h
      · exact h₃ h

/-- Before a step no solution of a kind is left alone with a value out of the ranges: `loose`
is of the domains there are, `decided` of what a decision leaves, `undone` of what is left when
the last decision is taken back. -/
structure Fair (E : Engine p σ) (o : Opts) (s : Search σ) : Prop where
  tier : s.pc = .root ∨ s.pc = .decide → ∀ r es, Governs p r es → E.boxSkip r = true →
    ∀ a, p.holds a → s.dom.Roots p a → InDist (p.vars r) es (a r)
  loose : s.pc = .root ∨ s.pc = .decide → ∀ r es, Governs p r es → ¬s.dom.Single r →
    ¬Forces p s.dom r es fun _ => True
  drawn : ∀ r es, Governs p r es → Decides E s r → Drawn E o s r es
  decided : ∀ r es x v, ∀ bd : Bound, Governs p r es → ¬s.dom.Single r → Decides E s x →
    (x = r → InDist (p.vars r) es v) → (bd = .value ↔ ValueDecision E o s x) →
    ¬Forces p s.dom r es fun a => p.resolve x = x → bd.Leaves (p.vars x) v (a x)
  undone : ∀ fresh l ls, s.pc = .conflict fresh → s.levels = l :: ls →
    (E.analyze s.eng s.levels.length).2 = none → ∀ r es, Governs p r es → ¬l.saved.Single r →
    ∀ up, ¬Forces p l.saved r es (l.Rest p up)

structure Level.Kept (p : Problem) (l : Level) : Prop where
  lt : l.decision.varId < p.nVars
  decided : Decided p l.saved
  loose : ∀ r es, Governs p r es → ¬l.saved.Single r → ¬Forces p l.saved r es fun _ => True
  tried : l.decision.bound = .value → l.decision.isSplit = false →
    p.resolve l.decision.varId = l.decision.varId → ∀ a, p.holds a → l.saved.Roots p a →
      Pick.Between (p.vars l.decision.varId) (l.saved l.decision.varId).1 (l.saved l.decision.varId).2
        l.decision.tried

structure Good (p : Problem) (s : Search σ) : Prop where
  dom : Decided p s.dom
  levels : ∀ l ∈ s.levels, Level.Kept p l
  keep : ∀ r es, Governs p r es → ∀ w, s.keep r = .set w → InDist (p.vars r) es w

theorem Good.of_keeps {s' : Search σ} (h : Good p s) (hk : Keeps s s') (hdom : Decided p s'.dom) :
    Good p s' where
  dom := hdom
  levels := by
    intro l hl
    rcases hk.levels l hl with hl | ⟨l',hl',hsaved,hvar,hsplit⟩
    · exact h.levels l hl
    · have h' := h.levels l' hl'
      exact ⟨hvar ▸ h'.lt,hsaved ▸ h'.decided,hsaved ▸ h'.loose,fun _ hs =>
        Bool.noConfusion (hs.symm.trans hsplit)⟩
  keep := fun r es hg w hw => h.keep r es hg w (hk.keep _ w hw)

theorem tier_decided (hE : Sound E) (hp : p.WellFormed) {b : Bool} {t : Search σ}
    (hd : Decided p t.dom) (ht : ∀ r es, Governs p r es → E.boxSkip r = true →
      ∀ a, p.holds a → t.dom.Roots p a → InDist (p.vars r) es (a r))
    (h : (trySample E o b t).2 = .solution d) : Decided p d := by
  unfold trySample at h
  split_ifs at h with hopen
  have hall := List.all_eq_true.mp hopen.2.2.2
  have hw := (hE.solution h).2
  intro r es hg hs a ha hda
  obtain ⟨hlt,hroot⟩ := hg.root hp
  have hr := hall r (List.mem_range.mpr hlt)
  simp only [hroot,hg.offsets,bne_self_eq_false,Bool.false_or,Bool.or_false,Bool.or_eq_true,
    decide_eq_true_eq] at hr
  rcases hr with hsingle | hbox
  · exact hd r es hg hsingle a ha (hw.roots hda)
  · exact ht r es hg hbox a ha (hw.roots hda)

theorem rootStep_decided (hE : Sound E) (hp : p.WellFormed) (h : Good p s) (hf : Fair E o s)
    (hpc : s.pc = .root) : Decided p (rootStep E o s).dom := by
  have hcut : ∀ {d}, Cut p s.dom (fun _ => True) d → Decided p d := fun hc =>
    hc.decided hp h.dom fun r es _ hg hns _ _ => hf.loose (.inl hpc) r es hg hns
  have htier : ∀ t : Search σ, Cut p s.dom (fun _ => True) t.dom →
      Decided p (tierResult (trySample E o false t)).dom := by
    intro t hc
    have hdom := (trySample_quiet E o false t).2
    have hsol := fun d => tier_decided (d:=d) (b:=false) (t:=t) (o:=o) hE hp (hcut hc)
      fun r es hg hb a ha hd => hf.tier (.inl hpc) r es hg hb a ha (hc.within.roots hd)
    generalize trySample E o false t = q at hdom hsol
    obtain ⟨t',res⟩ := q
    cases res with
    | solution d => exact hsol d rfl
    | unsat => exact hdom.symm ▸ hcut hc
    | none => exact hdom.symm ▸ hcut hc
  unfold rootStep
  extract_lets q
  split
  case h_1 => exact h.dom
  case h_2 d hd =>
    have hc := hE.propagate.cut hd
    split_ifs
    · exact hcut hc
    · unfold shaveStep
      extract_lets q'
      split_ifs
      · exact hcut hc
      · split
        case h_1 => exact hcut hc
        case h_2 d' hd' =>
          refine htier _ ?_
          unfold q' at hd'
          split_ifs at hd'
          · exact hc.trans (hE.shave.cut hd')
          · exact Option.some.inj hd' ▸ hc

theorem decideVar_good (hE : Sound E) (hp : p.WellFormed) (h : Good p s) (hf : Fair E o s)
    (hdec : Decides E s x) {t : Search σ} (hdom : t.dom = s.dom) (hlevels : t.levels = s.levels)
    (hkeep : t.keep = s.keep) (hsame : tierOpen E s.dom = false → ∃ rng, t = { s with rng := rng }) :
    Good p (decideVar E o t x) := by
  have hx := hE.select hdec.2.2
  have hspec := decideVar_spec E o t x
  have hframe := pickValue_frame E o t x
  have hpick : ∀ es, Governs p x es → InDist (p.vars x) es (pickValue E o t x).1 := by
    intro es hg
    have hd := hf.drawn x es hg hdec
    obtain ⟨rng,rfl⟩ := hsame hd.closed
    exact pickValue_inDist ⟨hd.kept,hd.phase,hd.holes,hd.meets,hd.closed⟩ (h.keep x es hg)
  refine ⟨?_,fun l hl => ?_,fun r es hg w hw => ?_⟩
  · rcases hspec.dom with heq | ⟨d,hassign,hprop⟩
    · rw [heq,hframe.dom,hdom]
      exact h.dom
    · rw [hframe.dom,hdom] at hassign
      refine ((assign_cut hx hassign).trans (hE.propagate.cut hprop)).decided hp h.dom
        fun r es a hg hns ha hD hforces => ?_
      by_cases hbox : E.boxSkip r = true
      · obtain ⟨a',ha',hD',-,hout,-⟩ := hforces
        exact hout (hf.tier (.inr hdec.1) r es hg hbox a' ha' hD')
      · have hclosed : tierOpen E s.dom = false := by
          obtain ⟨hlt,hroot⟩ := hg.root hp
          rw [Bool.eq_false_iff]
          intro hopen
          have hr := List.all_eq_true.mp hopen r (List.mem_range.mpr hlt)
          simp [hroot,hg.offsets,hns,hbox] at hr
        obtain ⟨rng,rfl⟩ := hsame hclosed
        refine hf.decided r es x _ _ hg hns hdec (fun hxr => hxr ▸ hpick es (hxr ▸ hg)) ?_ hforces
        exact boundDecision_value (s:={ s with rng := rng }) hframe _
  · rcases hspec.levels l hl with rfl | hl
    · rw [hframe.dom,hdom]
      refine ⟨hx,h.dom,hf.loose (.inr hdec.1),fun _ _ hroot a ha hD => ?_⟩
      have hb := hD x hx hroot
      rw [← hdom]
      exact pickValue_between hE (hdom.symm ▸ hb.1.trans hb.2)
    · rw [hframe.levels,hlevels] at hl
      exact h.levels l hl
  · rcases pickValue_keep (hspec.keep _ _ hw) with hw | ⟨rfl,rfl⟩
    · rw [hkeep] at hw
      exact h.keep r es hg w hw
    · exact hpick es hg

theorem decideStep_good (hE : Sound E) (hp : p.WellFormed) (h : Good p s) (hf : Fair E o s)
    (hpc : s.pc = .decide) : Good p (decideStep E o s) := by
  unfold decideStep
  split_ifs with hstop
  · exact h.of_keeps (Quiet.keeps ⟨rfl,rfl⟩) h.dom
  · extract_lets q t r
    split
    case h_1 => exact h.of_keeps (Quiet.keeps ⟨rfl,rfl⟩) h.dom
    case h_2 x hx =>
      obtain ⟨hquiet,hdom⟩ := trySample_quiet E o true t
      split
      case h_1 d hd =>
        refine h.of_keeps (Quiet.keeps ⟨hquiet.keep,hquiet.levels⟩) ?_
        exact tier_decided (t:=t) hE hp h.dom (hf.tier (.inr hpc)) hd
      case h_2 =>
        refine decideVar_good hE hp h hf ⟨hpc,by simpa using hstop,hx⟩ hdom hquiet.levels hquiet.keep
          fun hclosed => ⟨q.2,?_⟩
        exact congrArg Prod.fst (trySample_closed (s:=t) (o:=o) (b:=true) hclosed)

theorem Level.Kept.call {l : Level} (hp : p.WellFormed) (h : Level.Kept p l)
    {f : σ → Dom → σ × Option Dom} (hf : Right E f) {eng : σ} (hd : (f eng l.saved).2 = some d) :
    Decided p d :=
  (hf.cut hd).decided hp h.decided fun r es _ hg hns _ _ => h.loose r es hg hns

theorem backtrack_saved {n : ℕ} (hn : n < s.levels.length) :
    ∃ l ∈ s.levels, (backtrack E s n).dom = l.saved := by
  have hlen : (s.levels.drop (s.levels.length-n-1)).length = n+1 := by
    rw [List.length_drop]
    omega
  unfold backtrack
  split
  case h_1 hnil =>
    rw [hnil] at hlen
    cases hlen
  case h_2 l rest hdrop =>
    rw [if_neg (not_le.mpr hn)]
    exact ⟨l,List.mem_of_mem_drop (hdrop ▸ List.mem_cons_self),rfl⟩

theorem resume_decided {q : σ × Option Dom} {fresh : Bool} (h : Decided p s.dom)
    (hq : ∀ d, q.2 = some d → Decided p d) : Decided p (resume s fresh q).dom := by
  obtain ⟨eng,d⟩ := q
  cases d with
  | none => exact h
  | some d => exact hq d rfl

theorem restart_decided (hE : Sound E) (hp : p.WellFormed) (h : Good p s) (hne : 0 < s.levels.length) :
    Decided p (restart E o s).dom := by
  obtain ⟨l,hl,hdom⟩ := backtrack_saved (E:=E) hne
  have hkept := h.levels l hl
  unfold restart
  extract_lets t u q
  have hu : u.dom = l.saved := hdom
  split
  case isTrue => exact hu.symm ▸ hkept.decided
  case isFalse =>
    split
    case h_1 => exact hu.symm ▸ hkept.decided
    case h_2 d hd =>
      unfold q at hd
      rw [hu] at hd
      exact hkept.call hp hE.propagate hd

theorem chronological_decided (hE : Sound E) (hp : p.WellFormed) (h : Good p s)
    (hf : ∀ l ls, s.levels = l :: ls → ∀ r es, Governs p r es → ¬l.saved.Single r →
      ∀ up, ¬Forces p l.saved r es (l.Rest p up)) (fresh : Bool) :
    Decided p (chronological E o s fresh).dom := by
  unfold chronological
  split
  case h_1 => exact h.dom
  case h_2 l rest hcons =>
    extract_lets b q
    have hkept := h.levels l (hcons ▸ List.mem_cons_self)
    have hdom := (backtrack_top (E:=E) hcons).2.1
    have hb : Decided p b.1.dom := by
      have heq : b.1.dom = l.saved := (bisect_dom o p _ _ _).trans hdom
      exact heq.symm ▸ hkept.decided
    refine resume_decided ?_ fun d' hd' => ?_
    · split_ifs
      · unfold savePhase
        split_ifs <;> exact hb
      · exact hb
    · obtain ⟨d,hd,hprop⟩ := propagate_some hd'
      intro r es hg hs a ha hda
      have hcut := hE.propagate.cut hprop
      have hsaved : l.saved.Roots p a := by
        have hw := bisect_within o p _ _ _ hd
        rw [hdom] at hw
        exact hw.roots (hcut.within.roots hda)
      rcases bisect_cut hkept.lt hdom (fun hbv hns hroot => hkept.tried hbv hns hroot a ha hsaved) hd
        with rfl | ⟨up,hside⟩
      · exact hkept.call hp hE.propagate hprop r es hg hs a ha hda
      · exact (hside.trans hcut).decided hp hkept.decided
          (fun r es _ hg hns _ _ => hf l rest hcons r es hg hns up) r es hg hs a ha hda

theorem conflictStep_decided (hE : Sound E) (hp : p.WellFormed) (h : Good p s) (hf : Fair E o s)
    {fresh : Bool} (hpc : s.pc = .conflict fresh) : Decided p (conflictStep E o s fresh).dom := by
  unfold conflictStep
  split_ifs
  · exact h.dom
  · extract_lets t q
    split_ifs with hlen
    · exact h.dom
    · exact restart_decided (s:=t) hE hp ⟨h.dom,h.levels,h.keep⟩ (Nat.pos_of_ne_zero hlen)
    · split
      case h_1 bt _ =>
        have hn : min bt (s.levels.length-1) < s.levels.length :=
          (Nat.min_le_right _ _).trans_lt (Nat.sub_one_lt hlen)
        obtain ⟨l,hl,hdom⟩ := backtrack_saved (s:={ t with eng := q.1 }) (E:=E) hn
        have hkept := h.levels l hl
        unfold backjump
        refine resume_decided ?_ fun d hd => ?_
        · exact hdom.symm ▸ hkept.decided
        · rw [hdom] at hd
          exact hkept.call hp hE.assertLearnt hd
      case h_2 hnone =>
        exact chronological_decided (s:={ t with eng := q.1 }) hE hp ⟨h.dom,h.levels,h.keep⟩
          (fun l ls hcons => hf.undone fresh l ls hpc hcons hnone) fresh

theorem Good.step (hE : Sound E) (hp : p.WellFormed) (h : Good p s) (hf : Fair E o s) :
    Good p (step E o s) := by
  unfold Search.step
  cases hpc : s.pc with
  | root => exact h.of_keeps (rootStep_quiet E o s).keeps (rootStep_decided hE hp h hf hpc)
  | decide => exact decideStep_good hE hp h hf hpc
  | conflict fresh =>
    exact h.of_keeps (conflictStep_keeps E o s fresh) (conflictStep_decided hE hp h hf hpc)
  | done v => exact h

theorem Good.run (hE : Sound E) (hp : p.WellFormed) (hd : mergeDomains p = some d)
    (hdec : Decided p d) {rng : BitVec 64} {eng : σ} (n : ℕ)
    (hf : ∀ k < n, Fair E o (run E o rng eng k)) : Good p (run E o rng eng n) := by
  induction n with
  | zero =>
    refine ⟨?_,by simp [Search.run,Search.start],by simp [Search.run,Search.start]⟩
    simp only [Search.run,Function.iterate_zero,id,Search.start,hd,Option.getD_some]
    exact hdec
  | succ n ih =>
    have hn := ih fun k hk => hf k (Nat.lt_succ_of_lt hk)
    have hsucc : Search.run E o rng eng (n+1) = Search.step E o (Search.run E o rng eng n) :=
      Function.iterate_succ_apply' _ _ _
    rw [hsucc]
    exact hn.step hE hp (hf n (Nat.lt_succ_self n))

end Search

end Dist
end DvSolve
