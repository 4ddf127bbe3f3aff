import DvSolve.LcgSem
import DvSolve.PropagateSem

/-! Conflict analysis in the states a search reaches.
Every entry of the trail saved the bound it replaced and names the level it was made at,
and one made by a learnt clause was made when the rest of the clause was false. -/
namespace DvSolve
namespace Solver

open BitVec (toInt_eq_msb_cond toNat_setWidth)
open Bool (false_eq_true not_eq_true)
open Function (update update_self)

variable {v : Variable} {b : BitVec 64} {vars : ℕ → Variable} {e : TrailEntry} {s' : Engine}
variable {id k : ℕ} {σ : ℕ → BitVec 64}

  {es : List TrailEntry}

def PrevDown (c : Ctx) : Prop := ∀ a e b, trailAt c a = some e → e.prev = some b → b < a

section Entries

variable {c c' : Ctx}

theorem followTrail_congr (hdown : PrevDown c) {m : ℕ} (hat : ∀ a < m, trailAt c' a = trailAt c a)
    {n n' : ℕ} {top : Option ℕ} (htop : ∀ a, top = some a → a < m ∧ a < n ∧ a < n') :
    followTrail c' n' top = followTrail c n top := by
  induction n generalizing n' top with
  | zero =>
    cases top with
    | none => cases n' <;> rfl
    | some a => exact absurd (htop a rfl).2.1 (Nat.not_lt_zero a)
  | succ n ih =>
    cases top with
    | none => cases n' <;> rfl
    | some a =>
      obtain ⟨hm,hn,hn'⟩ := htop a rfl
      obtain ⟨k,rfl⟩ : ∃ k, n' = k+1 := ⟨n'-1,by omega⟩
      rw [followTrail,followTrail,hat a hm]
      cases he : trailAt c a with
      | none => rfl
      | some e =>
        refine congrArg (e :: ·) (ih fun b hb => ?_)
        have := hdown a e b he hb
        omega

theorem trailEntries_extends (hdown : PrevDown c) (htop : ∀ a, c.trailTop = some a → a < c.dynamic.length)
    (hd : c.dynamic <+: c'.dynamic) (ht : c'.trailTop = c.trailTop) :
    trailEntries c' = trailEntries c := by
  unfold trailEntries
  rw [ht]
  refine followTrail_congr (m := c.dynamic.length) hdown (fun a ha => trailAt_of_extends hd ha)
    fun a ha => ?_
  have := htop a ha
  have := hd.length_le
  omega

theorem prevDown_of_append (cell : Cell) (hdown : PrevDown c) (hd : c'.dynamic = c.dynamic ++ [cell])
    (hcell : ∀ e b, cell = .trail e → e.prev = some b → b < c.dynamic.length) : PrevDown c' := by
  intro a e b ha hb
  rcases lt_trichotomy a c.dynamic.length with h | rfl | h
  · rw [trailAt_of_extends ⟨_,hd.symm⟩ h] at ha
    exact hdown a e b ha hb
  · rw [trailAt,hd,List.getElem?_append_right (le_refl _)] at ha
    cases cell with
    | trail e' =>
      obtain rfl : e' = e := by simpa using ha
      exact hcell e' b rfl hb
    | entail x => simp at ha
  · rw [trailAt,hd,List.getElem?_eq_none (by simp; omega)] at ha
    cases ha

theorem prevDown_pushEntry (hdown : PrevDown c) (htop : ∀ a, c.trailTop = some a → a < c.dynamic.length)
    (e : TrailEntry) : PrevDown (pushEntry c e) := by
  refine prevDown_of_append (.trail { e with prev := c.trailTop }) hdown rfl ?_
  intro e' b he hb
  obtain rfl := Cell.trail.inj he
  exact htop b hb

theorem trailEntries_pushEntry (hdown : PrevDown c)
    (htop : ∀ a, c.trailTop = some a → a < c.dynamic.length) (e : TrailEntry) :
    trailEntries (pushEntry c e) = { e with prev := c.trailTop } :: trailEntries c := by
  have hat : trailAt (pushEntry c e) c.dynamic.length = some { e with prev := c.trailTop } := by
    simp [trailAt,pushEntry]
  have hlen : (pushEntry c e).dynamic.length = c.dynamic.length+1 := by simp [pushEntry]
  have htop' : (pushEntry c e).trailTop = some c.dynamic.length := rfl
  unfold trailEntries
  rw [hlen,htop',followTrail,hat]
  refine congrArg (_ :: ·) (followTrail_congr hdown
    (fun a ha => trailAt_of_extends (List.prefix_append _ _) ha) fun a ha => ?_)
  have := htop a ha
  omega

theorem prevDown_of_extends (hdown : PrevDown c') (hd : c.dynamic <+: c'.dynamic) : PrevDown c := by
  intro a e b ha hb
  have hlt := lt_of_trailAt (by rw [ha]; rfl)
  exact hdown a e b (by rw [trailAt_of_extends hd hlt,ha]) hb

theorem trailEntries_of_eq (hd : c'.dynamic = c.dynamic) (ht : c'.trailTop = c.trailTop) :
    trailEntries c' = trailEntries c := by
  have hat : ∀ a, trailAt c' a = trailAt c a := fun a => by rw [trailAt,hd,trailAt]
  have hf : ∀ n top, followTrail c' n top = followTrail c n top := by
    intro n
    induction n with
    | zero => intro top; rfl
    | succ n ih =>
      intro top
      cases top with
      | none => rfl
      | some a =>
        rw [followTrail,followTrail,hat]
        cases trailAt c a with
        | none => rfl
        | some e => exact congrArg (e :: ·) (ih _)
  rw [trailEntries,trailEntries,hd,ht,hf]

end Entries

/-- Neither of the tests for an empty domain holds of the variable. -/
def varLive (v : Variable) : Bool := !v.hi.slt v.lo && !varBGt v (varLo64 v) (varHi64 v)

/-- An unsigned variable of 32 bits holds no negative bound until its domain is empty. -/
def BoundsOk (v : Variable) : Prop :=
  v.tier0 = true → v.signed = false → varLive v = true → v.lo.msb = false ∧ v.hi.msb = false

theorem storedBound_eq_readBound (hok : BoundsOk v) (hlive : varLive v = true) (isLb : Bool) :
    storedBound v (kindOf isLb) = readBound v isLb := by
  have hzext : ∀ x : BitVec 32, x.msb = false → x.signExtend 64 = x.setWidth 64 := fun x hx =>
    BitVec.signExtend_eq_setWidth_of_msb_false hx
  cases h0 : v.tier0 with
  | false => cases isLb <;> simp [storedBound,kindOf,readBound,varLo64,varHi64,h0]
  | true =>
    cases hs : v.signed with
    | true => cases isLb <;> simp [storedBound,kindOf,readBound,varLo64,varHi64,h0,hs]
    | false =>
      obtain ⟨hlo,hhi⟩ := hok h0 hs hlive
      cases isLb <;> simp [storedBound,kindOf,readBound,varLo64,varHi64,h0,hs,hzext _ hlo,hzext _ hhi]

theorem toInt_setWidth_nat (x : BitVec 32) :
    (x.setWidth 64 : BitVec 64).toInt = x.toNat := by
  have hn : (x.setWidth 64 : BitVec 64).toNat = x.toNat := by
    rw [toNat_setWidth]
    omega
  rw [BitVec.toInt_eq_toNat_of_lt (by omega),hn]

theorem setBound_tier0 (v : Variable) (k : TrailKind) (b : BitVec 64) :
    (setBound v k b).tier0 = v.tier0 := by
  have h := setBound_shape v k b
  simp only [Variable.tier0,h.tier1,h.tier2]

theorem BoundsOk.setBound (hok : BoundsOk v) (hlive : varLive v = true) {k : TrailKind}
    (hb : v.lo.msb = false → v.hi.msb = false → v.tier0 = true → v.signed = false →
      (k = .lb → (b.setWidth 32).msb = false ∨ v.hi.toNat < (b.setWidth 32 : BitVec 32).toNat) ∧
      (k = .ub → (b.setWidth 32).msb = false ∨ (b.setWidth 32).slt v.lo = true)) :
    BoundsOk (setBound v k b) := by
  intro h0 hs hl
  rw [setBound_tier0] at h0
  rw [(setBound_shape v k b).signed] at hs
  obtain ⟨hlo,hhi⟩ := hok h0 hs hlive
  obtain ⟨hlb,hub⟩ := hb hlo hhi h0 hs
  have hzext : ∀ x : BitVec 32, (x.setWidth 64 : BitVec 64).toNat = x.toNat := fun x => by
    rw [toNat_setWidth]
    exact Nat.mod_eq_of_lt (x.isLt.trans (by decide))
  cases k with
  | hole => exact ⟨hlo,hhi⟩
  | lb =>
    simp only [Solver.setBound,h0,if_true] at hl ⊢
    refine ⟨(hlb rfl).resolve_right fun hlt => ?_,hhi⟩
    -- The new bound is above the other one, so the variable does not live.
    simp only [varLive,Bool.and_eq_true,Bool.not_eq_true',varBGt,varBLt,varLo64,varHi64] at hl
    have h0' : Variable.tier0 { v with lo := b.setWidth 32 } = true := h0
    have hl' := hl.2
    rw [h0'] at hl'
    simp only [hs,if_true,false_eq_true,if_false] at hl'
    split_ifs at hl'
    · rw [← not_eq_true,BitVec.ult_iff_lt,BitVec.lt_def,hzext,hzext] at hl'
      exact hl' hlt
    · rw [← not_eq_true,BitVec.slt_iff_toInt_lt,toInt_setWidth_nat,toInt_setWidth_nat] at hl'
      exact hl' (by exact_mod_cast hlt)
  | ub =>
    simp only [Solver.setBound,h0,if_true] at hl ⊢
    refine ⟨hlo,(hub rfl).resolve_right fun hlt => ?_⟩
    simp only [varLive,Bool.and_eq_true,Bool.not_eq_true'] at hl
    rw [hl.1] at hlt
    cases hlt

theorem msb_setWidth_of_lt (h : b.toNat < 2^31) :
    (b.setWidth 32 : BitVec 32).msb = false := by
  rw [BitVec.msb_eq_false_iff_two_mul_lt,toNat_setWidth]
  omega

theorem ctxTighten_records (t : Tighten) (c : Ctx) (id : ℕ) (b : BitVec 64)
    (hok : BoundsOk (c.vars id)) (hlive : varLive (c.vars id) = true) :
    (ctxTighten t c id b).2 = c ∨ ∃ new empty single,
      BoundsOk (setBound (c.vars id) (kindOf !t.isUb) new) ∧
      (t = .lb64 ∨ t = .ub64 → new = b) ∧ (ctxTighten t c id b).2 =
        (afterTighten (trailRecord (kindOf !t.isUb) c id new) id empty single).2 := by
  have hv : (c.vars id).tier0 = true → (c.vars id).signed = false →
      varLo64 (c.vars id) = (c.vars id).lo.setWidth 64 ∧
      varHi64 (c.vars id) = (c.vars id).hi.setWidth 64 := fun h0 hs => by
    simp [varLo64,varHi64,h0,hs]
  cases t
  · simp only [ctxTighten,ctxTightenLb32]
    split_ifs with h
    · exact Or.inl rfl
    · refine Or.inr ⟨(b.setWidth 32).signExtend 64,_,_,hok.setBound hlive
        fun hlo _ _ _ => ⟨fun _ => Or.inl ?_,by simp [kindOf,Tighten.isUb]⟩,by simp,rfl⟩
      rw [setWidth_signExtend]
      rw [BitVec.sle_iff_toInt_le,toInt_eq_msb_cond,toInt_eq_msb_cond,hlo] at h
      by_contra hm
      rw [Bool.not_eq_false] at hm
      rw [hm] at h
      simp only [if_true,false_eq_true,if_false] at h
      omega
  · simp only [ctxTighten,ctxTightenUb32]
    split_ifs with h
    · exact Or.inl rfl
    · refine Or.inr ⟨(b.setWidth 32).signExtend 64,_,_,hok.setBound hlive
        fun hlo _ _ _ => ⟨by simp [kindOf,Tighten.isUb],fun _ => ?_⟩,by simp,rfl⟩
      rw [setWidth_signExtend]
      cases hm : (b.setWidth 32 : BitVec 32).msb with
      | false => exact Or.inl rfl
      | true =>
        right
        rw [BitVec.slt_iff_toInt_lt,toInt_eq_msb_cond,toInt_eq_msb_cond,hlo,hm]
        simp only [if_true,false_eq_true,if_false]
        omega
  · simp only [ctxTighten,ctxTightenLb64]
    split_ifs with h h'
    · exact Or.inl rfl
    · exact Or.inl rfl
    · refine Or.inr ⟨b,_,_,hok.setBound hlive
        fun _ hhi _ _ => ⟨fun _ => ?_,by simp [kindOf,Tighten.isUb]⟩,fun _ => rfl,rfl⟩
      cases hm : (b.setWidth 32 : BitVec 32).msb with
      | false => exact Or.inl rfl
      | true =>
        right
        rw [BitVec.msb_eq_false_iff_two_mul_lt] at hhi
        rw [BitVec.msb_eq_true_iff_two_mul_ge] at hm
        omega
  · simp only [ctxTighten,ctxTightenUb64]
    split_ifs with h h'
    · exact Or.inl rfl
    · exact Or.inl rfl
    · refine Or.inr ⟨b,_,_,hok.setBound hlive
        fun _ hhi h0 hs => ⟨by simp [kindOf,Tighten.isUb],fun _ => Or.inl (msb_setWidth_of_lt ?_)⟩,
        fun _ => rfl,rfl⟩
      rw [BitVec.msb_eq_false_iff_two_mul_lt] at hhi
      rw [Bool.not_eq_true',Bool.not_eq_false,varBLt_iff,(hv h0 hs).2] at h
      rw [varBLt_iff] at h'
      unfold varOrd at h h'
      simp only [varReprMin,hs,false_eq_true,if_false] at h h'
      split_ifs at h h'
      · rw [toNat_setWidth] at h
        omega
      · rw [toInt_setWidth_nat] at h
        rw [BitVec.toInt_zero] at h'
        have := BitVec.toInt_eq_toNat_cond b
        split_ifs at this <;> omega

/-- Literal `l` was enforced by a bound, or false before it: `vars` are the bounds with
entry `e`. -/
def WasUnit (vars : ℕ → Variable) (e : TrailEntry) (l : Literal) : Prop :=
  if l.varId = e.varId ∧ l.isLb = e.isLb then
    litHolds (vars e.varId) ⟨e.varId,e.isLb,readBound (vars e.varId) e.isLb⟩ l.bound = true
  else literalIsFalse (undoOne vars e) l = true

structure EntryOk (s : Engine) (vars : ℕ → Variable) (e : TrailEntry) : Prop where
  level : e.decisionLevel < 2^16
  tiered : e.kind ≠ .hole → (vars e.varId).tier0 = true ∨ (vars e.varId).tier1 = true
  reads : e.kind ≠ .hole →
    readBound (setBound (vars e.varId) (kindOf e.isLb) e.oldValue) e.isLb = e.oldValue
  clause : e.kind ≠ .hole → e.fromClause = true → ∀ ci, e.propRef = some ci → ci < s.nClauses ∧
    ∀ lits, clauseAt s ci = some lits → ∀ l ∈ lits, WasUnit vars e l

def EntriesOk (s : Engine) : (ℕ → Variable) → List TrailEntry → Prop
  | _, [] => True
  | vars, e :: es => EntryOk s vars e ∧ EntriesOk s (undoOne vars e) es

theorem EntriesOk.split {s : Engine} {pre rest : List TrailEntry}
    (h : EntriesOk s vars (pre ++ e :: rest)) : EntryOk s (before vars pre) e := by
  induction pre generalizing vars with
  | nil => exact h.1
  | cons e' pre ih => exact ih h.2

/-- Clauses are added and dropped, and none is changed. -/
def KeepsClauses (s s' : Engine) : Prop :=
  s.nClauses ≤ s'.nClauses ∧
    ∀ ci < s.nClauses, ∀ lits, clauseAt s' ci = some lits → clauseAt s ci = some lits

theorem EntriesOk.keeps {s : Engine} (hk : KeepsClauses s s') (h : EntriesOk s vars es) :
    EntriesOk s' vars es := by
  induction es generalizing vars with
  | nil => trivial
  | cons e es ih =>
    refine ⟨⟨h.1.level,h.1.tiered,h.1.reads,fun hh hf ci hci => ?_⟩,ih h.2⟩
    obtain ⟨hlt,hl⟩ := h.1.clause hh hf ci hci
    exact ⟨hlt.trans_le hk.1,fun lits hlits => hl lits (hk.2 ci hlt lits hlits)⟩

/-- An operation tightens no bound of a variable whose domain is empty, nor in the name of
a learnt clause. -/
def Op.Live (c : Ctx) : Op → Prop
  | .tighten _ id _ => varLive (c.vars id) = true ∧ c.currentFlags.testBit 1 = false
  | _ => True

structure TrailInv (s : Engine) (c : Ctx) : Prop where
  down : PrevDown c
  bounds : ∀ i, BoundsOk (c.vars i)
  entries : EntriesOk s c.vars (trailEntries c)
  levels : c.decisionLevel < 2^16 → ∀ e ∈ trailEntries c, e.decisionLevel ≤ c.decisionLevel
  sorted : c.decisionLevel < 2^16 →
    (trailEntries c).Pairwise fun e e' => e'.decisionLevel ≤ e.decisionLevel

section TrailInv

variable {s : Engine} {c c' : Ctx}

theorem TrailInv.keeps (h : TrailInv s c) (hk : KeepsClauses s s') : TrailInv s' c :=
  ⟨h.down,h.bounds,h.entries.keeps hk,h.levels,h.sorted⟩

theorem TrailInv.congr (h : TrailInv s c) (hv : c'.vars = c.vars) (hd : c'.dynamic = c.dynamic)
    (ht : c'.trailTop = c.trailTop) (hl : c'.decisionLevel = c.decisionLevel) : TrailInv s c' := by
  have he := trailEntries_of_eq hd ht
  refine ⟨prevDown_of_extends h.down (by rw [hd]),fun i => hv ▸ h.bounds i,?_,?_,?_⟩
  · rw [he,hv]
    exact h.entries
  · rw [he,hl]
    exact h.levels
  · rw [he,hl]
    exact h.sorted

theorem TrailInv.quiet (h : TrailInv s c) (hq : Quiet c c') : TrailInv s c' := by
  rw [hq.rest]
  exact h.congr rfl rfl rfl rfl

theorem TrailInv.pushEntry (h : TrailInv s c) (htop : TopsOk c) (hid : e.varId = id)
    (hv : setBound v e.kind e.oldValue = c.vars id) (hb : BoundsOk v)
    (hlev : e.decisionLevel = c.decisionLevel % 2^16)
    (he : EntryOk s (update c.vars id v) e) :
    TrailInv s (pushEntry (c.setVar id v) e) := by
  have hes : trailEntries (Solver.pushEntry (c.setVar id v) e) =
      { e with prev := c.trailTop } :: trailEntries c := by
    rw [trailEntries_pushEntry (c := c.setVar id v) h.down htop.trail]
    exact congrArg _ (trailEntries_of_eq rfl rfl)
  have hundo : undoOne (update c.vars id v) { e with prev := c.trailTop } = c.vars := by
    unfold undoOne
    rw [hid,update_self,hv,Function.update_idem,Function.update_eq_self]
  have hle : c.decisionLevel < 2^16 → ∀ e' ∈ trailEntries c, e'.decisionLevel ≤ e.decisionLevel := by
    intro hlt e' he'
    rw [hlev,Nat.mod_eq_of_lt hlt]
    exact h.levels hlt e' he'
  refine ⟨prevDown_pushEntry (c := c.setVar id v) h.down htop.trail _,fun i => ?_,?_,?_,?_⟩
  · change BoundsOk (update c.vars id v i)
    by_cases hi : i = id
    · rw [hi,update_self]
      exact hb
    · rw [Function.update_of_ne hi]
      exact h.bounds i
  · rw [hes]
    refine ⟨⟨he.level,he.tiered,he.reads,he.clause⟩,?_⟩
    change EntriesOk s (undoOne (update c.vars id v) _) _
    rw [hundo]
    exact h.entries
  · rw [hes]
    intro hlt e' he'
    rcases List.mem_cons.mp he' with rfl | he'
    · exact hlev.trans_le (Nat.mod_le _ _)
    · exact h.levels hlt e' he'
  · rw [hes]
    exact fun hlt => List.pairwise_cons.mpr ⟨hle hlt,h.sorted hlt⟩

theorem TrailInv.markEntailed (h : TrailInv s c) (htop : TopsOk c) (ref : ℕ) :
    TrailInv s (trailMarkEntailed c ref) := by
  have he : trailEntries (trailMarkEntailed c ref) = trailEntries c :=
    trailEntries_extends h.down htop.trail (List.prefix_append _ _) rfl
  refine ⟨prevDown_of_append (.entail ⟨c.entailTop,ref⟩) h.down rfl
    (fun _ _ hc => by cases hc),h.bounds,?_,?_,?_⟩
  · rw [he]
    exact h.entries
  · rw [he]
    exact h.levels
  · rw [he]
    exact h.sorted

theorem TrailInv.push (h : TrailInv s c) : TrailInv s (trailPushLevel c) := by
  have he : trailEntries (trailPushLevel c) = trailEntries c := trailEntries_of_eq rfl rfl
  refine ⟨prevDown_of_extends h.down List.prefix_rfl,h.bounds,?_,fun hlt e hmem => ?_,fun hlt => ?_⟩
  · rw [he]
    exact h.entries
  · have hlev : (trailPushLevel c).decisionLevel = c.decisionLevel+1 := rfl
    rw [he] at hmem
    have := h.levels (by omega) e hmem
    omega
  · have hlev : (trailPushLevel c).decisionLevel = c.decisionLevel+1 := rfl
    rw [he]
    exact h.sorted (by omega)

theorem trailRecord_entry (k : TrailKind) (c : Ctx) (id : ℕ) (new : BitVec 64) :
    trailRecord k c id new = c ∨ ((c.vars id).tier0 = true ∨ (c.vars id).tier1 = true) ∧
      ∃ e : TrailEntry, e.varId = id ∧ e.kind = k ∧ e.oldValue = storedBound (c.vars id) k ∧
        e.decisionLevel = c.decisionLevel % 2^16 ∧ e.propRef = c.currentPropRef ∧
        e.flags = c.currentFlags ∧
        trailRecord k c id new = pushEntry (c.setVar id (setBound (c.vars id) k new)) e := by
  unfold trailRecord
  by_cases h : ((c.vars id).tier0 || (c.vars id).tier1) = true
  · rw [if_pos h]
    exact Or.inr ⟨by simpa using h,_,rfl,rfl,rfl,rfl,rfl,rfl,rfl⟩
  · rw [if_neg h]
    exact Or.inl rfl

/-- A tightening of a variable that lives keeps the invariant; one made for a learnt clause
is made when the clause is unit. -/
theorem TrailInv.tighten (h : TrailInv s c) (hok : c.Ok) {t : Tighten}
    (hlive : varLive (c.vars id) = true) (hclause : c.currentFlags.testBit 1 = true →
      (c.vars id).tier0 = true ∨ (c.vars id).tier1 = true → (t = .lb64 ∨ t = .ub64) ∧ ∀ ci, c.currentPropRef = some ci → ci < s.nClauses ∧
        ∀ lits, clauseAt s ci = some lits → ∀ l ∈ lits, if l.varId = id ∧ l.isLb = !t.isUb then
            litHolds (c.vars id) ⟨id,!t.isUb,
              readBound (setBound (c.vars id) (kindOf !t.isUb) b) !t.isUb⟩ l.bound = true
          else literalIsFalse c.vars l = true) :
    TrailInv s (ctxTighten t c id b).2 := by
  rcases ctxTighten_records t c id b (h.bounds id) hlive with he | ⟨new,empty,single,hb,hnew,he⟩
  · rw [he]
    exact h
  · rw [he]
    obtain ⟨isLb,hlb⟩ : ∃ isLb, isLb = !t.isUb := ⟨_,rfl⟩
    rw [← hlb] at hclause hb ⊢
    rcases trailRecord_entry (kindOf isLb) c id new with hr | ⟨htier,e,hid,hk,hold,hlev,href,hflags,hr⟩
    · rw [hr]
      exact h.quiet (afterTighten_quiet hok _ _ _).1
    · rw [hr]
      have heLb : e.isLb = isLb := by
        unfold TrailEntry.isLb
        rw [hk]
        cases isLb <;> rfl
      have hback : setBound (setBound (c.vars id) (kindOf isLb) new) e.kind e.oldValue = c.vars id := by
        rw [hk,hold]
        exact setBound_storedBound _ _ _
      refine (h.pushEntry hok.tops hid hback hb hlev ⟨?_,fun _ => ?_,fun _ => ?_,fun _ hfrom ci hci => ?_⟩).quiet
        (afterTighten_quiet (pushEntry_ok hok id _ e) _ _ _).1
      · rw [hlev]
        exact Nat.mod_lt _ (by decide)
      · have hs := setBound_shape (c.vars id) (kindOf isLb) new
        rw [hid,update_self,setBound_tier0,hs.tier1]
        exact htier
      · rw [hk] at hback
        rw [hid,update_self,heLb,hback,hold]
        exact (storedBound_eq_readBound (h.bounds id) hlive isLb).symm
      · unfold TrailEntry.fromClause at hfrom
        rw [hflags] at hfrom
        obtain ⟨ht,hunit⟩ := hclause hfrom htier
        obtain ⟨hlt,hunit⟩ := hunit ci (href ▸ hci)
        refine ⟨hlt,fun lits hlits l hl => ?_⟩
        have hundo : undoOne (update c.vars id (setBound (c.vars id) (kindOf isLb) new)) e = c.vars := by
          unfold undoOne
          rw [hid,update_self,hback,Function.update_idem,Function.update_eq_self]
        obtain rfl := hnew ht
        have := hunit lits hlits l hl
        unfold WasUnit
        rw [hundo,hid,heLb,update_self]
        split_ifs with hslot
        · rw [if_pos hslot] at this
          rwa [(setBound_shape (c.vars id) (kindOf isLb) new).litHolds]
        · rwa [if_neg hslot] at this

theorem TrailInv.op (h : TrailInv s c) (hok : c.Ok) {o : Op} (ho : o.Valid c) (hl : o.Live c) :
    TrailInv s (o.run c) := by
  cases o with
  | tighten t id b =>
    refine h.tighten hok hl.1 fun hflag _ => ?_
    rw [hl.2] at hflag
    cases hflag
  | hole id removed =>
    have hent := h.pushEntry hok.tops (v := c.vars id)
      (e := ⟨none,id,.hole,.size32,c.decisionLevel % 2^16,removed,c.currentPropRef,c.currentFlags⟩)
      rfl rfl (h.bounds id) rfl ⟨Nat.mod_lt _ (by decide),fun hh => absurd rfl hh,
        fun hh => absurd rfl hh,fun hh => absurd rfl hh⟩
    rwa [c.setVar_self] at hent
  | markEntailed ref => exact h.markEntailed hok.tops ref
  | enqueue ref => exact h.quiet (propEnqueue_quiet hok ho).1
  | setReason ref flags => exact h.congr rfl rfl rfl rfl

end TrailInv

theorem readBound_setBound_between (ht : v.tier0 = true ∨ v.tier1 = true)
    (hlo : varOrd v (varLo64 v) ≤ varOrd v b) (hhi : varOrd v b ≤ varOrd v (varHi64 v))
    (isLb : Bool) : readBound (setBound v (kindOf isLb) b) isLb = b := by
  have hfit : v.tier0 = true →
      (if v.signed then (b.setWidth 32).signExtend 64 else (b.setWidth 32).setWidth 64) = b := by
    intro h0
    simp only [varLo64,varHi64,h0,if_true] at hlo hhi
    have h1 := BitVec.toInt_eq_toNat_cond b
    cases hs : v.signed with
    | true =>
      simp only [hs,if_true,varOrd,Bool.not_true,Bool.false_and,false_eq_true,if_false] at hlo hhi ⊢
      rw [BitVec.toInt_signExtend_of_le (by decide)] at hlo hhi
      have h2 := BitVec.le_toInt v.lo
      have h3 := BitVec.toInt_lt (x := v.hi)
      refine BitVec.eq_of_toInt_eq ?_
      rw [BitVec.toInt_signExtend_of_le (by decide),BitVec.toInt_eq_toNat_cond,toNat_setWidth]
      split_ifs at h1 ⊢ <;> omega
    | false =>
      simp only [hs,varOrd,Bool.not_false,Bool.true_and,false_eq_true,if_false] at hlo hhi ⊢
      refine BitVec.eq_of_toNat_eq ?_
      rw [toNat_setWidth,toNat_setWidth]
      split_ifs at hlo hhi
      · rw [toNat_setWidth] at hhi
        omega
      · rw [toInt_setWidth_nat] at hlo hhi
        split_ifs at h1 <;> omega
  obtain ⟨lo,hi,⟨wlo,whi⟩,w,s,t1,t2,aux⟩ := v
  cases isLb <;> cases t1 <;> cases t2 <;>
    simp_all [setBound,kindOf,readBound,varLo64,varHi64,Variable.tier0]

section Visit

variable {s : Engine}

theorem KeepsClauses.of_db {s : Engine} (hn : s'.nClauses = s.nClauses)
    (hc : ∀ ci, clauseAt s' ci = clauseAt s ci) : KeepsClauses s s' :=
  ⟨hn.ge,fun ci _ lits h => by rwa [hc] at h⟩

theorem tightenHeld_keeps (s : Engine) (t : Tighten) (id : ℕ) (b : BitVec 64) :
    KeepsClauses s (tightenHeld s t id b).2 := by
  have hheld : ∀ s' : Engine, s'.db = s.db → KeepsClauses s (notifyHeld s' id t.isUb) := by
    intro s' hs'
    refine KeepsClauses.of_db ?_ fun ci => ?_ <;>
      simp only [notifyHeld,Engine.nClauses,clauseAt,hs'] <;>
      cases hdb : s.db <;> simp only [hs',hdb] <;> split_ifs <;> simp_all
  unfold tightenHeld
  dsimp only
  split_ifs
  · exact hheld _ rfl
  · exact KeepsClauses.of_db rfl fun _ => rfl

def enforcedCtx (c : Ctx) (ci : ℕ) (unit : Literal) : Ctx :=
  (Op.setReason c.currentPropRef c.currentFlags).run
    ((Op.tighten (if unit.isLb then .lb64 else .ub64) unit.varId unit.bound).run
      ((Op.setReason (some ci) (c.currentFlags ||| flagFromClause)).run c))

theorem visitClause_cases (s : Engine) (ci : ℕ) : KeepsClauses s (visitClause s ci).2.2 ∧
    ((visitClause s ci).2.2.ctx = s.ctx ∨ ∃ db lits unit, s.db = some db ∧
      db.clauses ci = some lits ∧ unit.varId < s.ctx.nVars ∧
      literalIsTrue s.ctx.vars unit = false ∧ literalIsFalse s.ctx.vars unit = false ∧
      (∀ l ∈ lits, literalIsFalse s.ctx.vars l = true ∨ l = unit) ∧
      (visitClause s ci).2.2.ctx = enforcedCtx s.ctx ci unit) := by
  have hsame : KeepsClauses s s := KeepsClauses.of_db rfl fun _ => rfl
  unfold visitClause
  split
  · exact ⟨hsame,Or.inl rfl⟩
  · rename_i lits hlits
    obtain ⟨db,hdb,hat⟩ := Option.bind_eq_some_iff.mp hlits
    split_ifs with hnil htrue
    · exact ⟨hsame,Or.inl rfl⟩
    · exact ⟨hsame,Or.inl rfl⟩
    · split
      · exact ⟨KeepsClauses.of_db rfl fun _ => rfl,Or.inl rfl⟩
      · rename_i unit hunit
        have hmem : unit ∈ lits.filter fun l => !literalIsFalse s.ctx.vars l := by simp [hunit]
        rw [List.mem_filter] at hmem
        simp only [List.any_eq_true,Bool.or_eq_true,decide_eq_true_eq,not_exists,not_and,not_or,
          not_le,not_eq_true] at htrue
        obtain ⟨t,ht⟩ : ∃ t, t = if unit.isLb then Tighten.lb64 else Tighten.ub64 := ⟨_,rfl⟩
        unfold enforceUnit
        rw [← ht]
        split_ifs
        · exact ⟨hsame,Or.inl rfl⟩
        · refine ⟨?_,Or.inr ⟨db,lits,unit,hdb,hat,(htrue unit hmem.1).1,(htrue unit hmem.1).2,
            by simpa using hmem.2,fun l hl => ?_,?_⟩⟩
          · exact tightenHeld_keeps (s.withReason (some ci) (s.ctx.currentFlags ||| flagFromClause))
              t unit.varId unit.bound
          · cases hf : literalIsFalse s.ctx.vars l with
            | true => exact Or.inl rfl
            | false =>
              right
              have : l ∈ lits.filter fun l => !literalIsFalse s.ctx.vars l :=
                List.mem_filter.mpr ⟨hl,by simp [hf]⟩
              simpa [hunit] using this
          · simp only [enforcedCtx,← ht,Op.run,Engine.withReason,tightenHeld_ctx]
      · exact ⟨hsame,Or.inl rfl⟩

theorem litHolds_self (v : Variable) (id : ℕ) (isLb : Bool) (b : BitVec 64) :
    litHolds v ⟨id,isLb,b⟩ b = true := by
  rw [litHolds_iff]
  split_ifs <;> exact le_refl _

variable {l unit : Literal}

theorem litHolds_of_false (hv : l.varId = unit.varId) (hb : l.isLb = unit.isLb)
    (hunit : literalIsFalse vars unit = false) (hl : literalIsFalse vars l = true) :
    litHolds (vars unit.varId) ⟨unit.varId,unit.isLb,unit.bound⟩ l.bound = true := by
  unfold literalIsFalse varBGt at hunit hl
  rw [hb,hv] at hl
  rw [litHolds_iff]
  cases h : unit.isLb <;>
    simp only [h,false_eq_true,if_true,if_false,varBLt_iff,← not_eq_true] at hunit hl ⊢ <;>
    omega

theorem unit_between (ht : literalIsTrue vars l = false)
    (hf : literalIsFalse vars l = false) :
    varOrd (vars l.varId) (varLo64 (vars l.varId)) ≤ varOrd (vars l.varId) l.bound ∧
      varOrd (vars l.varId) l.bound ≤ varOrd (vars l.varId) (varHi64 (vars l.varId)) := by
  unfold literalIsTrue varBGt at ht
  unfold literalIsFalse varBGt at hf
  cases h : l.isLb
  · simp only [h,false_eq_true,if_false,Bool.not_eq_false'] at ht hf
    rw [varBLt_iff] at ht
    rw [← not_eq_true,varBLt_iff] at hf
    omega
  · simp only [h,if_true,Bool.not_eq_false'] at ht hf
    rw [varBLt_iff] at ht
    rw [← not_eq_true,varBLt_iff] at hf
    omega

theorem TrailInv.enforced (h : TrailInv s s.ctx) (hok : s.ctx.Ok) {ci : ℕ} (hci : ci < s.nClauses)
    {db : ClauseDb} {lits : List Literal} (hdb : s.db = some db)
    (hat : db.clauses ci = some lits) (hlive : varLive (s.ctx.vars unit.varId) = true)
    (htrue : literalIsTrue s.ctx.vars unit = false) (hfalse : literalIsFalse s.ctx.vars unit = false)
    (hrest : ∀ l ∈ lits, literalIsFalse s.ctx.vars l = true ∨ l = unit) :
    TrailInv s (enforcedCtx s.ctx ci unit) := by
  have hset : TrailInv s ((Op.setReason (some ci) (s.ctx.currentFlags ||| flagFromClause)).run s.ctx) :=
    h.congr rfl rfl rfl rfl
  have hsetok := Op.run_ok hok (o := .setReason (some ci) (s.ctx.currentFlags ||| flagFromClause)) trivial
  have hub : (!(if unit.isLb then Tighten.lb64 else Tighten.ub64).isUb) = unit.isLb := by
    cases unit.isLb <;> rfl
  refine TrailInv.congr (c := (Op.run (.tighten (if unit.isLb then .lb64 else .ub64) unit.varId
    unit.bound) _)) ?_ rfl rfl rfl rfl
  refine hset.tighten hsetok hlive fun _ ht => ⟨by cases unit.isLb <;> simp,fun ci' hci' => ?_⟩
  obtain rfl : ci = ci' := Option.some.inj hci'
  refine ⟨hci,fun lits' hlits' l hl => ?_⟩
  have hn : ci < db.nClauses := by
    unfold Engine.nClauses at hci
    rwa [hdb] at hci
  have hclause : clauseAt s ci = some lits := by
    unfold clauseAt
    rw [hdb]
    simpa [hn] using hat
  obtain rfl : lits = lits' := Option.some.inj (hclause.symm.trans hlits')
  rw [hub]
  change if l.varId = unit.varId ∧ l.isLb = unit.isLb then litHolds (s.ctx.vars unit.varId)
    ⟨unit.varId,unit.isLb,readBound (setBound (s.ctx.vars unit.varId) (kindOf unit.isLb) unit.bound)
      unit.isLb⟩ l.bound = true else literalIsFalse s.ctx.vars l = true
  split_ifs with hslot
  · obtain ⟨hlo,hhi⟩ := unit_between htrue hfalse
    have ht : (s.ctx.vars unit.varId).tier0 = true ∨ (s.ctx.vars unit.varId).tier1 = true := ht
    rw [readBound_setBound_between ht hlo hhi]
    rcases hrest l hl with hlf | rfl
    · exact litHolds_of_false hslot.1 hslot.2 hfalse hlf
    · exact litHolds_self _ _ _ _
  · rcases hrest l hl with hlf | rfl
    · exact hlf
    · exact absurd ⟨rfl,rfl⟩ hslot

end Visit

/-- The states a search passes through: operations, learnt clauses looked at, pushes and
backtracks, and whatever leaves the context alone and only adds and drops clauses. No
bound of an empty domain is tightened, and clauses are looked at while no domain is. -/
inductive SearchRun (s₀ : Engine) : Engine → List ℕ → List Frame → Prop
  | init : SearchRun s₀ s₀ [] []
  | op {s : Engine} {log : List ℕ} {fs : List Frame} (h : SearchRun s₀ s log fs) (o : Op)
      (ho : o.Valid s.ctx) (hl : o.Live s.ctx) :
      SearchRun s₀ { s with ctx := o.run s.ctx } (log ++ o.marks) fs
  | clause {s : Engine} {log : List ℕ} {fs : List Frame} (h : SearchRun s₀ s log fs) (ci : ℕ)
      (hci : ci < s.nClauses) (hl : ∀ v < s.ctx.nVars, varLive (s.ctx.vars v) = true) :
      SearchRun s₀ (visitClause s ci).2.2 log fs
  | learn {s s' : Engine} {log : List ℕ} {fs : List Frame} (h : SearchRun s₀ s log fs)
      (hctx : s'.ctx = s.ctx) (hk : KeepsClauses s s') : SearchRun s₀ s' log fs
  | push {s : Engine} {log : List ℕ} {fs : List Frame} (h : SearchRun s₀ s log fs) :
      SearchRun s₀ { s with ctx := trailPushLevel s.ctx } log
        (⟨s.ctx,log⟩ :: fs.filter fun f => f.start.decisionLevel < s.ctx.decisionLevel)
  | back {s : Engine} {c : Ctx} {log : List ℕ} {above fs : List Frame} {f : Frame}
      (h : SearchRun s₀ s log (above ++ f :: fs))
      (hb : trailBacktrack s.ctx f.start.decisionLevel = some c) :
      SearchRun s₀ { s with ctx := c } f.log (f :: fs)

section Search

variable {s₀ s : Engine} {log : List ℕ} {fs : List Frame}

theorem SearchRun.run (h : SearchRun s₀ s log fs) : Run s₀.ctx s.ctx log fs := by
  induction h with
  | init => exact .init
  | op _ o ho _ ih => exact .op ih o ho
  | @clause s log fs _ ci _ _ ih =>
    rcases (visitClause_cases s ci).2 with hc | ⟨_,_,unit,_,_,_,_,_,_,hc⟩
    · rwa [hc]
    · rw [hc]
      have hrun := Run.op (Run.op (Run.op ih
        (.setReason (some ci) (s.ctx.currentFlags ||| flagFromClause)) trivial)
        (.tighten (if unit.isLb then .lb64 else .ub64) unit.varId unit.bound) trivial)
        (.setReason s.ctx.currentPropRef s.ctx.currentFlags) trivial
      simpa only [enforcedCtx,Op.marks,List.append_nil] using hrun
  | learn _ hctx _ ih => rwa [hctx]
  | push _ ih => exact .push ih
  | back _ hb ih => exact .back ih hb

/-- A context at the start of a search: nothing is recorded, and no negative bound is kept
of an unsigned variable of 32 bits. -/
structure Fresh (c : Ctx) : Prop where
  ok : c.Ok
  trail : c.dynamic = []
  bounds : ∀ i, BoundsOk (c.vars i)

theorem Fresh.inv {c : Ctx} (h : Fresh c) (s : Engine) : TrailInv s c := by
  have hat : ∀ a, trailAt c a = none := fun a => by rw [trailAt,h.trail]; rfl
  have hes : trailEntries c = [] := by
    unfold trailEntries
    cases ht : c.trailTop with
    | none => rfl
    | some a => rw [followTrail,hat]
  refine ⟨fun a e b ha => ?_,h.bounds,?_,?_,?_⟩
  · rw [hat] at ha
    cases ha
  · rw [hes]
    trivial
  · simp [hes]
  · simp [hes]

theorem SearchRun.inv (h₀ : Fresh s₀.ctx) (h : SearchRun s₀ s log fs) :
    TrailInv s s.ctx ∧ ∀ f ∈ fs, TrailInv s f.start := by
  induction h with
  | init => exact ⟨h₀.inv _,by simp⟩
  | @op s log fs h o ho hl ih =>
    have hk : KeepsClauses s { s with ctx := o.run s.ctx } := KeepsClauses.of_db rfl fun _ => rfl
    exact ⟨(ih.1.op (h.run.ok h₀.ok).1 ho hl).keeps hk,fun f hf => (ih.2 f hf).keeps hk⟩
  | @clause s log fs h ci hci hl ih =>
    obtain ⟨hk,hc⟩ := visitClause_cases s ci
    refine ⟨?_,fun f hf => (ih.2 f hf).keeps hk⟩
    rcases hc with hc | ⟨db,lits,unit,hdb,hat,hv,htrue,hfalse,hrest,hc⟩
    · rw [hc]
      exact ih.1.keeps hk
    · rw [hc]
      exact (ih.1.enforced (h.run.ok h₀.ok).1 hci hdb hat (hl _ hv) htrue hfalse hrest).keeps hk
  | learn _ hctx hk ih =>
    rw [hctx]
    exact ⟨ih.1.keeps hk,fun f hf => (ih.2 f hf).keeps hk⟩
  | @push s log fs _ ih =>
    have hk : KeepsClauses s { s with ctx := trailPushLevel s.ctx } :=
      KeepsClauses.of_db rfl fun _ => rfl
    refine ⟨ih.1.push.keeps hk,fun f hf => ?_⟩
    rcases List.mem_cons.mp hf with rfl | hf
    · exact ih.1.keeps hk
    · exact (ih.2 f (List.mem_of_mem_filter hf)).keeps hk
  | @back s c log above fs f h hb ih =>
    have hk : KeepsClauses s { s with ctx := c } := KeepsClauses.of_db rfl fun _ => rfl
    refine ⟨?_,fun g hg => (ih.2 g (List.mem_append_right _ hg)).keeps hk⟩
    obtain ⟨hok,hframes⟩ := h.run.ok h₀.ok
    obtain ⟨hf,⟨new,_,hev⟩,_⟩ := hframes.drop
    obtain ⟨q,hq⟩ := hok.queue
    rw [hev.trailBacktrack hf.tops hq,Option.some.injEq] at hb
    subst hb
    exact ((ih.2 f (by simp)).keeps hk).congr rfl rfl rfl rfl

theorem EntriesOk.mem (h : EntriesOk s vars es) (he : e ∈ es) :
    ∃ pre, EntryOk s (before vars pre) e := by
  obtain ⟨pre,rest,rfl⟩ := List.append_of_mem he
  exact ⟨pre,h.split⟩

theorem TrailInv.trailOk (h : TrailInv s s.ctx) (hlt : s.ctx.decisionLevel < 2^16) :
    TrailOk s.ctx := by
  refine ⟨h.sorted hlt,h.levels hlt,fun e he hk => ?_,fun e he hk => ?_⟩
  · obtain ⟨pre,hent⟩ := h.entries.mem he
    have hs := before_shape s.ctx.vars pre e.varId
    have := hent.tiered hk
    rwa [Variable.tier0,hs.tier1,hs.tier2] at this
  · obtain ⟨pre,hent⟩ := h.entries.mem he
    have hs := before_shape s.ctx.vars pre e.varId
    have ht := hent.tiered hk
    rw [Variable.tier0,hs.tier1,hs.tier2] at ht
    rw [← hs.readBound_setBound _ ht]
    exact hent.reads hk

theorem TrailInv.clauseReasons (h : TrailInv s s.ctx) : ClauseReasons s := by
  intro pre e rest ci lits hes hk hfrom hci hlits l hl
  have hent := h.entries
  rw [hes] at hent
  have hunit := (hent.split.clause hk hfrom ci hci).2 lits hlits l hl
  unfold WasUnit at hunit
  rw [before_append]
  split_ifs at hunit ⊢ with hslot
  · rwa [(before_shape s.ctx.vars pre e.varId).litHolds] at hunit
  · exact hunit

theorem EntriesOk.small (h : EntriesOk s vars es) :
    ∀ e ∈ es, e.decisionLevel < 2^16 := by
  intro e he
  obtain ⟨pre,hent⟩ := h.mem he
  exact hent.level

end Search

section Deep

variable {x : Explainers} {s : Engine} {a a' : Analysis}

theorem addExplLits_deep (hdeep : ∀ e ∈ trailEntries s.ctx, e.decisionLevel ≠ s.ctx.decisionLevel)
    {ls : List Literal} (h : addExplLits s a ls = .ok a') : a'.nAtCurLevel = a.nAtCurLevel := by
  induction ls generalizing a with
  | nil =>
    obtain rfl := Except.ok.inj h
    rfl
  | cons l ls ih =>
    obtain ⟨a₁,h1,h2⟩ := except_bind_ok h
    rw [ih h2]
    unfold addExplLit at h1
    split_ifs at h1
    split at h1
    · obtain rfl := Except.ok.inj h1
      rfl
    · rename_i m hm
      split_ifs at h1 with hroot hcur
      · obtain rfl := Except.ok.inj h1
        rfl
      · exact absurd hcur (hdeep m (mem_mkIndex (litMaker_some hm)).1)
      · cases hb : addBody (s.ctx.vars l.varId) a l with
        | error a₂ =>
          rw [hb] at h1
          cases h1
        | ok a₂ =>
          rw [hb] at h1
          obtain rfl := Except.ok.inj h1
          unfold addBody at hb
          split at hb
          · split at hb
            · split_ifs at hb <;> obtain rfl := Except.ok.inj hb <;> rfl
            · obtain rfl := Except.ok.inj hb
              rfl
          · split_ifs at hb
            obtain rfl := Except.ok.inj hb
            rfl

theorem lcgAnalyzeConflict_deep (hlevel : 0 < s.ctx.decisionLevel)
    (hdeep : ∀ e ∈ trailEntries s.ctx, e.decisionLevel ≠ s.ctx.decisionLevel) :
    (lcgAnalyzeConflict x s).1 = none := by
  have hneed : ∀ ls a₁ a₂, addExplLits s (Analysis.start s) ls = .ok a₁ →
      a₁.nAtCurLevel = a₂.nAtCurLevel → needCurrent a₂ = .error a₂ := by
    intro ls a₁ a₂ h1 h2
    unfold needCurrent
    rw [if_pos]
    rw [← h2,addExplLits_deep hdeep h1]
    rfl
  have hseed : ∀ a, seedConflict x s (Analysis.start s) ≠ .ok a := by
    intro a h
    unfold seedConflict at h
    split at h
    · obtain ⟨a₁,h1,h2⟩ := except_bind_ok h
      obtain ⟨a₂,h3,_⟩ := except_bind_ok h2
      rw [hneed _ _ a₁ h1 rfl] at h3
      cases h3
    · split at h
      · obtain ⟨a₁,h1,h2⟩ := except_bind_ok h
        rw [hneed _ _ { a₁ with conflictClause := none } h1 rfl] at h2
        cases h2
      · split at h
        · unfold seedProp at h
          split_ifs at h
          obtain ⟨a₁,h1,h2⟩ := except_bind_ok h
          rw [hneed _ _ a₁ h1 rfl] at h2
          cases h2
        · cases h
  unfold lcgAnalyzeConflict analyze
  split
  · rfl
  · rw [if_neg (by omega)]
    unfold resolved
    cases hs : seedConflict x s (Analysis.start s) with
    | error a => rfl
    | ok a => exact absurd hs (hseed a)

end Deep

/-- In every state a search reaches, whatever the conflict, analysis leaves the bounds as
they were; and when the first cut fits a clause, every solution satisfies the clause it
returns. -/
theorem lcgAnalyzeConflict_sound {C : (ℕ → BitVec 64) → Prop} {x : Explainers} {s₀ s : Engine}
    {log : List ℕ} {fs : List Frame} (h₀ : Fresh s₀.ctx) (h : SearchRun s₀ s log fs)
    (hlevel : 0 < s.ctx.decisionLevel) (hc : ConflictOk C x s) (hx : ExplainersOk C x s) :
    (lcgAnalyzeConflict x s).2.ctx.vars = s.ctx.vars ∧
    ∀ clause, (lcgAnalyzeConflict x s).1 = some clause → CutFits x s →
      ∀ σ, Solution C s σ → ∃ l ∈ clause.lits, litSat s.ctx.vars σ l := by
  refine ⟨lcgAnalyzeConflict_vars x s,fun clause hclause hfits σ hσ => ?_⟩
  have hinv := (h.inv h₀).1
  by_cases hlt : s.ctx.decisionLevel < 2^16
  · exact lcgAnalyzeConflict_implied hlevel (hinv.trailOk hlt) hc ⟨hinv.clauseReasons,hx⟩ hclause
      hfits hσ
  · rw [lcgAnalyzeConflict_deep hlevel fun e he => by
      have := hinv.entries.small e he
      omega] at hclause
    cases hclause

/-- Variables over 0 and 1, and no propagator of their own. -/
def bitVars (n : ℕ) : Engine where
  ctx := {
    vars := fun _ => ⟨0#32,1#32,(0#64,0#64),1,false,false,false,false⟩
    nVars := n
    props := fun r => ⟨none,r,0,false,false,.done .ok⟩
    poolTop := 1
    nProps := 0
    propRefs := fun _ => none
    propCapacity := 0
    guardVars := fun _ => none
    guardIx := none
    guardDirty := false
    growable := true
    watchers := fun _ => []
    queue := .empty
    unassignedMask := 0#64
    dynamic := []
    trailTop := none
    trailCount := 0
    entailTop := none
    levelMarks := fun _ => ⟨0,none,0,none⟩
    decisionLevel := 0
    currentPropRef := none
    currentFlags := 0 }
  db := some ⟨fun _ => none,0,fun _ => [],fun _ => [],n,false,false,[],2*n+64⟩
  aborted := false
  conflictProp := some 0
  conflictClause := none
  fires := 0
  ticks := 0

def Engine.withCtx (s : Engine) (f : Ctx → Ctx) : Engine := { s with ctx := f s.ctx }

def raised (s : Engine) : ℕ → Engine
  | 0 => s
  | k+1 => (raised s k).withCtx (Op.tighten .lb32 k 1#64).run

/-- One level in which `k` variables rise to 1, and one in which the last rises. -/
def allRaised (k : ℕ) : Engine :=
  let s := raised ((bitVars (k+1)).withCtx trailPushLevel) k
  (s.withCtx trailPushLevel).withCtx (Op.tighten .lb32 k 1#64).run

def watchAll (n : ℕ) : Explainers := ⟨fun _ => none,fun _ => false,fun _ => List.range n⟩

def NotAllOne (n : ℕ) (σ : ℕ → BitVec 64) : Prop := ∃ i < n, σ i ≠ 1#64

structure RaisedOk (k : ℕ) : Prop where
  live : ∀ i ≤ k, varLive ((raised ((bitVars (k+1)).withCtx trailPushLevel) i).ctx.vars i) = true
  flags : ∀ i ≤ k,
    ((raised ((bitVars (k+1)).withCtx trailPushLevel) i).ctx.currentFlags.testBit 1) = false
  level : (allRaised k).ctx.decisionLevel = 2
  nVars : (allRaised k).ctx.nVars = k+1
  one : ∀ v ≤ k, (allRaised k).ctx.vars v = ⟨1#32,1#32,(0#64,0#64),1,false,false,false,false⟩
  decisions : ∀ e ∈ trailEntries (allRaised k).ctx, e.propRef = none

theorem bitVars_fresh (n : ℕ) : Fresh (bitVars n).ctx := by
  refine ⟨⟨⟨_,QueueOk.of_empty rfl fun _ => rfl⟩,⟨by simp [bitVars],by simp [bitVars]⟩,
    fun _ _ => by simp [bitVars,nLevels],by simp [bitVars],by simp [bitVars]⟩,rfl,fun i _ _ _ => ?_⟩
  simp [bitVars]

theorem raised_run (hk : RaisedOk k) {i : ℕ} (hi : i ≤ k) :
    ∃ fs, SearchRun (bitVars (k+1)) (raised ((bitVars (k+1)).withCtx trailPushLevel) i) [] fs := by
  induction i with
  | zero => exact ⟨_,.push .init⟩
  | succ i ih =>
    obtain ⟨fs,hrun⟩ := ih (by omega)
    exact ⟨fs,.op hrun (.tighten .lb32 i 1#64) trivial ⟨hk.live i (by omega),hk.flags i (by omega)⟩⟩

theorem allRaised_run (hk : RaisedOk k) : ∃ fs, SearchRun (bitVars (k+1)) (allRaised k) [] fs := by
  obtain ⟨fs,hrun⟩ := raised_run hk (le_refl k)
  exact ⟨_,.op (.push hrun) (.tighten .lb32 k 1#64) trivial ⟨hk.live k (le_refl k),hk.flags k (le_refl k)⟩⟩

theorem raised_rest (s : Engine) (k : ℕ) : raised s k = { s with ctx := (raised s k).ctx } := by
  induction k with
  | zero => rfl
  | succ k ih =>
    rw [raised,ih]
    rfl

theorem allRaised_clauseAt (k ci : ℕ) : clauseAt (allRaised k) ci = none := by
  unfold allRaised
  rw [raised_rest]
  rfl

theorem allRaised_conflictClause (k : ℕ) : (allRaised k).conflictClause = none := by
  unfold allRaised
  rw [raised_rest]
  rfl

theorem litSat_one {v : ℕ}
    (hv : vars v = ⟨1#32,1#32,(0#64,0#64),1,false,false,false,false⟩) (isLb : Bool) :
    litSat vars σ ⟨v,isLb,1#64⟩ ↔ if isLb then 1 ≤ (σ v).toInt else (σ v).toInt ≤ 1 := by
  unfold litSat
  rw [litHolds_iff,hv]
  cases isLb <;> simp [varOrd]

theorem not_litSat_zero {v : ℕ}
    (hv : vars v = ⟨1#32,1#32,(0#64,0#64),1,false,false,false,false⟩) (hσ : σ v = 1#64) :
    ¬litSat vars σ ⟨v,false,0#64⟩ := by
  unfold litSat
  rw [litHolds_iff,hv,hσ]
  simp [varOrd]

theorem allRaised_conflict (hk : RaisedOk k) :
    ConflictOk (NotAllOne (k+1)) (watchAll (k+1)) (allRaised k) := by
  refine ⟨fun _ ci lits h => ?_,fun _ _ ref _ σ hσ hl => ?_⟩
  · rw [allRaised_conflictClause] at h
    cases h
  · obtain ⟨i,hi,hne⟩ := hσ
    have hone := hk.one i (by omega)
    have hmem : ∀ isLb, (⟨i,isLb,1#64⟩ : Literal) ∈
        watchLits (allRaised k).ctx ((watchAll (k+1)).watchedVars ref) := by
      intro isLb
      unfold watchLits
      rw [List.mem_flatMap]
      refine ⟨i,List.mem_filter.mpr ⟨List.mem_range.mpr hi,by simpa [hk.nVars] using hi⟩,?_⟩
      rw [hone]
      cases isLb <;> simp [varLo64,varHi64,Variable.tier0]
    have hlo := (litSat_one hone true).mp (hl _ (List.mem_append_left _ (hmem true)))
    have hhi := (litSat_one hone false).mp (hl _ (List.mem_append_left _ (hmem false)))
    refine hne (BitVec.eq_of_toInt_eq ?_)
    rw [le_antisymm hhi hlo]
    rfl

theorem allRaised_explainers (C : (ℕ → BitVec 64) → Prop) (hk : RaisedOk k) :
    ExplainersOk C (watchAll (k+1)) (allRaised k) := by
  intro pre e rest ref f need lits hes _ _ href
  rw [hk.decisions e (by rw [hes]; simp)] at href
  cases href

theorem Cut.add_size (c : Ctx) (k : Cut) (l : Literal) : (k.add c l).size ≤ k.size+1 := by
  unfold Cut.add Cut.size
  split
  · omega
  · split_ifs
    · have := Finset.card_insert_le (l.varId,l.isLb) k.lower
      dsimp only
      omega
    · have := Finset.card_insert_le (l.varId,l.isLb) k.slots
      dsimp only [Cut.need]
      omega
    · omega

theorem Cut.adds_size (c : Ctx) (k : Cut) (ls : List Literal) : (k.adds c ls).size ≤ k.size+ls.length := by
  induction ls generalizing k with
  | nil => exact le_refl _
  | cons l ls ih =>
    have h1 := ih (k.add c l)
    have h2 := k.add_size c l
    rw [List.length_cons]
    exact h1.trans (by omega)

/-- Where all entries are decisions, the cut is what the conflict names. -/
theorem Resolves.of_decisions {x : Explainers} {s : Engine} {crossing : Option (ℕ × Bool)}
    {pre es : List TrailEntry} {k k' : Cut} (h : Resolves x s crossing pre es k k')
    (hdec : ∀ e ∈ es, e.propRef = none) : k' = k := by
  induction h with
  | closed | last | decision => rfl
  | pass _ _ _ ih => exact ih fun e he => hdec e (List.mem_cons_of_mem _ he)
  | clause _ _ _ _ hl =>
    rw [hdec _ List.mem_cons_self] at hl
    cases hl
  | prop _ _ _ _ hp =>
    rw [hdec _ List.mem_cons_self] at hp
    cases hp

/-- Two variables that may not both be 1: the clause says so. -/
theorem lcgAnalyzeConflict_sound_two :
    (lcgAnalyzeConflict (watchAll 2) (allRaised 1)).1.map LearntClause.lits =
      some [⟨1,false,0#64⟩,⟨0,false,0#64⟩] ∧
    (lcgAnalyzeConflict (watchAll 2) (allRaised 1)).2.ctx.vars = (allRaised 1).ctx.vars ∧
    ∀ clause, (lcgAnalyzeConflict (watchAll 2) (allRaised 1)).1 = some clause →
      ∀ σ, Solution (NotAllOne 2) (allRaised 1) σ →
        ∃ l ∈ clause.lits, litSat (allRaised 1).ctx.vars σ l := by
  have hk : RaisedOk 1 := ⟨by decide +kernel,by decide +kernel,by decide +kernel,by decide +kernel,
    by decide +kernel,by decide +kernel⟩
  obtain ⟨fs,hrun⟩ := allRaised_run hk
  obtain ⟨hvars,hsound⟩ := lcgAnalyzeConflict_sound (bitVars_fresh 2) hrun (by rw [hk.level]; decide)
    (allRaised_conflict hk) (allRaised_explainers _ hk)
  refine ⟨by decide +kernel,hvars,fun clause hclause σ hσ => hsound clause hclause ?_ σ hσ⟩
  intro k hcut _
  obtain rfl := hcut.of_decisions hk.decisions
  have hlits : (conflictLits (watchAll 2) (allRaised 1)).1.length ≤ maxClauseLits := by decide +kernel
  exact (Cut.adds_size _ _ _).trans ((Nat.zero_add _).trans_le hlits)

/-- With 64 literals in the clause body the one of the current level finds no room: the
clause excludes an assignment that the constraint allows. -/
theorem lcgAnalyzeConflict_drops_literal : ∃ C x s₀ s log fs, Fresh s₀.ctx ∧
    SearchRun s₀ s log fs ∧ 0 < s.ctx.decisionLevel ∧ ConflictOk C x s ∧ ExplainersOk C x s ∧
    ∃ clause, (lcgAnalyzeConflict x s).1 = some clause ∧ clause.lits.length = maxClauseLits ∧
      ∃ σ, Solution C s σ ∧ ¬∃ l ∈ clause.lits, litSat s.ctx.vars σ l := by
  have hk : RaisedOk 64 := ⟨by decide +kernel,by decide +kernel,by decide +kernel,by decide +kernel,
    by decide +kernel,by decide +kernel⟩
  obtain ⟨fs,hrun⟩ := allRaised_run hk
  refine ⟨NotAllOne 65,watchAll 65,bitVars 65,allRaised 64,[],fs,bitVars_fresh 65,hrun,
    by rw [hk.level]; decide,allRaised_conflict hk,allRaised_explainers _ hk,?_⟩
  have hres : ((lcgAnalyzeConflict (watchAll 65) (allRaised 64)).1.map fun c =>
      (c.lits.length,c.lits.all fun l => l.varId < 64 && l.isLb == false && l.bound == 0#64)) =
        some (64,true) := by
    decide +kernel
  obtain ⟨clause,hclause,hc⟩ := Option.map_eq_some_iff.mp hres
  simp only [Prod.mk.injEq] at hc
  refine ⟨clause,hclause,hc.1,fun i => if i < 64 then 1#64 else 0#64,⟨⟨64,by omega,by simp⟩,?_,?_⟩,?_⟩
  · intro ci lits h
    cases h
  · unfold withinRoot litSat
    rw [hk.nVars]
    decide +kernel
  · rintro ⟨⟨v,isLb,b⟩,hl,hsat⟩
    have hlit := List.all_eq_true.mp hc.2 _ hl
    simp only [Bool.and_eq_true,decide_eq_true_eq,beq_iff_eq] at hlit
    obtain ⟨⟨hv,rfl⟩,rfl⟩ := hlit
    exact not_litSat_zero (hk.one v (by omega)) (by simp [hv]) hsat

end Solver
end DvSolve
