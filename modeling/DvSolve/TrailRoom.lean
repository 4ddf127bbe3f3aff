import DvSolve.TrailSem

/-! Trail records that find no room. A bound is stored before its entry is allocated, and most
callers do not look at the result. -/
namespace DvSolve
namespace Solver

/-- `trail_record_lb` and `trail_record_ub`, with `room` for the entry or not: whether they
return 0. -/
def recordIn (room : Bool) (k : TrailKind) (c : Ctx) (id : ℕ) (new : BitVec 64) : Bool × Ctx :=
  let v := c.vars id
  if v.tier0 || v.tier1 then
    let c := c.setVar id (setBound v k new)
    if room then
      (true,pushEntry c ⟨none,id,k,if v.tier0 then .size32 else .size64,c.decisionLevel % 2^16,
        storedBound v k,c.currentPropRef,c.currentFlags⟩)
    else (false,c)
  else (false,c)

def recordHoleIn (room : Bool) (c : Ctx) (id : ℕ) (removed : BitVec 64) : Bool × Ctx :=
  if room then (true,trailRecordHole c id removed) else (false,c)

def markEntailedIn (room : Bool) (c : Ctx) (ref : ℕ) : Ctx :=
  if room then trailMarkEntailed c ref else c

def ctxTightenLb32In (room : Bool) (c : Ctx) (id : ℕ) (new : BitVec 32) : PropResult × Ctx :=
  if new.sle (c.vars id).lo then (.ok,c)
  else afterTighten32 (recordIn room .lb c id (new.signExtend 64)).2 id

def ctxTightenUb32In (room : Bool) (c : Ctx) (id : ℕ) (new : BitVec 32) : PropResult × Ctx :=
  if (c.vars id).hi.sle new then (.ok,c)
  else afterTighten32 (recordIn room .ub c id (new.signExtend 64)).2 id

def ctxTightenLb64In (room : Bool) (c : Ctx) (id : ℕ) (new : BitVec 64) : PropResult × Ctx :=
  let v := c.vars id
  if !varBGt v new (varLo64 v) then (.ok,c)
  else if varBGt v new (varReprMax v) then (.conflict,c)
  else afterTighten64 (recordIn room .lb c id new).2 id

def ctxTightenUb64In (room : Bool) (c : Ctx) (id : ℕ) (new : BitVec 64) : PropResult × Ctx :=
  let v := c.vars id
  if !varBLt v new (varHi64 v) then (.ok,c)
  else if varBLt v new (varReprMin v) then (.conflict,c)
  else afterTighten64 (recordIn room .ub c id new).2 id

def ctxTightenIn (room : Bool) (t : Tighten) (c : Ctx) (id : ℕ) (b : BitVec 64) :
    PropResult × Ctx :=
  match t with
  | .lb32 => ctxTightenLb32In room c id (b.setWidth 32)
  | .ub32 => ctxTightenUb32In room c id (b.setWidth 32)
  | .lb64 => ctxTightenLb64In room c id b
  | .ub64 => ctxTightenUb64In room c id b

def Tighten.record (t : Tighten) (v : Variable) (b : BitVec 64) : Option (TrailKind × BitVec 64) :=
  match t with
  | .lb32 => if (b.setWidth 32).sle v.lo then none else some (.lb,(b.setWidth 32).signExtend 64)
  | .ub32 => if v.hi.sle (b.setWidth 32) then none else some (.ub,(b.setWidth 32).signExtend 64)
  | .lb64 =>
    if !varBGt v b (varLo64 v) then none
    else if varBGt v b (varReprMax v) then none else some (.lb,b)
  | .ub64 =>
    if !varBLt v b (varHi64 v) then none
    else if varBLt v b (varReprMin v) then none else some (.ub,b)

section Records

variable {c : Ctx} {k : TrailKind} {id : ℕ} {new b : BitVec 64} {room : Bool}

theorem recordIn_room : (recordIn true k c id new).2 = trailRecord k c id new := by
  unfold recordIn trailRecord
  simp only [if_true]
  split_ifs <;> rfl

theorem ctxTightenIn_cases (t : Tighten) : match t.record (c.vars id) b with
    | none => (ctxTightenIn room t c id b).2 = c
    | some (k,new) => ∃ empty single, (ctxTightenIn room t c id b).2 =
        (afterTighten (recordIn room k c id new).2 id empty single).2 := by
  cases t
  · simp only [Tighten.record,ctxTightenIn,ctxTightenLb32In]
    split_ifs
    · rfl
    · exact ⟨_,_,rfl⟩
  · simp only [Tighten.record,ctxTightenIn,ctxTightenUb32In]
    split_ifs
    · rfl
    · exact ⟨_,_,rfl⟩
  · simp only [Tighten.record,ctxTightenIn,ctxTightenLb64In]
    split_ifs
    · rfl
    · rfl
    · exact ⟨_,_,rfl⟩
  · simp only [Tighten.record,ctxTightenIn,ctxTightenUb64In]
    split_ifs
    · rfl
    · rfl
    · exact ⟨_,_,rfl⟩

/-- The variable keeps no bounds of its own, or the bound is the one it has. -/
def Held (v : Variable) (k : TrailKind) (new : BitVec 64) : Prop :=
  match k with
  | .lb => if v.tier0 then v.lo = new.setWidth 32 else v.tier1 = true → v.wide.1 = new
  | .ub => if v.tier0 then v.hi = new.setWidth 32 else v.tier1 = true → v.wide.2 = new
  | .hole => True

theorem setBound_eq_iff {v : Variable} : setBound v k new = v ↔ Held v k new := by
  cases k with
  | lb =>
    simp only [setBound,Held]
    split_ifs with h0 h1
    · exact ⟨fun h => (congrArg Variable.lo h).symm,fun h => by rw [← h]⟩
    · exact ⟨fun h _ => (congrArg (fun v => v.wide.1) h).symm,fun h => by rw [← h h1]⟩
    · simp [h1]
  | ub =>
    simp only [setBound,Held]
    split_ifs with h0 h1
    · exact ⟨fun h => (congrArg Variable.hi h).symm,fun h => by rw [← h]⟩
    · exact ⟨fun h _ => (congrArg (fun v => v.wide.2) h).symm,fun h => by rw [← h h1]⟩
    · simp [h1]
  | hole => simp [setBound,Held]

theorem setBound_untiered {v : Variable} (h : ¬(v.tier0 || v.tier1) = true) :
    setBound v k new = v := by
  rw [Bool.or_eq_true,not_or] at h
  cases k <;> simp [setBound,h.1,h.2]

theorem recordIn_failed (h : (recordIn room k c id new).1 = false) :
    (recordIn room k c id new).2 = c.setVar id (setBound (c.vars id) k new) := by
  unfold recordIn at h ⊢
  by_cases ht : ((c.vars id).tier0 || (c.vars id).tier1) = true
  · rw [if_pos ht] at h ⊢
    split_ifs at h ⊢
    rfl
  · rw [if_neg ht,setBound_untiered ht,c.setVar_self]

theorem recordIn_failed_iff (h : (recordIn room k c id new).1 = false) :
    (recordIn room k c id new).2.vars id = c.vars id ↔ Held (c.vars id) k new := by
  rw [recordIn_failed h,← setBound_eq_iff]
  simp [Ctx.setVar]

theorem recordIn_false : (recordIn false k c id new).1 = false := by
  unfold recordIn
  dsimp only
  split_ifs <;> trivial

theorem recordIn_cases (h : room = true ∨ Held (c.vars id) k new) :
    (recordIn room k c id new).2 = c ∨ (recordIn room k c id new).2 = trailRecord k c id new := by
  cases room with
  | true => exact .inr recordIn_room
  | false =>
    left
    rw [recordIn_failed recordIn_false,setBound_eq_iff.mpr (h.resolve_left (by simp)),c.setVar_self]

end Records

/-- An operation of the trail, or a bound recorded by itself. -/
inductive Try
  | op (o : Op)
  | record (k : TrailKind) (id : ℕ) (new : BitVec 64)

def Try.run (room : Bool) (t : Try) (c : Ctx) : Ctx :=
  match t with
  | .op (.tighten t id b) => (ctxTightenIn room t c id b).2
  | .op (.hole id removed) => (recordHoleIn room c id removed).2
  | .op (.markEntailed ref) => markEntailedIn room c ref
  | .op o => o.run c
  | .record k id new => (recordIn room k c id new).2

def Try.Valid (c : Ctx) : Try → Prop
  | .op o => o.Valid c
  | .record _ _ _ => True

def Try.marks (room : Bool) : Try → List ℕ
  | .op o => if room then o.marks else []
  | .record _ _ _ => []

def Try.Spared (c : Ctx) (t : Try) (room : Bool) : Prop :=
  match t with
  | .op (.tighten t id b) =>
    room = true ∨ ∀ k new, t.record (c.vars id) b = some (k,new) → Held (c.vars id) k new
  | .record k id new => room = true ∨ Held (c.vars id) k new
  | _ => True

structure Recovers (marks : List ℕ) (c c' : Ctx) : Prop where
  ok : c'.Ok
  evolves : ∀ s new, Evolves s new c → Evolves s (new ++ marks) c'

section Try

variable {c : Ctx}

theorem Recovers.quiet {c' : Ctx} (h : QuietOk c c') : Recovers [] c c' :=
  ⟨h.2,fun s new he => by simpa using he.quiet h.1⟩

theorem Recovers.op (hok : c.Ok) {o : Op} (ho : o.Valid c) : Recovers o.marks c (o.run c) :=
  ⟨o.run_ok hok ho,fun _ _ he => o.run_evolves hok ho he⟩

theorem Recovers.refl (hok : c.Ok) : Recovers [] c c := .quiet ⟨.refl c,hok⟩

theorem Recovers.trailRecord (hok : c.Ok) (k : TrailKind) (id : ℕ) (new : BitVec 64) :
    Recovers [] c (trailRecord k c id new) := by
  rcases trailRecord_cases k c id new with hr | ⟨v,e,hid,hv,hr⟩
  · rw [hr]
    exact .refl hok
  · rw [hr]
    exact ⟨pushEntry_ok hok id v e,fun s new he => by simpa using he.pushEntry hid hv⟩

theorem Recovers.record {k : TrailKind} {id : ℕ} {new : BitVec 64} {room : Bool} (hok : c.Ok)
    (h : room = true ∨ Held (c.vars id) k new) : Recovers [] c (recordIn room k c id new).2 := by
  rcases recordIn_cases h with he | he
  · rw [he]
    exact .refl hok
  · rw [he]
    exact .trailRecord hok k id new

theorem Recovers.trans {c' c'' : Ctx} {m m' : List ℕ} (h : Recovers m c c')
    (h' : Recovers m' c' c'') : Recovers (m ++ m') c c'' :=
  ⟨h'.ok,fun s new he => by simpa using h'.evolves s _ (h.evolves s new he)⟩

theorem Try.run_recovers (hok : c.Ok) {t : Try} {room : Bool} (ht : t.Valid c)
    (hs : t.Spared c room) : Recovers (t.marks room) c (t.run room c) := by
  cases t with
  | record k id new => exact .record hok hs
  | op o =>
    cases o with
    | tighten t id b =>
      have hm : (Try.op (.tighten t id b)).marks room = [] := by
        cases room <;> rfl
      rw [hm]
      simp only [Try.run]
      have hcases := @ctxTightenIn_cases c id b room t
      cases hr : t.record (c.vars id) b with
      | none =>
        rw [hr] at hcases
        rw [hcases]
        exact .refl hok
      | some p =>
        rw [hr] at hcases
        obtain ⟨empty,single,he⟩ := hcases
        rw [he]
        have hrec : Recovers [] c (recordIn room p.1 c id p.2).2 :=
          .record hok (hs.imp_right fun h => h p.1 p.2 hr)
        exact hrec.trans (.quiet (afterTighten_quiet hrec.ok _ _ _))
    | hole id removed =>
      cases room with
      | true => exact .op (o:=.hole id removed) hok ht
      | false => exact .refl hok
    | markEntailed ref =>
      cases room with
      | true => exact .op (o:=.markEntailed ref) hok ht
      | false => exact .refl hok
    | enqueue ref =>
      have h := Recovers.op (o:=.enqueue ref) hok ht
      cases room <;> exact h
    | setReason ref flags =>
      have h := Recovers.op (o:=.setReason ref flags) hok ht
      cases room <;> exact h

end Try

/-- The states of runs in which any record may find no room, among the operations `P` admits. -/
inductive RunIn (P : Ctx → Try → Bool → Prop) (c₀ : Ctx) : Ctx → List ℕ → List Frame → Prop
  | init : RunIn P c₀ c₀ [] []
  | step {c : Ctx} {log : List ℕ} {fs : List Frame} (h : RunIn P c₀ c log fs) (t : Try)
      (room : Bool) (ht : t.Valid c) (hp : P c t room) :
      RunIn P c₀ (t.run room c) (log ++ t.marks room) fs
  | push {c : Ctx} {log : List ℕ} {fs : List Frame} (h : RunIn P c₀ c log fs) :
      RunIn P c₀ (trailPushLevel c) log
        (⟨c,log⟩ :: fs.filter fun f => f.start.decisionLevel < c.decisionLevel)
  | back {c c' : Ctx} {log : List ℕ} {above fs : List Frame} {f : Frame}
      (h : RunIn P c₀ c log (above ++ f :: fs))
      (hb : trailBacktrack c f.start.decisionLevel = some c') : RunIn P c₀ c' f.log (f :: fs)

section RunIn

variable {c₀ c c' : Ctx} {log m : List ℕ} {fs above : List Frame} {f : Frame}

theorem FramesOk.recovers (hr : Recovers m c c') (h : FramesOk c log fs) :
    FramesOk c' (log ++ m) fs := by
  cases fs with
  | nil => trivial
  | cons f fs =>
    obtain ⟨hf,⟨new,hlog,hev⟩,hlt,hrest⟩ := h
    refine ⟨hf,⟨new ++ m,?_,hr.evolves _ _ hev⟩,hlt,hrest⟩
    rw [hlog,List.append_assoc]

theorem FramesOk.push (hok : c.Ok) (h : FramesOk c log fs) : FramesOk (trailPushLevel c) log
    (⟨c,log⟩ :: fs.filter fun f => f.start.decisionLevel < c.decisionLevel) := by
  refine ⟨hok,⟨[],by simp,Evolves.push c⟩,fun g hg => ?_,h.filter _⟩
  simpa using (List.mem_filter.mp hg).2

theorem FramesOk.back (hok : c.Ok) (h : FramesOk c log (above ++ f :: fs))
    (hb : trailBacktrack c f.start.decisionLevel = some c') :
    c'.Ok ∧ FramesOk c' f.log (f :: fs) := by
  obtain ⟨hf,⟨new,hlog,hev⟩,hlt,hrest⟩ := h.drop
  obtain ⟨q,hq⟩ := hok.queue
  rw [hev.trailBacktrack hf.tops hq,Option.some.injEq] at hb
  subst hb
  exact ⟨restored_ok hok hf.tops,hf,⟨[],by simp,hev.restored⟩,hlt,hrest⟩

theorem RunIn.ok (h₀ : c₀.Ok) (h : RunIn Try.Spared c₀ c log fs) : c.Ok ∧ FramesOk c log fs := by
  induction h with
  | init => exact ⟨h₀,trivial⟩
  | step _ t room ht hs ih =>
    have hr := t.run_recovers ih.1 ht hs
    exact ⟨hr.ok,ih.2.recovers hr⟩
  | push _ ih => exact ⟨trailPushLevel_ok ih.1,ih.2.push ih.1⟩
  | back _ hb ih => exact ih.2.back ih.1 hb

theorem RunIn.restores (h₀ : c₀.Ok) (h : RunIn Try.Spared c₀ c log (above ++ f :: fs)) :
    ∃ c', trailBacktrack c f.start.decisionLevel = some c' ∧ c'.vars = f.start.vars := by
  obtain ⟨hok,hframes⟩ := h.ok h₀
  obtain ⟨hf,⟨new,_,hev⟩,_,_⟩ := hframes.drop
  obtain ⟨q,hq⟩ := hok.queue
  exact ⟨_,hev.trailBacktrack hf.tops hq,rfl⟩

theorem recordIn_failed_back {k : TrailKind} {id : ℕ} {new : BitVec 64} (hok : c.Ok) :
    ∃ c', trailBacktrack (recordIn false k (trailPushLevel c) id new).2 c.decisionLevel = some c' ∧
      (c'.vars = c.vars ↔ Held (c.vars id) k new) := by
  have hpush : (recordIn false k (trailPushLevel c) id new).2 =
      trailPushLevel (c.setVar id (setBound (c.vars id) k new)) :=
    recordIn_failed recordIn_false
  obtain ⟨q,hq⟩ := hok.queue
  have hev := Evolves.push (c.setVar id (setBound (c.vars id) k new))
  refine ⟨_,by
    rw [hpush]
    exact hev.trailBacktrack ⟨hok.tops.trail,hok.tops.entail⟩
      (hq.congr rfl rfl fun _ => ⟨rfl,rfl,rfl⟩),?_⟩
  rw [← setBound_eq_iff]
  exact ⟨fun h => by simpa [restored,Ctx.setVar] using congrFun h id,fun h => by
    rw [h,c.setVar_self]
    rfl⟩

/-- A record that returns -1 leaves the variable alone exactly when the bound is one it has, and
when that is so for every record of a run, a backtrack restores the bounds of its level. -/
theorem failed_record_exact (room : Bool) (k : TrailKind) (c : Ctx) (id : ℕ) (new : BitVec 64) :
    ((recordIn room k c id new).1 = false →
      ((recordIn room k c id new).2.vars id = c.vars id ↔ Held (c.vars id) k new)) ∧
    (∀ (c' : Ctx) (log : List ℕ) (above fs : List Frame) (f : Frame), c.Ok →
      RunIn Try.Spared c c' log (above ++ f :: fs) →
      ∃ d, trailBacktrack c' f.start.decisionLevel = some d ∧ d.vars = f.start.vars) ∧
    (c.Ok → ∃ d, trailBacktrack (recordIn false k (trailPushLevel c) id new).2 c.decisionLevel =
      some d ∧ (d.vars = c.vars ↔ Held (c.vars id) k new)) :=
  ⟨recordIn_failed_iff,fun _ _ _ _ _ h₀ h => h.restores h₀,fun hok => recordIn_failed_back hok⟩

/-- A bound recorded again finds no room; the one recorded before is taken back. -/
theorem failed_record_exact_again :
    ((recordIn false .ub oneProp 0 10#64).2.vars 0 = oneProp.vars 0 ↔ Held (oneProp.vars 0) .ub 10#64) ∧
    (∃ c', trailBacktrack ((Try.record .lb 0 3#64).run false
      ((Try.op (.tighten .lb32 0 3#64)).run true (trailPushLevel oneProp))) 0 = some c' ∧
      c'.vars = oneProp.vars) ∧
    ∃ c', trailBacktrack (recordIn false .ub (trailPushLevel oneProp) 0 5#64).2 0 = some c' ∧
      (c'.vars = oneProp.vars ↔ Held (oneProp.vars 0) .ub 5#64) := by
  have hrun : RunIn Try.Spared oneProp _ _ ([] ++ ⟨oneProp,[]⟩ :: []) :=
    .step (.step (.push .init) (.op (.tighten .lb32 0 3#64)) true trivial (.inl rfl))
      (.record .lb 0 3#64) false trivial (.inr rfl)
  exact ⟨(failed_record_exact false .ub oneProp 0 10#64).1 rfl,
    (failed_record_exact false .ub oneProp 0 5#64).2.1 _ _ _ _ _ oneProp_ok hrun,
    (failed_record_exact false .ub oneProp 0 5#64).2.2 oneProp_ok⟩

/-- A lower bound of 3 that finds no room is still there after the backtrack. -/
theorem failed_record_wrong :
    (recordIn false .lb oneProp 0 3#64).1 = false ∧
    (recordIn false .lb oneProp 0 3#64).2.vars 0 ≠ oneProp.vars 0 ∧
    ∃ c c', RunIn (fun _ _ _ => True) oneProp c [] [⟨oneProp,[]⟩] ∧
      trailBacktrack c oneProp.decisionLevel = some c' ∧
      varLo64 (oneProp.vars 0) = 0#64 ∧ varLo64 (c'.vars 0) = 3#64 := by
  have hrun : RunIn (fun _ _ _ => True) oneProp _ _ _ :=
    .step (.push .init) (.op (.tighten .lb32 0 3#64)) false trivial trivial
  refine ⟨rfl,by decide,_,_,hrun,rfl,rfl,rfl⟩

end RunIn

end Solver
end DvSolve
