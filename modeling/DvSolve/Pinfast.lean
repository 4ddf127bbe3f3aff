import DvSolve.NodeVal

/-! The pinned-constant fast path: `_forced_inputs` and `_pinfast` of `dvs_bbsolver.c`.
A stored value is `none` where the source has 2, unknown. -/
namespace DvSolve
namespace Bbsolver

open Aig
open Function (update update_of_ne)
open List (length_cons mem_cons_self)

variable {ρ : ℕ → Bool} {wl : List ℤ} {tv : ℕ → Option Bool}

/-- The walk over the assertions not yet taken; `wl` is the worklist, its top first. -/
structure Forced where
  asserts : List ℤ
  wl : List ℤ
  tv : ℕ → Option Bool
  seen : Finset ℕ
  nForced : ℕ

inductive ForcedEnd
  | done (tv : ℕ → Option Bool) (nForced : ℕ)
  | unsat
  | giveUp

def forcedRound (m : Aig) (s : Forced) : Loop.Step Forced ForcedEnd :=
  match s.wl with
  | [] =>
    match s.asserts with
    | [] => .exit (.done s.tv s.nForced)
    | a :: asserts => .again { s with asserts := asserts, wl := [a] }
  | lit :: wl =>
    let s := { s with wl := wl }
    if lit = aigTrue then .again s
    else if lit = aigFalse then .exit .unsat
    else if lit = 0 then .exit .giveUp
    else
      let id := lit.natAbs
      if id > m.nodes.size then .exit .giveUp
      else if m.isInput id then
        let want := decide (lit > 0)
        match s.tv id with
        | none => .again { s with tv := update s.tv id (some want), nForced := s.nForced+1 }
        | some b => if b = want then .again s else .exit .unsat
      else if lit > 0 ∧ id ∉ s.seen ∧ m.isAndId lit then
        .again { s with
          seen := insert id s.seen
          wl := (m.childrenOf lit).2 :: (m.childrenOf lit).1 :: wl }
      else .again s

def forcedStart (asserts : List ℤ) : Forced :=
  ⟨asserts,[],fun id => if id = 0 then some false else if id = 1 then some true else none,∅,0⟩

def forcedInputs (m : Aig) (asserts : List ℤ) : Option ForcedEnd :=
  Loop.loop (forcedRound m) (2*asserts.length+2*(m.nodes.size+1)+1) (forcedStart asserts)

def triLit (tv : ℕ → Option Bool) (lit : ℤ) : Option Bool :=
  (tv lit.natAbs).map (· ^^ decide (lit < 0))

def triAnd (l r : Option Bool) : Option Bool :=
  if l = some false ∨ r = some false then some false
  else if l = some true ∧ r = some true then some true
  else none

def triNode (m : Aig) (tv : ℕ → Option Bool) (id : ℕ) : Option Bool :=
  if m.isAndId id then triAnd (triLit tv (m.childrenOf id).1) (triLit tv (m.childrenOf id).2)
  else tv id

def triPass (m : Aig) (tv : ℕ → Option Bool) : ℕ → Option Bool :=
  Sweep.sweep (triNode m) 2 (m.nodes.size-1) tv

def known (tv : ℕ → Option Bool) (id : ℕ) : Bool := (tv id).getD false

def fillNode (m : Aig) (seed : BitVec 64) (tv : ℕ → Option Bool) (id : ℕ) : Option Bool :=
  if m.isInput id then
    match tv id with
    | none => some (if seed = 0#64 then false else (freeVarFill seed id 0x50494e46).getLsbD 0)
    | some b => some b
  else if m.isAndId id then
    some (litVal (known tv) (m.childrenOf id).1 && litVal (known tv) (m.childrenOf id).2)
  else tv id

def fillPass (m : Aig) (seed : BitVec 64) (tv : ℕ → Option Bool) : ℕ → Option Bool :=
  Sweep.sweep (fillNode m seed) 2 (m.nodes.size-1) tv

inductive Fast
  | sat (nv : ℕ → Bool)
  | unsat
  | unknown

def pinfastEnd (m : Aig) (asserts : List ℤ) (seed : BitVec 64) : ForcedEnd → Fast
  | .done tv _ =>
    let tv := triPass m tv
    if asserts.any (triLit tv · = some false) then .unsat
    else if asserts.any (triLit tv · = none) then .unknown
    else .sat (known (fillPass m seed tv))
  | .unsat => .unsat
  | .giveUp => .unknown

/-- `_pinfast`; `ready` says that the path is switched on, no assertion is lost and the
buffers are allocated. -/
def pinfast (m : Aig) (ready : Bool) (asserts : List ℤ) (seed : BitVec 64) : Fast :=
  if !ready ∨ asserts = [] ∨ m.nodes.size = 0 then .unknown
  else
    match forcedInputs m asserts with
    | some r => pinfastEnd m asserts seed r
    | none => .unknown

def Agrees (m : Aig) (ρ : ℕ → Bool) (tv : ℕ → Option Bool) : Prop :=
  ∀ id b, tv id = some b → id = 0 ∨ m.evalNode ρ id = b

structure Forced.Good (m : Aig) (asserts : List ℤ) (s : Forced) : Prop where
  sound : ∀ ρ, (∀ a ∈ asserts, m.evalLit ρ a = true) →
    (∀ a ∈ s.asserts, m.evalLit ρ a = true) ∧ (∀ l ∈ s.wl, m.evalLit ρ l = true) ∧ Agrees m ρ s.tv
  valid : ∀ a ∈ asserts, a ∈ s.asserts ∨ a ∈ s.wl ∨ m.Valid a
  inputs : ∀ id, 2 ≤ id → s.tv id ≠ none → m.isInput id = true
  ends : s.tv 0 = some false ∧ s.tv 1 = some true
  seen : ∀ id ∈ s.seen, 2 ≤ id ∧ id ≤ m.nodes.size
  room : s.wl.length ≤ s.seen.card+1

def ForcedEnd.Right (m : Aig) (asserts : List ℤ) : ForcedEnd → Prop
  | .done tv _ => (∀ ρ, (∀ a ∈ asserts, m.evalLit ρ a = true) → Agrees m ρ tv) ∧
      (∀ a ∈ asserts, m.Valid a) ∧ (∀ id, 2 ≤ id → tv id ≠ none → m.isInput id = true) ∧
      tv 0 = some false ∧ tv 1 = some true
  | .unsat => ¬ Aigsim.Satisfiable m asserts
  | .giveUp => True

/-- Literals still to be walked, and two for each node not yet opened. -/
def Forced.variant (m : Aig) (s : Forced) : ℕ :=
  2*s.asserts.length+Loop.searchVariant 2 (Finset.range (m.nodes.size+1)) s.seen s.wl.length

variable {m : Aig} {asserts : List ℤ} {s : Forced}

theorem forcedStart_good : (forcedStart asserts).Good m asserts where
  sound := by
    intro ρ h
    refine ⟨h,by simp [forcedStart],fun id b hb => ?_⟩
    simp only [forcedStart] at hb
    split_ifs at hb with h0 h1
    · exact .inl h0
    · cases hb
      exact .inr (Aigsim.evalNode_le_one m ρ (by omega))
  valid := fun a ha => .inl ha
  inputs := by
    intro id hid h
    simp [forcedStart,show id ≠ 0 by omega,show id ≠ 1 by omega] at h
  ends := ⟨rfl,rfl⟩
  seen := by simp [forcedStart]
  room := by simp [forcedStart]

theorem evalLit_want {lit : ℤ} (h0 : lit ≠ 0) (h : m.evalLit ρ lit = true) :
    m.evalNode ρ lit.natAbs = decide (lit > 0) := by
  rw [evalLit] at h
  rcases lt_or_gt_of_ne h0 with hneg | hpos
  · simp only [hneg,decide_true,Bool.xor_true,Bool.not_eq_true'] at h
    rw [h,decide_eq_false (by omega)]
  · have hn : ¬ lit < 0 := by omega
    simp only [hn,decide_false,Bool.xor_false] at h
    rw [h,decide_eq_true hpos]

theorem Forced.Good.pop (h : s.Good m asserts) {lit : ℤ} (hwl : s.wl = lit :: wl) (hv : m.Valid lit) :
    ({ s with wl := wl } : Forced).Good m asserts where
  sound := by
    intro ρ hρ
    obtain ⟨h1,h2,h3⟩ := h.sound ρ hρ
    exact ⟨h1,fun l hl => h2 l (by rw [hwl]; exact List.mem_cons_of_mem _ hl),h3⟩
  valid := by
    intro a ha
    rcases h.valid a ha with h1 | h1 | h1
    · exact .inl h1
    · rw [hwl] at h1
      rcases List.mem_cons.mp h1 with rfl | h1
      · exact .inr (.inr hv)
      · exact .inr (.inl h1)
    · exact .inr (.inr h1)
  inputs := h.inputs
  ends := h.ends
  seen := h.seen
  room := by
    have := h.room
    rw [hwl,length_cons] at this
    change wl.length ≤ s.seen.card+1
    omega

theorem Forced.Good.force (h : s.Good m asserts) {lit : ℤ} (hwl : s.wl = lit :: wl)
    (hv : m.Valid lit) (h2 : 2 ≤ lit.natAbs) (hin : m.isInput lit.natAbs = true) :
    ({ s with
      wl := wl
      tv := update s.tv lit.natAbs (some (decide (lit > 0)))
      nForced := s.nForced+1 } : Forced).Good m asserts where
  sound := by
    intro ρ hρ
    obtain ⟨h1,_,h3⟩ := (h.pop hwl hv).sound ρ hρ
    refine ⟨h1,((h.pop hwl hv).sound ρ hρ).2.1,fun id b hb => ?_⟩
    change update s.tv lit.natAbs _ id = some b at hb
    by_cases hid : id = lit.natAbs
    · subst hid
      rw [Function.update_self,Option.some.injEq] at hb
      have hl := (h.sound ρ hρ).2.1 lit (by rw [hwl]; exact mem_cons_self)
      exact .inr ((evalLit_want hv.1 hl).trans hb)
    · rw [update_of_ne hid] at hb
      exact h3 id b hb
  valid := (h.pop hwl hv).valid
  inputs := by
    intro id hid hne
    by_cases hid' : id = lit.natAbs
    · rw [hid']
      exact hin
    · exact h.inputs id hid (by simpa [update_of_ne hid'] using hne)
  ends := by
    change update s.tv lit.natAbs _ 0 = _ ∧ update s.tv lit.natAbs _ 1 = _
    rw [update_of_ne (by omega),update_of_ne (by omega)]
    exact h.ends
  seen := h.seen
  room := (h.pop hwl hv).room

theorem Forced.Good.openAnd (hm : m.Wf) (h : s.Good m asserts) {lit : ℤ} (hwl : s.wl = lit :: wl)
    (hpos : lit > 0) (hnew : lit.natAbs ∉ s.seen) (hand : m.isAndId lit = true) :
    ({ s with
      wl := (m.childrenOf lit).2 :: (m.childrenOf lit).1 :: wl
      seen := insert lit.natAbs s.seen } : Forced).Good m asserts where
  sound := by
    intro ρ hρ
    obtain ⟨h1,h2,h3⟩ := h.sound ρ hρ
    have hl := h2 lit (by rw [hwl]; exact mem_cons_self)
    rw [hm.evalLit_and ρ hand,decide_eq_false (by omega),Bool.xor_false,Bool.and_eq_true] at hl
    refine ⟨h1,fun l hmem => ?_,h3⟩
    simp only [List.mem_cons] at hmem
    rcases hmem with rfl | rfl | hmem
    · exact hl.2
    · exact hl.1
    · exact h2 l (by rw [hwl]; exact List.mem_cons_of_mem _ hmem)
  valid := by
    obtain ⟨hge,hle,_⟩ := isAndId_iff.mp hand
    have hv : m.Valid lit := ⟨by omega,hle⟩
    intro a ha
    rcases (h.pop hwl hv).valid a ha with h1 | h1 | h1
    · exact .inl h1
    · exact .inr (.inl (List.mem_cons_of_mem _ (List.mem_cons_of_mem _ h1)))
    · exact .inr (.inr h1)
  inputs := h.inputs
  ends := h.ends
  seen := by
    intro id hid
    obtain ⟨hge,hle,_⟩ := isAndId_iff.mp hand
    rcases Finset.mem_insert.mp hid with rfl | hid
    · exact ⟨hge,hle⟩
    · exact h.seen id hid
  room := by
    have := h.room
    rw [hwl,length_cons] at this
    change wl.length+1+1 ≤ (insert lit.natAbs s.seen).card+1
    rw [Finset.card_insert_of_notMem hnew]
    omega

theorem forcedRound_good (hm : m.Wf) (hs : s.Good m asserts) :
    (forcedRound m s).Good (fun s => s.Good m asserts) (fun r => r.Right m asserts)
      (fun s => s.variant m) s := by
  unfold forcedRound
  cases hwl : s.wl with
  | nil =>
    cases ha : s.asserts with
    | nil =>
      refine ⟨fun ρ hρ => (hs.sound ρ hρ).2.2,fun a hmem => ?_,hs.inputs,hs.ends⟩
      simpa [ha,hwl] using hs.valid a hmem
    | cons a as =>
      refine ⟨⟨fun ρ hρ => ?_,fun b hb => ?_,hs.inputs,hs.ends,hs.seen,by simp⟩,?_⟩
      · obtain ⟨h1,_,h3⟩ := hs.sound ρ hρ
        rw [ha] at h1
        exact ⟨fun b hb => h1 b (List.mem_cons_of_mem _ hb),by simpa using h1 a mem_cons_self,h3⟩
      · rcases hs.valid b hb with h1 | h1 | h1
        · rw [ha] at h1
          rcases List.mem_cons.mp h1 with rfl | h1
          · exact .inr (.inl mem_cons_self)
          · exact .inl h1
        · simp [hwl] at h1
        · exact .inr (.inr h1)
      · simp only [Forced.variant,Loop.searchVariant,ha,hwl,length_cons,List.length_nil]
        omega
  | cons lit wl =>
    have hvar : ({ s with wl := wl } : Forced).variant m < s.variant m := by
      simp only [Forced.variant,Loop.searchVariant,hwl,length_cons]
      omega
    have htrue : ∀ ρ, (∀ a ∈ asserts, m.evalLit ρ a = true) → m.evalLit ρ lit = true := fun ρ hρ =>
      (hs.sound ρ hρ).2.1 lit (by rw [hwl]; exact mem_cons_self)
    dsimp only
    by_cases ht : lit = aigTrue
    · rw [if_pos ht]
      exact ⟨hs.pop hwl (ht ▸ hm.valid_true),hvar⟩
    rw [if_neg ht]
    by_cases hf : lit = aigFalse
    · rw [if_pos hf]
      rintro ⟨ρ,hρ⟩
      have := htrue ρ hρ
      rw [hf,evalLit_false] at this
      exact absurd this (by simp)
    rw [if_neg hf]
    by_cases h0 : lit = 0
    · rw [if_pos h0]
      trivial
    rw [if_neg h0]
    by_cases hsize : lit.natAbs > m.nodes.size
    · rw [if_pos hsize]
      trivial
    rw [if_neg hsize]
    have hv : m.Valid lit := ⟨h0,by omega⟩
    by_cases hin : m.isInput lit.natAbs = true
    · rw [if_pos hin]
      have h2 := (isInput_spec hin).1
      cases htv : s.tv lit.natAbs with
      | none => exact ⟨hs.force hwl hv h2 hin,hvar⟩
      | some b =>
        dsimp only
        by_cases hb : b = decide (lit > 0)
        · rw [if_pos hb]
          exact ⟨hs.pop hwl hv,hvar⟩
        · rw [if_neg hb]
          rintro ⟨ρ,hρ⟩
          rcases (hs.sound ρ hρ).2.2 _ _ htv with h | h
          · omega
          · exact hb (h.symm.trans (evalLit_want h0 (htrue ρ hρ)))
    rw [if_neg hin]
    by_cases hand : lit > 0 ∧ lit.natAbs ∉ s.seen ∧ m.isAndId lit = true
    · rw [if_pos hand]
      refine ⟨hs.openAnd hm hwl hand.1 hand.2.1 hand.2.2,?_⟩
      have hmem : lit.natAbs ∈ Finset.range (m.nodes.size+1) := Finset.mem_range.mpr (by omega)
      have hlt := Loop.searchVariant_visit 2 hmem hand.2.1
        (show wl.length+1+1 < s.wl.length+2 by rw [hwl,length_cons]; omega)
      exact Nat.add_lt_add_left hlt _
    · rw [if_neg hand]
      exact ⟨hs.pop hwl hv,hvar⟩

theorem forcedInputs_spec (hm : m.Wf) (asserts : List ℤ) :
    ∃ r, forcedInputs m asserts = some r ∧ r.Right m asserts := by
  refine Loop.loop_spec (Forced.variant m) (fun s hs => forcedRound_good hm hs) _ _
    forcedStart_good ?_
  simp only [Forced.variant,Loop.searchVariant,forcedStart,Finset.sdiff_empty,Finset.card_range,
    List.length_nil]
  omega

/-- The worklist never outgrows the nodes. -/
theorem forced_room (hm : m.Wf) {k : ℕ}
    (h : Loop.Reach (forcedRound m) k (forcedStart asserts) s) : s.wl.length ≤ m.nodes.size+1 := by
  have hgood : s.Good m asserts := by
    refine Loop.Reach.keeps (fun t u ht hstep => ?_) h forcedStart_good
    have := forcedRound_good hm ht
    rw [hstep] at this
    exact this.1
  have hcard : s.seen.card ≤ (Finset.Icc 1 m.nodes.size).card := by
    refine Finset.card_le_card fun id hid => ?_
    obtain ⟨h1,h2⟩ := hgood.seen id hid
    exact Finset.mem_Icc.mpr ⟨by omega,h2⟩
  have hroom := hgood.room
  rw [Nat.card_Icc] at hcard
  omega

theorem triLit_sound {l : ℤ} {b : Bool} (hl : ∀ c, tv l.natAbs = some c → m.evalNode ρ l.natAbs = c)
    (h : triLit tv l = some b) :
    m.evalLit ρ l = b := by
  obtain ⟨c,hc,rfl⟩ := Option.map_eq_some_iff.mp h
  rw [evalLit,hl c hc]

theorem triAnd_sound {x y : Option Bool} {b p q : Bool} (h : triAnd x y = some b)
    (hx : ∀ c, x = some c → p = c) (hy : ∀ c, y = some c → q = c) : (p && q) = b := by
  unfold triAnd at h
  split_ifs at h with h1 h2
  · cases h
    rcases h1 with h1 | h1
    · rw [hx _ h1,Bool.false_and]
    · rw [hy _ h1,Bool.and_false]
  · cases h
    rw [hx _ h2.1,hy _ h2.2,Bool.and_true]

theorem triPass_sound (hm : m.Wf) (h : Agrees m ρ tv) :
    Agrees m ρ (triPass m tv) := by
  have hall : ∀ id < 2+(m.nodes.size-1), ∀ b, triPass m tv id = some b →
      id = 0 ∨ m.evalNode ρ id = b := by
    refine Sweep.sweep_induction (P:=fun id x => ∀ b, x = some b → id = 0 ∨ m.evalNode ρ id = b)
      (fun j _ => h j) fun id hlo hid t ht hsame b hb => ?_
    unfold triNode at hb
    by_cases hand : m.isAndId id = true
    · rw [if_pos hand] at hb
      obtain ⟨hv1,hv2,hlt1,hlt2⟩ := children_valid hm hand
      refine .inr ?_
      rw [evalNode_gate hm ρ hand]
      refine triAnd_sound hb (fun c hc => triLit_sound (fun d hd => ?_) hc)
        (fun c hc => triLit_sound (fun d hd => ?_) hc)
      · exact (ht _ hlt1 d hd).resolve_left (by simpa using hv1.1)
      · exact (ht _ hlt2 d hd).resolve_left (by simpa using hv2.1)
    · rw [if_neg hand,hsame] at hb
      exact h id b hb
  intro id b hb
  by_cases hid : id < 2+(m.nodes.size-1)
  · exact hall id hid b hb
  · rw [triPass,Sweep.sweep_outside (.inr (by omega))] at hb
    exact h id b hb

theorem triPass_input {id : ℕ} (h : m.isInput id = true) :
    triPass m tv id = tv id := by
  obtain ⟨h2,hle,_⟩ := isInput_spec h
  rw [triPass,Sweep.sweep_inside h2 (by omega),triNode]
  rcases isInput_or_and (m:=m) h2 hle with ⟨_,ha⟩ | ⟨hn,_⟩
  · rw [if_neg (by simp [ha]),if_neg (lt_irrefl _)]
  · rw [h] at hn
    exact absurd hn (by simp)

theorem fillPass_spec (hm : m.Wf) (seed : BitVec 64) (tv : ℕ → Option Bool) :
    Consistent m (known (fillPass m seed tv)) ∧
      ∀ (id : ℕ) b, m.isInput id = true → tv id = some b → known (fillPass m seed tv) id = b := by
  constructor
  · intro id h2 hle hand
    have hin : m.isInput id = false := by
      rcases isInput_or_and (m:=m) h2 hle with ⟨_,ha⟩ | ⟨hn,_⟩
      · rw [hand] at ha
        exact absurd ha (by simp)
      · exact hn
    obtain ⟨_,_,hlt1,hlt2⟩ := children_valid hm hand
    have hinside := Sweep.sweep_inside (f:=fillNode m seed) (t:=tv) h2
      (show id < 2+(m.nodes.size-1) by omega)
    rw [fillNode,if_neg (by simp [hin]),if_pos hand] at hinside
    have hchild : ∀ l : ℤ, l.natAbs < id → litVal (known fun j => if j < id then
        Sweep.sweep (fillNode m seed) 2 (m.nodes.size-1) tv j else tv j) l =
          litVal (known (fillPass m seed tv)) l := by
      intro l hl
      rw [litVal,litVal,known,if_pos hl]
      rfl
    rw [hchild _ hlt1,hchild _ hlt2] at hinside
    rw [known,fillPass,hinside]
    rfl
  · intro id b hin hb
    obtain ⟨h2,hle,_⟩ := isInput_spec hin
    rw [known,fillPass,Sweep.sweep_inside h2 (by omega),fillNode,if_pos hin]
    simp [hb]

theorem ForcedEnd.Right.evalLit_eq {n : ℕ} (hm : m.Wf) (h : (ForcedEnd.done tv n).Right m asserts)
    (hρ : Agrees m ρ tv) {a : ℤ} (ha : a ∈ asserts) {b : Bool}
    (hb : triLit (triPass m tv) a = some b) : m.evalLit ρ a = b := by
  have hv := h.2.1 a ha
  refine triLit_sound (fun c hc => ?_) hb
  exact (triPass_sound hm hρ _ c hc).resolve_left (by simpa using hv.1)

theorem ForcedEnd.Right.fill_agrees {n : ℕ} (hm : m.Wf) (h : (ForcedEnd.done tv n).Right m asserts)
    (seed : BitVec 64) :
    Agrees m (known (fillPass m seed (triPass m tv))) tv := by
  intro id b hb
  rcases Nat.lt_or_ge id 2 with hlt | h2
  · rcases Nat.lt_or_ge id 1 with h0 | h1
    · exact .inl (by omega)
    · obtain rfl : id = 1 := by omega
      rw [h.2.2.2.2,Option.some.injEq] at hb
      rw [← hb]
      exact .inr (Aigsim.evalNode_le_one m _ le_rfl)
  · have hin := h.2.2.1 id h2 (by simp [hb])
    refine .inr ?_
    rw [evalNode_isInput _ hin]
    exact (fillPass_spec hm seed (triPass m tv)).2 id b hin ((triPass_input hin).trans hb)

theorem pinfastEnd_right (hm : m.Wf) (seed : BitVec 64) {r : ForcedEnd}
    (h : r.Right m asserts) :
    (pinfastEnd m asserts seed r = .unsat → ¬ Aigsim.Satisfiable m asserts) ∧
      ∀ nv, pinfastEnd m asserts seed r = .sat nv → Model m asserts nv := by
  cases r with
  | unsat => exact ⟨fun _ => h,nofun⟩
  | giveUp => exact ⟨nofun,nofun⟩
  | done tv n =>
    simp only [pinfastEnd]
    by_cases hfalse : asserts.any (triLit (triPass m tv) · = some false) = true
    · rw [if_pos hfalse]
      obtain ⟨a,ha,hv⟩ := List.any_eq_true.mp hfalse
      refine ⟨fun _ => ?_,nofun⟩
      rintro ⟨ρ,hρ⟩
      have := h.evalLit_eq hm (h.1 ρ hρ) ha (of_decide_eq_true hv)
      rw [hρ a ha] at this
      exact absurd this (by simp)
    rw [if_neg hfalse]
    by_cases hnone : asserts.any (triLit (triPass m tv) · = none) = true
    · rw [if_pos hnone]
      exact ⟨nofun,nofun⟩
    rw [if_neg hnone]
    refine ⟨nofun,fun nv hnv => ?_⟩
    cases hnv
    obtain ⟨hcons,_⟩ := fillPass_spec hm seed (triPass m tv)
    refine ⟨hcons,fun a ha => ?_⟩
    -- neither false nor unknown
    have htrue : triLit (triPass m tv) a = some true := by
      have h1 : triLit (triPass m tv) a ≠ some false := fun h1 =>
        hfalse (List.any_eq_true.mpr ⟨a,ha,decide_eq_true h1⟩)
      have h2 : triLit (triPass m tv) a ≠ none := fun h2 =>
        hnone (List.any_eq_true.mpr ⟨a,ha,decide_eq_true h2⟩)
      obtain ⟨b,hb⟩ := Option.ne_none_iff_exists'.mp h2
      cases b with
      | false => exact absurd hb h1
      | true => exact hb
    rw [← hcons.evalLit_eq hm (h.2.1 a ha)]
    exact h.evalLit_eq hm (h.fill_agrees hm seed) ha htrue

/-- Whatever the sharing between and within the assertions: UNSAT is right, a model that is
installed is one of the assertions, and the worklist stays within the nodes and one more. -/
theorem pinfast_right (hm : m.Wf) (ready : Bool) (asserts : List ℤ) (seed : BitVec 64) :
    (pinfast m ready asserts seed = .unsat → ¬ Aigsim.Satisfiable m asserts) ∧
    (∀ nv, pinfast m ready asserts seed = .sat nv → Model m asserts nv) ∧
    ∀ k s, Loop.Reach (forcedRound m) k (forcedStart asserts) s → s.wl.length ≤ m.nodes.size+1 := by
  obtain ⟨r,hr,hright⟩ := forcedInputs_spec hm asserts
  obtain ⟨hunsat,hsat⟩ := pinfastEnd_right hm seed hright
  have hrun : pinfast m ready asserts seed = .unknown ∨
      pinfast m ready asserts seed = pinfastEnd m asserts seed r := by
    simp only [pinfast,hr]
    split_ifs
    · exact .inl rfl
    · exact .inr rfl
  refine ⟨fun h => ?_,fun nv h => ?_,fun k s hreach => forced_room hm hreach⟩
  · rcases hrun with hu | hu
    · rw [hu] at h
      cases h
    · exact hunsat (hu.symm.trans h)
  · rcases hrun with hu | hu
    · rw [hu] at h
      cases h
    · exact hsat nv (hu.symm.trans h)

/-- Two inputs whose AND is asserted, twice and next to one of them, then against it. -/
theorem pinfast_right_shared :
    let m := ((Aig.Call.mkAnd 2 3).run
      (Aig.Call.mkInput.run (Aig.Call.mkInput.run Aig.new).2).2).2
    (∃ nv, pinfast m true [4,2,4] 7#64 = .sat nv ∧ Model m [4,2,4] nv) ∧
      pinfast m true [4,-2] 7#64 = .unsat ∧ ¬ Aigsim.Satisfiable m [4,-2] := by
  intro m
  have hm : m.Wf := (((Aig.Reachable.new.call .mkInput (by decide)).call .mkInput
    (by decide)).call (.mkAnd 2 3) (by decide)).wf
  have hsat : ∃ nv, pinfast m true [4,2,4] 7#64 = .sat nv := ⟨_,rfl⟩
  obtain ⟨nv,hnv⟩ := hsat
  have hunsat : pinfast m true [4,-2] 7#64 = .unsat := rfl
  exact ⟨⟨nv,hnv,(pinfast_right hm true [4,2,4] 7#64).2.1 nv hnv⟩,
    hunsat,(pinfast_right hm true [4,-2] 7#64).1 hunsat⟩

end Bbsolver
end DvSolve
