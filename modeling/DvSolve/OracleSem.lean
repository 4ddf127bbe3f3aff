import DvSolve.OracleScript

/-! The oracle's script says what the context holds.
Every call keeps a relation between the mirror and the book: the entries of the log
and the items in force correspond, and so do their depths and the solver's marks. -/
namespace DvSolve
namespace Oracle
open Function ScopedLog
open List (mem_cons mem_flatMap mem_map mem_singleton)

def VarSpec.text (v : VarSpec) : List Cmd := emitVarDecl v.id v.width v.signed v.lo v.hi

def Octx.widths (c : Octx) (i : ℕ) : Option ℕ := (c.vars i).map (fun o => o.ty.width)

theorem VarSpec.text_cases {v : VarSpec} (hw : 0 < v.width) :
    v.text = [.declare v.id v.width] ∨ v.text = [.declare v.id v.width,.never] ∨
      ∃ lo hi, v.text = [.declare v.id v.width,.range v.id v.width v.signed lo hi] := by
  unfold VarSpec.text emitVarDecl
  simp only [if_neg (show ¬ v.width = 0 by omega)]
  split_ifs <;> simp

theorem VarSpec.text_scan {v : VarSpec} (hw : 0 < v.width) {k : ℕ → Option ℕ} (hk : k v.id = none) :
    scan k v.text = some (update k v.id (some v.width)) := by
  rcases VarSpec.text_cases hw with h | h | ⟨lo,hi,h⟩ <;> rw [h] <;> simp [scan,Cmd.scan,hk,hw]

theorem VarSpec.text_names {v : VarSpec} (hw : 0 < v.width) : ∀ c ∈ v.text, c.names = [] := by
  rcases VarSpec.text_cases hw with h | h | ⟨lo,hi,h⟩ <;> rw [h] <;> simp [Cmd.names]

theorem VarSpec.text_mentions {v : VarSpec} (hw : 0 < v.width) :
    ∀ c ∈ v.text, ∀ i ∈ c.mentions, i = v.id := by
  rcases VarSpec.text_cases hw with h | h | ⟨lo,hi,h⟩ <;> rw [h] <;> simp [Cmd.mentions]

structure Declared (c : Octx) (vs : List VarSpec) (c' : Octx) (text : List Cmd) : Prop where
  old : ∀ i o, c.vars i = some o → c'.vars i = some o
  new : ∀ v ∈ vs, c.vars v.id = none → c'.vars v.id = some ⟨v.ty,v.aux,c.depth⟩
  other : ∀ i, c.vars i = none → (∀ v ∈ vs, v.id ≠ i) → c'.vars i = none
  bound : (∀ i o, c.vars i = some o → i < c.nVars) → ∀ i o, c'.vars i = some o → i < c'.nVars
  text_eq : text = (vs.filter (fun v => (c.vars v.id).isNone)).flatMap VarSpec.text
  scans : scan c.widths text = some c'.widths
  rest : c' = { c with vars := c'.vars, nVars := c'.nVars }

theorem declare_spec (vs : List VarSpec) (c : Octx) (hid : (vs.map VarSpec.id).Nodup)
    (hw : ∀ v ∈ vs, 0 < v.width ∧ v.width ≤ 64) :
    Declared c vs (c.declare vs).1 (c.declare vs).2 := by
  induction vs generalizing c with
  | nil => exact ⟨fun _ _ h => h,by simp,fun _ h _ => h,fun h => h,rfl,rfl,rfl⟩
  | cons v vs ih =>
    obtain ⟨hv,hid'⟩ := List.nodup_cons.mp hid
    have hwv := hw v (by simp)
    have hwvs := fun u hu => hw u (List.mem_cons_of_mem v hu)
    have hne : ∀ u ∈ vs, u.id ≠ v.id := fun u hu h => hv (mem_map.mpr ⟨u,hu,h⟩)
    unfold Octx.declare
    rw [if_neg (by omega)]
    cases hk : c.vars v.id with
    | some o =>
      simp only [Option.isSome_some,if_true]
      have d := ih c hid' hwvs
      refine ⟨d.old,?_,?_,d.bound,?_,d.scans,d.rest⟩
      · intro u hu hnone
        rcases mem_cons.mp hu with rfl | hu
        · rw [hk] at hnone
          cases hnone
        · exact d.new u hu hnone
      · exact fun i hi hn => d.other i hi (fun u hu => hn u (List.mem_cons_of_mem v hu))
      · rw [d.text_eq,List.filter_cons_of_neg (by simp [hk])]
    | none =>
      simp only [Option.isSome_none,Bool.false_eq_true,if_false,if_neg (show ¬ v.width = 0 by omega)]
      obtain ⟨c₁,hc₁⟩ : ∃ c₁ : Octx, c₁ = { c with
        vars := update c.vars v.id (some ⟨⟨v.width,v.signed⟩,v.aux,c.depth⟩)
        nVars := max c.nVars (v.id+1) } := ⟨_,rfl⟩
      rw [← hc₁]
      have d := ih c₁ hid' hwvs
      have hself : c₁.vars v.id = some ⟨v.ty,v.aux,c.depth⟩ := by
        rw [hc₁]
        exact update_self _ _ _
      have hof : ∀ i, i ≠ v.id → c₁.vars i = c.vars i := by
        intro i hi
        rw [hc₁]
        exact update_of_ne hi _ _
      have hdepth : c₁.depth = c.depth := by rw [hc₁]
      refine ⟨?_,?_,?_,?_,?_,?_,?_⟩
      · intro i o hi
        apply d.old
        rw [hof i (by rintro rfl; rw [hk] at hi; cases hi),hi]
      · intro u hu hnone
        rcases mem_cons.mp hu with rfl | hu
        · exact d.old _ _ hself
        · rw [← hdepth]
          exact d.new u hu (by rw [hof _ (hne u hu),hnone])
      · intro i hi hn
        apply d.other i
        · rw [hof i (fun h => hn v (by simp) h.symm),hi]
        · exact fun u hu => hn u (List.mem_cons_of_mem v hu)
      · intro hb
        apply d.bound
        intro i o hi
        have hmax : c₁.nVars = max c.nVars (v.id+1) := by rw [hc₁]
        by_cases h : i = v.id
        · omega
        · rw [hof i h] at hi
          have := hb i o hi
          omega
      · rw [List.filter_cons_of_pos (by simp [hk]),List.flatMap_cons,d.text_eq]
        congr 2
        apply List.filter_congr
        intro u hu
        rw [hof _ (hne u hu)]
      · have hscan := VarSpec.text_scan hwv.1 (show c.widths v.id = none by simp [Octx.widths,hk])
        have hw₁ : update c.widths v.id (some v.width) = c₁.widths := by
          funext i
          by_cases h : i = v.id
          · subst h
            rw [update_self,Octx.widths,hself]
            rfl
          · rw [update_of_ne h,Octx.widths,Octx.widths,hof i h]
        rw [scan_append]
        have htext : emitVarDecl v.id v.width v.signed v.lo v.hi = v.text := rfl
        rw [htext,hscan,Option.bind_some,hw₁]
        exact d.scans
      · rw [d.rest,hc₁]

/-- The context's slots and the mirror's variables name the same variables. -/
def SameVars (vars : ℕ → Option OVar) (declared : ℕ → Option VarSpec) : Prop :=
  ∀ i, (vars i).map (fun o => (o.ty,o.aux)) = (declared i).map (fun v => (v.ty,v.aux))

theorem le_want (vs : List VarSpec) (n : ℕ) : n ≤ want n vs ∧ ∀ v ∈ vs, v.id < want n vs := by
  induction vs generalizing n with
  | nil => exact ⟨le_rfl,by simp⟩
  | cons v vs ih =>
    obtain ⟨h,hvs⟩ := ih (max n (v.id+1))
    have hunf : want n (v::vs) = want (max n (v.id+1)) vs := rfl
    rw [hunf]
    refine ⟨by omega,?_⟩
    intro u hu
    rcases mem_cons.mp hu with rfl | hu
    · omega
    · exact hvs u hu

theorem initSlot_foldl (vs : List VarSpec) (n : ℕ) (slots : ℕ → Option VarSpec)
    (hid : (vs.map VarSpec.id).Nodup) :
    (∀ v ∈ vs, n ≤ v.id → (vs.foldl (initSlot n) slots) v.id = some v) ∧
    ∀ i, (i < n ∨ ∀ v ∈ vs, v.id ≠ i) → (vs.foldl (initSlot n) slots) i = slots i := by
  induction vs generalizing slots with
  | nil => exact ⟨by simp,fun _ _ => rfl⟩
  | cons v vs ih =>
    obtain ⟨hv,hid'⟩ := List.nodup_cons.mp hid
    obtain ⟨hnew,hold⟩ := ih (initSlot n slots v) hid'
    rw [List.foldl_cons]
    constructor
    · intro u hu hn
      rcases mem_cons.mp hu with rfl | hu
      · have hne : ∀ w ∈ vs, w.id ≠ u.id := fun w hw h => hv (mem_map.mpr ⟨w,hw,h⟩)
        rw [hold _ (.inr hne),initSlot,if_pos hn,update_self]
      · exact hnew u hu hn
    · intro i hi
      rw [hold i (hi.imp id (fun h w hw => h w (List.mem_cons_of_mem v hw)))]
      unfold initSlot
      split
      · rename_i hn
        apply update_of_ne
        rintro rfl
        rcases hi with hi | hi
        · omega
        · exact hi v (by simp) rfl
      · rfl

theorem SameVars.none_iff {vars : ℕ → Option OVar} {f : ℕ → Option VarSpec}
    (h : SameVars vars f) (i : ℕ) : vars i = none ↔ f i = none := by
  rw [← Option.map_eq_none_iff,h i,Option.map_eq_none_iff]

theorem SameVars.known {vars : ℕ → Option OVar} {f : ℕ → Option VarSpec} (h : SameVars vars f)
    {i : ℕ} {o : OVar} (ho : vars i = some o) : ∃ v, f i = some v ∧ o.ty = v.ty ∧ o.aux = v.aux := by
  have hi := h i
  rw [ho] at hi
  obtain ⟨v,hv,he⟩ := Option.map_eq_some_iff.mp hi.symm
  obtain ⟨h1,h2⟩ := Prod.mk.inj he
  exact ⟨v,hv,h1.symm,h2.symm⟩

theorem SameVars.of_declared {vars : ℕ → Option OVar} {f : ℕ → Option VarSpec}
    (h : SameVars vars f) {i : ℕ} {v : VarSpec} (hv : f i = some v) :
    ∃ o, vars i = some o ∧ o.ty = v.ty ∧ o.aux = v.aux := by
  have hi := h i
  rw [hv] at hi
  obtain ⟨o,ho,he⟩ := Option.map_eq_some_iff.mp hi
  obtain ⟨h1,h2⟩ := Prod.mk.inj he
  exact ⟨o,ho,h1,h2⟩

/-- The variables of `n` slots. -/
def below (n : ℕ) (slots : ℕ → Option VarSpec) (i : ℕ) : Option VarSpec :=
  if i < n then slots i else none

theorem below_lt {n i : ℕ} (h : i < n) (slots : ℕ → Option VarSpec) : below n slots i = slots i :=
  if_pos h

theorem below_ge {n i : ℕ} (h : n ≤ i) (slots : ℕ → Option VarSpec) : below n slots i = none :=
  if_neg (by omega)

section Declaring
variable {c c' : Octx} {vs : List VarSpec} {text : List Cmd} {n m : ℕ}
  {slots : ℕ → Option VarSpec}

theorem SameVars.new_ge (hsame : SameVars c.vars (below n slots))
    (hold : ∀ v ∈ vs, v.id < n → (slots v.id).isSome) {v : VarSpec} (hv : v ∈ vs)
    (hnone : c.vars v.id = none) : n ≤ v.id := by
  by_contra hlt
  have hb := (hsame.none_iff v.id).mp hnone
  rw [below_lt (not_le.mp hlt)] at hb
  have := hold v hv (not_le.mp hlt)
  rw [hb] at this
  cases this

theorem initSlots_new (hid : (vs.map VarSpec.id).Nodup) {v : VarSpec} (hv : v ∈ vs)
    (hn : n ≤ v.id) : initSlots n m vs slots v.id = some v := by
  have := (le_want vs n).2 v hv
  rw [initSlots,if_neg (by omega)]
  exact (initSlot_foldl vs n slots hid).1 v hv hn

theorem initSlots_old (hid : (vs.map VarSpec.id).Nodup) {i : ℕ} (hi : i < n) :
    initSlots n m vs slots i = slots i := by
  have := (le_want vs n).1
  rw [initSlots,if_neg (by omega)]
  exact (initSlot_foldl vs n slots hid).2 i (.inl hi)

theorem SameVars.declare (d : Declared c vs c' text) (hsame : SameVars c.vars (below n slots))
    (hid : (vs.map VarSpec.id).Nodup) (hold : ∀ v ∈ vs, v.id < n → (slots v.id).isSome)
    (hgap : ∀ i, n ≤ i → i < want n vs → (∀ v ∈ vs, v.id ≠ i) → slots i = none)
    (hm : want n vs ≤ m) : SameVars c'.vars (below m (initSlots n m vs slots)) := by
  intro i
  have hwant := (le_want vs n).1
  cases hi : c.vars i with
  | some o =>
    have hlt : i < n := by
      by_contra hge
      have := (hsame.none_iff i).mpr (below_ge (not_lt.mp hge) slots)
      rw [hi] at this
      cases this
    have hs := hsame i
    rw [hi,below_lt hlt] at hs
    rw [d.old i o hi,below_lt (by omega),initSlots_old hid hlt]
    exact hs
  | none =>
    by_cases hmem : ∃ v ∈ vs, v.id = i
    · obtain ⟨v,hv,rfl⟩ := hmem
      have hn := hsame.new_ge hold hv hi
      have hlt := (le_want vs n).2 v hv
      rw [d.new v hv hi,below_lt (by omega),initSlots_new hid hv hn]
      rfl
    · push Not at hmem
      rw [d.other i hi hmem,Option.map_none,Eq.comm,Option.map_eq_none_iff]
      rcases Nat.lt_or_ge i m with hlt | hge
      · rw [below_lt hlt]
        rcases Nat.lt_or_ge i n with hin | hin
        · rw [initSlots_old hid hin,← below_lt hin slots]
          exact (hsame.none_iff i).mp hi
        · unfold initSlots
          split
          · rfl
          · rw [(initSlot_foldl vs n slots hid).2 i (.inr hmem)]
            exact hgap i hin (by omega) hmem
      · exact below_ge hge _

end Declaring

/-- The text of an addition made at depth `d`: the variables it declared, then its
constraints. -/
structure Chunk (vars : ℕ → Option OVar) (slots : ℕ → Option VarSpec) (d : ℕ) (p : Problem)
    (news : List VarSpec) (em : List Cmd) : Prop where
  new : ∀ v ∈ news, 0 < v.width ∧ vars v.id = some ⟨v.ty,v.aux,d⟩ ∧ slots v.id = some v
  uses : ∀ id ∈ p.uses, ∃ o, vars id = some o ∧ o.depth ≤ d
  terms : ∀ c ∈ em, ∃ names uses holds, c = .term names uses holds ∧ ∀ u ∈ uses, u.1 ∈ p.uses
  meaning : ∀ σ, (∀ id ∈ p.uses, ∀ o, vars id = some o → σ id < 2^o.ty.width) →
    (Models em σ ↔ p.hard (fun i => (vars i).map OVar.ty) σ)

def AddText (vars : ℕ → Option OVar) (slots : ℕ → Option VarSpec) (d : ℕ) (p : Problem)
    (text : List Cmd) : Prop :=
  ∃ news em, text = news.flatMap VarSpec.text ++ em ∧ Chunk vars slots d p news em

/-- What an entry of the log stands for. -/
inductive Item
  | add (p : Problem)
  | pin (q : Pin)
  | excl (h : ℕ × BitVec 64)

variable {v : VarSpec} {f : ℕ → Option VarSpec} {i : ℕ} {p : Problem} {it : Item} {σ : Valuation}

def Item.kind : Item → Kind
  | .add _ => .add
  | .pin _ => .pin
  | .excl _ => .excl

def Item.Text (vars : ℕ → Option OVar) (slots : ℕ → Option VarSpec) (d : ℕ) (text : List Cmd) :
    Item → Prop
  | .add p => AddText vars slots d p text
  | .pin q => ∃ o, vars q.id = some o ∧ o.depth ≤ d ∧ o.ty.Has q.value ∧
      text = [.equal q.id (emitValue q.value.toInt o.ty.width) o.ty.width]
  | .excl h => ∃ o, vars h.1 = some o ∧ o.ty.Has h.2 ∧
      text = [.distinct h.1 (emitValue h.2.toInt o.ty.width) o.ty.width]

/-- An excluded variable stays known whatever its depth. -/
def Item.Names (i : ℕ) : Item → Prop
  | .excl h => h.1 = i
  | _ => False

section Text
variable {vars vars' : ℕ → Option OVar} {slots slots' : ℕ → Option VarSpec} {d : ℕ}
  {text : List Cmd}

theorem Chunk.mono {news : List VarSpec} {em : List Cmd} (h : Chunk vars slots d p news em)
    (hext : ∀ i o, vars i = some o → o.depth ≤ d → vars' i = some o ∧ slots' i = slots i) :
    Chunk vars' slots' d p news em := by
  have hsame : ∀ i ∈ p.uses, vars' i = vars i := by
    intro i hi
    obtain ⟨o,ho,hd⟩ := h.uses i hi
    rw [ho,(hext i o ho hd).1]
  refine ⟨?_,?_,h.terms,?_⟩
  · intro v hv
    obtain ⟨hw,hvar,hslot⟩ := h.new v hv
    obtain ⟨h1,h2⟩ := hext _ _ hvar le_rfl
    exact ⟨hw,h1,h2.trans hslot⟩
  · intro i hi
    rw [hsame i hi]
    exact h.uses i hi
  · intro σ hσ
    rw [h.meaning σ (fun i hi o ho => hσ i hi o (by rw [hsame i hi,ho]))]
    apply p.hard_congr
    intro i hi
    exact ⟨by rw [hsame i hi],rfl⟩

theorem AddText.mono (h : AddText vars slots d p text)
    (hext : ∀ i o, vars i = some o → o.depth ≤ d → vars' i = some o ∧ slots' i = slots i) :
    AddText vars' slots' d p text := by
  obtain ⟨news,em,htext,hc⟩ := h
  exact ⟨news,em,htext,hc.mono hext⟩

theorem Item.Text.mono (h : it.Text vars slots d text)
    (hext : ∀ i o, vars i = some o → (o.depth ≤ d ∨ it.Names i) →
      vars' i = some o ∧ slots' i = slots i) : it.Text vars' slots' d text := by
  cases it with
  | add p => exact AddText.mono h (fun i o ho hd => hext i o ho (.inl hd))
  | pin q =>
    obtain ⟨o,ho,hd,hrest⟩ := h
    exact ⟨o,(hext _ _ ho (.inl hd)).1,hd,hrest⟩
  | excl x =>
    obtain ⟨o,ho,hrest⟩ := h
    exact ⟨o,(hext _ _ ho (.inr rfl)).1,hrest⟩

theorem AddText.mentions (h : AddText vars slots d p text) :
    ∀ c ∈ text, ∀ i ∈ c.mentions, ∃ o, vars i = some o ∧ o.depth ≤ d := by
  obtain ⟨news,em,rfl,hc⟩ := h
  intro c hc' i hi
  rcases List.mem_append.mp hc' with hc' | hc'
  · obtain ⟨v,hv,hcv⟩ := mem_flatMap.mp hc'
    obtain ⟨hw,hvar,-⟩ := hc.new v hv
    rw [VarSpec.text_mentions hw c hcv i hi]
    exact ⟨_,hvar,le_rfl⟩
  · obtain ⟨names,uses,holds,rfl,huses⟩ := hc.terms c hc'
    obtain ⟨u,hu,rfl⟩ := mem_map.mp hi
    exact hc.uses _ (huses u hu)

theorem AddText.declares (h : AddText vars slots d p text) :
    ∀ c ∈ text, ∀ i ∈ c.declares, ∃ o, vars i = some o ∧ o.depth = d := by
  obtain ⟨news,em,rfl,hc⟩ := h
  intro c hc' i hi
  rcases List.mem_append.mp hc' with hc' | hc'
  · obtain ⟨v,hv,hcv⟩ := mem_flatMap.mp hc'
    obtain ⟨hw,hvar,-⟩ := hc.new v hv
    have hm : i ∈ c.mentions := by
      cases c <;> simp_all [Cmd.declares,Cmd.mentions]
    rw [VarSpec.text_mentions hw c hcv i hm]
    exact ⟨_,hvar,rfl⟩
  · obtain ⟨names,uses,holds,rfl,-⟩ := hc.terms c hc'
    cases hi

theorem Item.Text.mentions (h : it.Text vars slots d text) :
    ∀ c ∈ text, ∀ i ∈ c.mentions, ∃ o, vars i = some o ∧ (o.depth ≤ d ∨ it.Names i) := by
  cases it with
  | add p =>
    intro c hc i hi
    obtain ⟨o,ho,hd⟩ := AddText.mentions h c hc i hi
    exact ⟨o,ho,.inl hd⟩
  | pin q =>
    obtain ⟨o,ho,hd,-,rfl⟩ := h
    simp only [mem_singleton,forall_eq,Cmd.mentions]
    exact ⟨o,ho,.inl hd⟩
  | excl x =>
    obtain ⟨o,ho,-,rfl⟩ := h
    simp only [mem_singleton,forall_eq,Cmd.mentions]
    exact ⟨o,ho,.inr rfl⟩

theorem Item.Text.declares (h : it.Text vars slots d text) :
    ∀ c ∈ text, ∀ i ∈ c.declares, ∃ o, vars i = some o ∧ o.depth = d := by
  cases it with
  | add p => exact AddText.declares h
  | pin q =>
    obtain ⟨o,-,-,-,rfl⟩ := h
    simp [Cmd.declares]
  | excl x =>
    obtain ⟨o,-,-,rfl⟩ := h
    simp [Cmd.declares]

end Text

/-- What stands in the context at depth `d`, its additions and pins tagged with their
depths. -/
def Standing (A : List (ℕ × Problem)) (P : List (ℕ × Pin)) (excluded : List (ℕ × BitVec 64))
    (d : ℕ) : Item → Prop
  | .add p => (d,p) ∈ A
  | .pin q => (d,q) ∈ P ∧ q.left = none
  | .excl h => d = 0 ∧ h ∈ excluded

/-- The mirror `c` stands for the context `b`; `A` and `P` are its additions and pins
with their depths. -/
structure Mirrors (c : Octx) (b : Book) (A : List (ℕ × Problem)) (P : List (ℕ × Pin)) : Prop where
  depth : c.depth = b.marks.length
  same : SameVars c.vars b.declared
  bound : ∀ i o, c.vars i = some o → i < c.nVars
  fits : ∀ i v, b.declared i = some v → v.id = i ∧ 0 < v.width ∧ v.width ≤ 64
  varDepth : ∀ i o, c.vars i = some o → o.depth ≤ c.depth
  varMark : ∀ i o, c.vars i = some o → ∀ (k : ℕ) (m : Mark), b.marks[k]? = some m →
    (o.depth ≤ k ↔ i < m.nVars)
  markVars : ∀ (k : ℕ) (m : Mark), b.marks[k]? = some m → m.nVars ≤ b.nVars
  markMono : ∀ (j k : ℕ) (m m' : Mark), j ≤ k → b.marks[j]? = some m → b.marks[k]? = some m' →
    m.nVars ≤ m'.nVars
  adds : A.map Prod.snd = b.adds
  addsCut : Scoped (b.marks.map Mark.nAdds) A
  pins : P.map Prod.snd = b.trail
  pinsCut : Scoped (b.marks.map Mark.nPins) P
  log : b.scopeLog = P.filter (fun e => 0 < e.1)
  unnamed : ∀ i f, b.fields i = some f → c.vars i = none
  base : ∃ p, (b.base = [p] ∨ b.base = [] ∧ ∀ ty σ, p.hard ty σ) ∧ AddText c.vars b.slots 0 p c.base
  held : ∀ x ∈ b.holes, x ∈ b.excluded
  ruled : ∀ x ∈ b.excluded, x ∈ b.holes ∨ b.RulesOut x.1 x.2
  entries : ∀ e ∈ c.entries, ∃ it, Standing A P b.excluded e.depth it ∧ it.kind = e.kind ∧
    it.Text c.vars b.slots e.depth e.text
  items : ∀ d it, Standing A P b.excluded d it → ∃ e ∈ c.entries, e.depth = d ∧ e.kind = it.kind ∧
    it.Text c.vars b.slots d e.text
  decls : ∀ i o v, c.vars i = some o → b.slots i = some v → (o.depth = 0 ∧ v.text ⊆ c.base) ∨
      ∃ e ∈ c.entries, e.kind = .add ∧ e.depth = o.depth ∧ v.text ⊆ e.text
  scans : scan (fun _ => none) c.script = some c.widths
  nodup : (c.script.flatMap Cmd.names).Nodup
  names : ∀ n ∈ c.script.flatMap Cmd.names, n < c.defs

section Agrees
variable {c : Octx} {b : Book} {A : List (ℕ × Problem)} {P : List (ℕ × Pin)}

theorem Mirrors.reads (h : Mirrors c b A P) {o : OVar} (ho : c.vars i = some o) :
    b.types i = some o.ty ∧ ∀ σ, b.spread σ i = σ i := by
  have hf : b.fields i = none := by
    rw [Option.eq_none_iff_forall_ne_some]
    intro f hf
    rw [h.unnamed i f hf] at ho
    cases ho
  obtain ⟨v,hv,hty,-⟩ := h.same.known ho
  constructor
  · simp [Book.types,hf,hv,hty]
  · intro σ
    simp only [Book.spread,hf]

theorem Models.of_subset {cs cs' : List Cmd} (h : Models cs' σ) (hs : cs ⊆ cs') :
    Models cs σ := fun c hc => h c (hs hc)

theorem text_subset_script {e : OEntry} (he : e ∈ c.entries) : e.text ⊆ c.script := by
  intro x hx
  exact List.mem_append_right _ (mem_flatMap.mpr ⟨e,he,hx⟩)

theorem base_subset_script : c.base ⊆ c.script := List.subset_append_left _ _

theorem Mirrors.ranges (h : Mirrors c b A P) (hm : Models c.script σ) (i : ℕ) (v : VarSpec)
    (hv : b.declared i = some v) : σ i < 2^v.width ∧ v.Admits (σ i) := by
  obtain ⟨o,ho,-⟩ := h.same.of_declared hv
  obtain ⟨rfl,hfit⟩ := h.fits i v hv
  have hslot : b.slots v.id = some v := by
    rw [Book.declared] at hv
    split at hv
    · exact hv
    · cases hv
  have htext : Models v.text σ := by
    rcases h.decls v.id o v ho hslot with ⟨-,hs⟩ | ⟨e,he,-,-,hs⟩
    · exact hm.of_subset (List.Subset.trans hs base_subset_script)
    · exact hm.of_subset (List.Subset.trans hs (text_subset_script he))
  exact (emitVarDecl_models hfit σ).mp htext

/-- A constraint of depth at most `k` names variables declared by then. -/
theorem Mirrors.uses_lt (h : Mirrors c b A P) {k : ℕ} {m : Mark} (hm : b.marks[k]? = some m)
    (hp : p ∈ b.base++b.adds.take m.nAdds) : ∀ i ∈ p.uses, i < m.nVars := by
  have hlt : ∀ {d : ℕ} {text : List Cmd}, AddText c.vars b.slots d p text → d ≤ k →
      ∀ i ∈ p.uses, i < m.nVars := by
    intro d text ht hd i hi
    obtain ⟨news,em,-,hc⟩ := ht
    obtain ⟨o,ho,hod⟩ := hc.uses i hi
    exact (h.varMark i o ho k m hm).mp (hod.trans hd)
  rcases List.mem_append.mp hp with hp | hp
  · obtain ⟨p₀,hp₀ | ⟨hp₀,-⟩,hbase⟩ := h.base
    · rw [hp₀,mem_singleton] at hp
      subst hp
      exact hlt hbase (Nat.zero_le _)
    · rw [hp₀] at hp
      cases hp
  · have hcut := (h.addsCut.cut k m.nAdds (by simp [hm])).1
    rw [← h.adds,← List.map_take,← hcut] at hp
    obtain ⟨⟨d,p'⟩,hA,rfl⟩ := mem_map.mp hp
    obtain ⟨hA,hd⟩ := mem_upTo.mp hA
    obtain ⟨e,-,-,-,ht⟩ := h.items d (.add p') hA
    exact hlt ht hd

theorem Mirrors.uses_known (h : Mirrors c b A P) (hp : p ∈ b.base++b.adds) :
    ∀ i ∈ p.uses, ∃ o, c.vars i = some o := by
  have huses : ∀ {d : ℕ} {text : List Cmd}, AddText c.vars b.slots d p text →
      ∀ i ∈ p.uses, ∃ o, c.vars i = some o := by
    intro d text ht i hi
    obtain ⟨news,em,-,hc⟩ := ht
    obtain ⟨o,ho,-⟩ := hc.uses i hi
    exact ⟨o,ho⟩
  rcases List.mem_append.mp hp with hp | hp
  · obtain ⟨p₀,hp₀ | ⟨hp₀,-⟩,hbase⟩ := h.base
    · rw [hp₀,mem_singleton] at hp
      subst hp
      exact huses hbase
    · rw [hp₀] at hp
      cases hp
  · rw [← h.adds] at hp
    obtain ⟨⟨d,p'⟩,hA,rfl⟩ := mem_map.mp hp
    obtain ⟨e,-,-,-,ht⟩ := h.items d (.add p') hA
    exact huses ht

/-- A book with fewer declarations and constraints says less. -/
theorem Book.Stands.weaken {b' : Book} (h : b.Stands σ) (hf : b'.fields = b.fields)
    (hd : ∀ i v, b'.declared i = some v → b.declared i = some v)
    (hp : ∀ p ∈ b'.base++b'.adds, p ∈ b.base++b.adds ∧ ∀ i ∈ p.uses, b'.declared i = b.declared i) :
    b'.Stands σ := by
  refine ⟨fun i v hv => h.1 i v (hd i v hv),?_⟩
  intro p hmem
  obtain ⟨hmem',hu⟩ := hp p hmem
  refine (p.hard_congr _ _ _ _ (fun i hi => ⟨?_,?_⟩)).mp (h.2 p hmem')
  · simp only [Book.types,hf,hu i hi]
  · simp only [Book.spread,hf]

theorem Book.home_none (hi : b.marks.find? (fun m => i < m.nVars) = none) : b.home i = b := by
  unfold Book.home
  rw [hi]
  simp

theorem Book.home_some {m : Mark} (hi : b.marks.find? (fun m => i < m.nVars) = some m) :
    b.home i = { b with nVars := m.nVars, adds := b.adds.take m.nAdds } := by
  unfold Book.home
  rw [hi]
  rfl

theorem Mirrors.home (h : Mirrors c b A P) (i : ℕ) (hb : b.Stands σ) : (b.home i).Stands σ := by
  cases hi : b.marks.find? (fun m => i < m.nVars) with
  | none => rwa [Book.home_none hi]
  | some m =>
    obtain ⟨k,hm⟩ := List.mem_iff_getElem?.mp (List.mem_of_find?_eq_some hi)
    have hle := h.markVars k m hm
    rw [Book.home_some hi]
    refine hb.weaken rfl ?_ ?_
    · intro j v hv
      simp only [Book.declared] at hv ⊢
      split at hv
      · rw [if_pos (by omega)]
        exact hv
      · cases hv
    · intro p hp
      constructor
      · rcases List.mem_append.mp hp with hp | hp
        · exact List.mem_append_left _ hp
        · exact List.mem_append_right _ (List.mem_of_mem_take hp)
      · intro j hj
        have hlt := h.uses_lt hm hp j hj
        simp only [Book.declared]
        rw [if_pos hlt,if_pos (by omega)]

/-- What rules a value out goes on to, under more declarations and constraints. -/
theorem Book.RulesOut.mono {b' : Book} {value : BitVec 64} (h : b.RulesOut i value)
    (hs : ∀ σ, (b'.home i).Stands σ → (b.home i).Stands σ) (hd : b'.declared i = b.declared i)
    (hf : b'.fields = b.fields) : b'.RulesOut i value := by
  intro σ hσ t ht
  have hty : b'.types i = b.types i := by simp only [Book.types,hf,hd]
  have hsp : b'.spread σ i = b.spread σ i := by simp only [Book.spread,hf]
  rw [hsp]
  exact h σ (hs σ hσ) t (hty ▸ ht)

theorem Mirrors.excluded_known (h : Mirrors c b A P) {x : ℕ × BitVec 64} (hx : x ∈ b.excluded) :
    ∃ o, c.vars x.1 = some o := by
  obtain ⟨e,-,-,-,o,ho,-⟩ := h.items 0 (.excl x) ⟨rfl,hx⟩
  exact ⟨o,ho⟩

end Agrees

end Oracle
end DvSolve
