import DvSolve.OracleSem

/-! The calls of the interface keep the mirror in step.
One lemma for each hook, then the runs whose calls meet the condition under which the
mirror follows the context, and a run in which it does not. -/
namespace DvSolve
namespace Oracle
open Function ScopedLog
open List (length_map map_take mem_append mem_append_left mem_filter mem_singleton)

variable {o : OVar} {vs : List VarSpec}

section Emit
variable {emit : Emitter} {c c' : Octx} {p : Problem} {text : List Cmd}
  {slots : ℕ → Option VarSpec}

theorem Declared.cases (d : Declared c p.vars c' text) {i : ℕ} (ho : c'.vars i = some o) :
    c.vars i = some o ∨ ∃ v ∈ p.vars, v.id = i ∧ c.vars i = none ∧ o = ⟨v.ty,v.aux,c.depth⟩ := by
  cases hi : c.vars i with
  | some o' =>
    rw [d.old i o' hi] at ho
    exact .inl ho
  | none =>
    right
    by_contra hno
    push Not at hno
    have hother : ∀ v ∈ p.vars, v.id ≠ i := by
      rintro v hv rfl
      rw [d.new v hv hi] at ho
      exact hno v hv rfl rfl (Option.some.inj ho).symm
    rw [d.other i hi hother] at ho
    cases ho

/-- What is written for an addition that the emitter takes. -/
theorem Declared.addText (d : Declared c p.vars c' text) (hf : emit.Faithful)
    (hok : (emit c'.types c'.defs p).failed = false)
    (hw : ∀ v ∈ p.vars, 0 < v.width ∧ v.width ≤ 64)
    (hslots : ∀ v ∈ p.vars, c.vars v.id = none → slots v.id = some v)
    (hdepth : ∀ i o, c.vars i = some o → o.depth ≤ c.depth) :
    AddText c'.vars slots c.depth p (text ++ (emit c'.types c'.defs p).text) := by
  refine ⟨p.vars.filter (fun v => (c.vars v.id).isNone),_,by rw [d.text_eq],?_,?_,?_,?_⟩
  · intro v hv
    obtain ⟨hv,hnone⟩ := mem_filter.mp hv
    have hnone : c.vars v.id = none := by simpa using hnone
    exact ⟨(hw v hv).1,d.new v hv hnone,hslots v hv hnone⟩
  · intro i hi
    have hty := hf.typed _ _ _ hok i hi
    rw [Octx.types,Option.isSome_map] at hty
    obtain ⟨o,ho⟩ := Option.isSome_iff_exists.mp hty
    refine ⟨o,ho,?_⟩
    rcases d.cases ho with hold | ⟨v,-,-,-,rfl⟩
    · exact hdepth i o hold
    · exact le_rfl
  · intro x hx
    obtain ⟨names,uses,holds,rfl,huses⟩ := hf.terms _ _ _ hok x hx
    exact ⟨names,uses,holds,rfl,fun u hu => (huses u hu).1⟩
  · intro σ hσ
    apply hf.meaning _ _ _ hok
    intro i hi t ht
    obtain ⟨o,ho,rfl⟩ := Option.map_eq_some_iff.mp ht
    exact hσ i hi o ho

theorem scan_terms {k : ℕ → Option ℕ} {cs : List Cmd}
    (h : ∀ c ∈ cs, ∃ names uses holds, c = .term names uses holds ∧ ∀ u ∈ uses, k u.1 = some u.2) :
    scan k cs = some k := by
  induction cs with
  | nil => rfl
  | cons c cs ih =>
    obtain ⟨names,uses,holds,rfl,huses⟩ := h c (by simp)
    rw [scan,Cmd.scan,if_pos huses,Option.bind_some]
    exact ih (fun c' hc' => h c' (List.mem_cons_of_mem _ hc'))

theorem Declared.scan_addText (d : Declared c p.vars c' text) (hf : emit.Faithful)
    (hok : (emit c'.types c'.defs p).failed = false) :
    scan c.widths (text ++ (emit c'.types c'.defs p).text) = some c'.widths := by
  rw [scan_append,d.scans,Option.bind_some]
  apply scan_terms
  intro x hx
  obtain ⟨names,uses,holds,rfl,huses⟩ := hf.terms _ _ _ hok x hx
  refine ⟨names,uses,holds,rfl,fun u hu => ?_⟩
  have := (huses u hu).2
  rw [Octx.types,Option.map_map] at this
  exact this

theorem Declared.names_addText (d : Declared c p.vars c' text)
    (hw : ∀ v ∈ p.vars, 0 < v.width ∧ v.width ≤ 64) :
    (text ++ (emit c'.types c'.defs p).text).flatMap Cmd.names =
      (emit c'.types c'.defs p).text.flatMap Cmd.names := by
  rw [List.flatMap_append]
  have hnil : text.flatMap Cmd.names = [] := by
    rw [List.flatMap_eq_nil_iff,d.text_eq]
    intro x hx
    obtain ⟨v,hv,hxv⟩ := List.mem_flatMap.mp hx
    exact VarSpec.text_names (hw v (List.mem_of_mem_filter hv)).1 x hxv
  rw [hnil,List.nil_append]

theorem nodup_append_emit (hf : emit.Faithful) {ty : ℕ → Option Ty} {n : ℕ} {old : List ℕ}
    (hnd : old.Nodup) (hlt : ∀ k ∈ old, k < n) :
    (old ++ (emit ty n p).text.flatMap Cmd.names).Nodup ∧
      ∀ k ∈ old ++ (emit ty n p).text.flatMap Cmd.names, k < (emit ty n p).defs := by
  obtain ⟨hnew,hrange⟩ := hf.names ty n p
  have hcount := hf.counter ty n p
  constructor
  · refine List.nodup_append.mpr ⟨hnd,hnew,?_⟩
    intro a ha b hb
    have := hlt a ha
    have := (hrange b hb).1
    omega
  · intro k hk
    rcases mem_append.mp hk with hk | hk
    · have := hlt k hk
      omega
    · exact (hrange k hk).2

end Emit

theorem script_push (c : Octx) (kind : Kind) (d : ℕ) (text : List Cmd) :
    (c.push kind d text).script = c.script++text := by
  simp [Octx.push,Octx.script]

theorem below_initSlots {n m : ℕ} {slots : ℕ → Option VarSpec} (hid : (vs.map VarSpec.id).Nodup)
    (hgap : ∀ i, n ≤ i → i < want n vs → (∀ v ∈ vs, v.id ≠ i) → slots i = none) {i : ℕ}
    {v : VarSpec} (h : below m (initSlots n m vs slots) i = some v) :
    (i < n ∧ slots i = some v) ∨ (v ∈ vs ∧ v.id = i) := by
  rcases Nat.lt_or_ge i m with hlt | hge
  · rw [below_lt hlt] at h
    rcases Nat.lt_or_ge i n with hin | hin
    · rw [initSlots_old hid hin] at h
      exact .inl ⟨hin,h⟩
    · by_cases hmem : ∃ u ∈ vs, u.id = i
      · obtain ⟨u,hu,rfl⟩ := hmem
        rw [initSlots_new hid hu hin] at h
        obtain rfl := Option.some.inj h
        exact .inr ⟨hu,rfl⟩
      · push Not at hmem
        unfold initSlots at h
        split at h
        · cases h
        · rw [(initSlot_foldl vs n slots hid).2 i (.inr hmem),hgap i hin (by omega) hmem] at h
          cases h
  · rw [below_ge hge] at h
    cases h

section Add
variable {emit : Emitter} {c : Octx} {b : Book} {A : List (ℕ × Problem)} {P : List (ℕ × Pin)}
  {p : Problem} {n : ℕ}

theorem accepts_old (hacc : b.Accepts p) (hfree : ∀ v ∈ p.vars, b.fields v.id = none) :
    ∀ v ∈ p.vars, v.id < b.nVars → ∃ d, b.slots v.id = some d ∧ d.width = v.width := by
  intro v hv hlt
  have hv' := hacc v hv
  rw [if_pos hlt] at hv'
  rcases hv' with hd | ⟨f,hf,-⟩
  · exact hd
  · rw [hfree v hv] at hf
    cases hf

theorem Mirrors.accepts_width (h : Mirrors c b A P) (hacc : b.Accepts p)
    (hfree : ∀ v ∈ p.vars, b.fields v.id = none) : ∀ v ∈ p.vars, 0 < v.width ∧ v.width ≤ 64 := by
  intro v hv
  by_cases hlt : v.id < b.nVars
  · obtain ⟨u,hu,hw⟩ := accepts_old hacc hfree v hv hlt
    rw [← hw]
    exact (h.fits v.id u (by rw [Book.declared,if_pos hlt,hu])).2
  · have hv' := hacc v hv
    rwa [if_neg hlt] at hv'

theorem Mirrors.known_lt (h : Mirrors c b A P) {i : ℕ} (ho : c.vars i = some o) :
    i < b.nVars := by
  obtain ⟨v,hv,-⟩ := h.same.known ho
  by_contra hge
  rw [Book.declared,if_neg hge] at hv
  cases hv

theorem Mirrors.rules_add (h : Mirrors c b A P) {b' : Book} {x : ℕ × BitVec 64}
    (hx : x ∈ b.excluded) (hr : b.RulesOut x.1 x.2) (hm : b'.marks = b.marks)
    (hf : b'.fields = b.fields) (hbase : b'.base = b.base) (hadds : b'.adds = b.adds++[p])
    (hn : b.nVars ≤ b'.nVars) (hs : ∀ j, j < b.nVars → b'.slots j = b.slots j) :
    b'.RulesOut x.1 x.2 := by
  obtain ⟨o,ho⟩ := h.excluded_known hx
  have hdecl : ∀ j, j < b.nVars → b'.declared j = b.declared j := by
    intro j hj
    rw [Book.declared,Book.declared,if_pos hj,if_pos (by omega),hs j hj]
  refine hr.mono ?_ (hdecl _ (h.known_lt ho)) hf
  intro σ hσ
  cases hi : b.marks.find? (fun m => x.1 < m.nVars) with
  | none =>
    rw [Book.home_none (hm ▸ hi)] at hσ
    rw [Book.home_none hi]
    refine hσ.weaken hf.symm ?_ ?_
    · intro j v hv
      have hj : j < b.nVars := by
        by_contra hge
        rw [Book.declared,if_neg hge] at hv
        cases hv
      rw [hdecl j hj,hv]
    · intro q hq
      constructor
      · rw [hbase,hadds,← List.append_assoc]
        exact mem_append_left _ hq
      · intro j hj
        obtain ⟨o,ho⟩ := h.uses_known hq j hj
        exact (hdecl j (h.known_lt ho)).symm
  | some m =>
    obtain ⟨k,hk⟩ := List.mem_iff_getElem?.mp (List.mem_of_find?_eq_some hi)
    have hle := h.markVars k m hk
    have hna := (h.addsCut.cut k m.nAdds (by simp [hk])).2
    have hlen : A.length = b.adds.length := by rw [← h.adds,length_map]
    rw [Book.home_some (hm ▸ hi)] at hσ
    rw [Book.home_some hi]
    have hsame : ∀ j, (if j < m.nVars then b'.slots j else none) =
        (if j < m.nVars then b.slots j else none) := by
      intro j
      split
      · exact hs j (by omega)
      · rfl
    refine hσ.weaken hf.symm (fun j v hv => (hsame j).trans hv)
      (fun q hq => ⟨?_,fun j _ => (hsame j).symm⟩)
    simp only [hbase,hadds,List.take_append_of_le_length (hlen ▸ hna)]
    exact hq

theorem Mirrors.add (h : Mirrors c b A P) (hf : emit.Faithful) {rc : ℤ} (hrc : Taken rc)
    (hacc : b.Accepts p) (hfree : ∀ v ∈ p.vars, b.fields v.id = none)
    (hn : want b.nVars p.vars ≤ n) (hid : (p.vars.map VarSpec.id).Nodup)
    (hgap : ∀ i, b.nVars ≤ i → i < want b.nVars p.vars → (∀ v ∈ p.vars, v.id ≠ i) → b.slots i = none)
    (hok : (c.onAdd emit p rc).broken = false) :
    ∃ A', Mirrors (c.onAdd emit p rc) (b.add p rc n none) A' P := by
  have hw := h.accepts_width hacc hfree
  have hold : ∀ v ∈ p.vars, v.id < b.nVars → (b.slots v.id).isSome := by
    intro v hv hlt
    obtain ⟨u,hu,-⟩ := accepts_old hacc hfree v hv hlt
    simp [hu]
  have d := declare_spec p.vars c hid hw
  obtain ⟨c₁,hc₁⟩ : ∃ c₁, c₁ = (c.declare p.vars).1 := ⟨_,rfl⟩
  obtain ⟨t,ht⟩ : ∃ t, t = (c.declare p.vars).2 := ⟨_,rfl⟩
  rw [← hc₁,← ht] at d
  obtain ⟨slots,hslots⟩ : ∃ s, s = initSlots b.nVars n p.vars b.slots := ⟨_,rfl⟩
  obtain ⟨em,hem⟩ : ∃ em, em = t ++ (emit c₁.types c₁.defs p).text := ⟨_,rfl⟩
  have hdepth : c₁.depth = c.depth := by rw [d.rest]
  have hc' : c.onAdd emit p rc = { c₁ with
      defs := (emit c₁.types c₁.defs p).defs
      broken := c₁.broken || (emit c₁.types c₁.defs p).failed
      entries := c.entries++[⟨.add,c.depth,em⟩] } := by
    rw [Octx.onAdd,if_pos hrc]
    simp only [← hc₁,← ht,Octx.emit,Octx.push,← hem]
    rw [d.rest]
  have hb' : b.add p rc n none = { b with nVars := n, slots := slots, adds := b.adds++[p] } := by
    simp only [Book.add]
    rw [if_pos hrc,hslots]
  rw [hc'] at hok ⊢
  rw [hb']
  have hemit : (emit c₁.types c₁.defs p).failed = false := (Bool.or_eq_false_iff.mp hok).2
  have hbn := (le_want p.vars b.nVars).1
  have hnew : ∀ v ∈ p.vars, c.vars v.id = none → b.nVars ≤ v.id :=
    fun v hv hnone => h.same.new_ge hold hv hnone
  have hext : ∀ i o, c.vars i = some o → c₁.vars i = some o ∧ slots i = b.slots i := by
    intro i o ho
    rw [hslots]
    exact ⟨d.old i o ho,initSlots_old hid (h.known_lt ho)⟩
  have hslot : ∀ v ∈ p.vars, c.vars v.id = none → slots v.id = some v := by
    intro v hv hnone
    rw [hslots]
    exact initSlots_new hid hv (hnew v hv hnone)
  have htext : AddText c₁.vars slots c.depth p em := by
    rw [hem]
    exact d.addText hf hemit hw hslot h.varDepth
  have hscan : scan c.widths em = some c₁.widths := by
    rw [hem]
    exact d.scan_addText hf hemit
  have hscript : c₁.base ++ (c.entries++[(⟨.add,c.depth,em⟩ : OEntry)]).flatMap OEntry.text =
      c.script++em := by
    rw [d.rest]
    simp [Octx.script]
  have hdefs : c₁.defs = c.defs := by rw [d.rest]
  have hnames : (c.script.flatMap Cmd.names ++ (emit c₁.types c₁.defs p).text.flatMap Cmd.names).Nodup ∧
      ∀ k ∈ c.script.flatMap Cmd.names ++ (emit c₁.types c₁.defs p).text.flatMap Cmd.names,
        k < (emit c₁.types c₁.defs p).defs :=
    nodup_append_emit hf h.nodup (by rw [hdefs]; exact h.names)
  have hflat : (c.script++em).flatMap Cmd.names =
      c.script.flatMap Cmd.names ++ (emit c₁.types c₁.defs p).text.flatMap Cmd.names := by
    rw [List.flatMap_append,hem,d.names_addText hw]
  refine ⟨A++[(c.depth,p)],?_⟩
  constructor
  case depth => exact hdepth.trans h.depth
  case same =>
    have := h.same.declare d hid hold hgap hn
    rwa [← hslots] at this
  case bound => exact d.bound h.bound
  case fits =>
    intro i v hv
    have hv' : below n (initSlots b.nVars n p.vars b.slots) i = some v := by
      rw [← hslots]
      exact hv
    rcases below_initSlots hid hgap hv' with ⟨hlt,hs⟩ | ⟨hmem,rfl⟩
    · exact h.fits i v (by rw [Book.declared,if_pos hlt,hs])
    · exact ⟨rfl,hw v hmem⟩
  case varDepth =>
    intro i o ho
    rcases d.cases ho with hold | ⟨v,-,-,-,rfl⟩
    · exact (h.varDepth i o hold).trans hdepth.ge
    · exact hdepth.ge
  case varMark =>
    intro i o ho k m hm
    rcases d.cases ho with hold | ⟨v,hv,rfl,hnone,rfl⟩
    · exact h.varMark i o hold k m hm
    · have hk : k < b.marks.length := (List.getElem?_eq_some_iff.mp hm).1
      have h1 := h.markVars k m hm
      have h2 := hnew v hv hnone
      have h3 := h.depth
      simp only
      omega
  case markVars => exact fun k m hm => (h.markVars k m hm).trans (hbn.trans hn)
  case markMono => exact h.markMono
  case adds => simp [h.adds]
  case addsCut =>
    have := h.addsCut.push p
    rwa [length_map,← h.depth] at this
  case pins => exact h.pins
  case pinsCut => exact h.pinsCut
  case log => exact h.log
  case unnamed =>
    intro i f hf
    have hnone := h.unnamed i f hf
    refine d.other i hnone ?_
    rintro v hv rfl
    rw [hfree v hv] at hf
    cases hf
  case held => exact h.held
  case ruled =>
    intro x hx
    refine (h.ruled x hx).imp_right (fun hr => ?_)
    refine h.rules_add hx hr rfl rfl rfl rfl (hbn.trans hn) (fun j hj => ?_)
    simp only [hslots]
    exact initSlots_old hid hj
  case base =>
    obtain ⟨p₀,hp₀,hbase⟩ := h.base
    refine ⟨p₀,hp₀,?_⟩
    have : AddText c₁.vars slots 0 p₀ c.base := hbase.mono (fun i o ho _ => hext i o ho)
    rw [d.rest] at this ⊢
    exact this
  case entries =>
    intro e he
    rcases mem_append.mp he with he | he
    · obtain ⟨it,hst,hkind,ht'⟩ := h.entries e he
      refine ⟨it,?_,hkind,ht'.mono (fun i o ho _ => hext i o ho)⟩
      cases it with
      | add q => exact mem_append_left _ hst
      | pin q => exact hst
      | excl x => exact hst
    · rw [mem_singleton.mp he]
      exact ⟨.add p,List.mem_append_right _ (by simp),rfl,htext⟩
  case items =>
    intro dd it hst
    have hold : Standing A P b.excluded dd it → ∃ e ∈ c.entries++[⟨.add,c.depth,em⟩], e.depth = dd ∧
        e.kind = it.kind ∧ it.Text c₁.vars slots dd e.text := by
      intro hst
      obtain ⟨e,he,hd,hkind,ht'⟩ := h.items dd it hst
      exact ⟨e,mem_append_left _ he,hd,hkind,ht'.mono (fun i o ho _ => hext i o ho)⟩
    cases it with
    | add q =>
      rcases mem_append.mp hst with hst | hst
      · exact hold hst
      · obtain ⟨rfl,rfl⟩ := Prod.mk.inj (mem_singleton.mp hst)
        exact ⟨_,List.mem_append_right _ (List.mem_singleton_self _),rfl,rfl,htext⟩
    | pin q => exact hold hst
    | excl x => exact hold hst
  case decls =>
    intro i o v ho hv
    simp only at ho hv
    rcases d.cases ho with hold | ⟨u,hu,rfl,hnone,rfl⟩
    · rw [(hext i o hold).2] at hv
      rcases h.decls i o v hold hv with ⟨h0,hs⟩ | ⟨e,he,hkind,hd,hs⟩
      · left
        rw [d.rest]
        exact ⟨h0,hs⟩
      · exact .inr ⟨e,mem_append_left _ he,hkind,hd,hs⟩
    · right
      rw [hslot u hu hnone] at hv
      obtain rfl := Option.some.inj hv
      refine ⟨_,List.mem_append_right _ (List.mem_singleton_self _),rfl,rfl,?_⟩
      intro x hx
      rw [hem,d.text_eq]
      apply mem_append_left
      exact List.mem_flatMap.mpr ⟨u,mem_filter.mpr ⟨hu,by simp [hnone]⟩,hx⟩
  case scans =>
    unfold Octx.script
    rw [hscript,scan_append,h.scans]
    exact hscan
  case nodup =>
    unfold Octx.script
    rw [hscript,hflat]
    exact hnames.1
  case names =>
    unfold Octx.script
    rw [hscript,hflat]
    exact hnames.2

end Add

theorem Book.log_nil (b : Book) (hm : b.marks = []) : b.scopeLog = [] := by
  rw [List.eq_nil_iff_forall_not_mem]
  intro e he
  have := b.log_open e he
  rw [hm] at this
  simp only [List.length_nil] at this
  omega

section Push
variable {c : Octx} {b : Book} {A : List (ℕ × Problem)} {P : List (ℕ × Pin)}

/-- One command over known variables at the end of the log, for an item that has come to
stand. -/
theorem Mirrors.push (h : Mirrors c b A P) {P' : List (ℕ × Pin)} {trail : List Pin}
    {scopeLog : List (ℕ × Pin)} {excluded holes : List (ℕ × BitVec 64)}
    (log_open : ∀ e ∈ scopeLog, 0 < e.1 ∧ e.1 ≤ b.marks.length) (it : Item) {d : ℕ} {x : Cmd}
    (hnames : x.names = []) (hscan : x.scan c.widths = some c.widths)
    (hit : it.Text c.vars b.slots d [x])
    (hst : ∀ d' it', Standing A P' excluded d' it' ↔
      Standing A P b.excluded d' it' ∨ (d' = d ∧ it' = it))
    (held : ∀ x ∈ holes, x ∈ excluded)
    (ruled : ∀ x ∈ excluded, x ∈ holes ∨ b.RulesOut x.1 x.2)
    (hpins : P'.map Prod.snd = trail) (hcut : Scoped (b.marks.map Mark.nPins) P')
    (hlog : scopeLog = P'.filter (fun e => 0 < e.1)) :
    Mirrors (c.push it.kind d [x])
      { b with
        trail := trail
        scopeLog := scopeLog
        excluded := excluded
        holes := holes
        log_open := log_open } A P' := by
  have hflat : (c.script++[x]).flatMap Cmd.names = c.script.flatMap Cmd.names := by
    simp [List.flatMap_append,hnames]
  exact {
    h with
    pins := hpins
    pinsCut := hcut
    log := hlog
    held := held
    ruled := ruled
    entries := by
      intro e he
      rcases mem_append.mp he with he | he
      · obtain ⟨it',hs,hrest⟩ := h.entries e he
        exact ⟨it',(hst _ _).mpr (.inl hs),hrest⟩
      · rw [mem_singleton.mp he]
        exact ⟨it,(hst _ _).mpr (.inr ⟨rfl,rfl⟩),rfl,hit⟩
    items := by
      intro d' it' hs
      rcases (hst _ _).mp hs with hs | ⟨rfl,rfl⟩
      · obtain ⟨e,he,hrest⟩ := h.items d' it' hs
        exact ⟨e,mem_append_left _ he,hrest⟩
      · exact ⟨_,List.mem_append_right _ (List.mem_singleton_self _),rfl,rfl,hit⟩
    decls := by
      intro i o v ho hv
      rcases h.decls i o v ho hv with hl | ⟨e,he,hrest⟩
      · exact .inl hl
      · exact .inr ⟨e,mem_append_left _ he,hrest⟩
    scans := by
      have hone : scan c.widths [x] = some c.widths := by rw [scan,hscan]; rfl
      rw [script_push,scan_append,h.scans]
      exact hone
    nodup := by
      rw [script_push,hflat]
      exact h.nodup
    names := by
      rw [script_push,hflat]
      exact h.names }

theorem Mirrors.log_push (h : Mirrors c b A P) (q : Pin) :
    (if b.marks = [] then b.scopeLog else b.scopeLog++[(b.marks.length,q)]) =
      (P++[(c.depth,q)]).filter (fun e => 0 < e.1) := by
  rw [List.filter_append,← h.log,h.depth]
  split
  · rename_i hm
    simp [hm]
  · rename_i hm
    have := List.length_pos_iff.mpr hm
    simp [this]

theorem Mirrors.pins_push (h : Mirrors c b A P) (q : Pin) :
    Scoped (b.marks.map Mark.nPins) (P++[(c.depth,q)]) := by
  have := h.pinsCut.push q
  rwa [length_map,← h.depth] at this

theorem Mirrors.pin (h : Mirrors c b A P) {id : ℕ} {value : BitVec 64} (ho : c.vars id = some o)
    (hv : o.ty.Has value) :
    Mirrors (c.push .pin c.depth [.equal id (emitValue value.toInt o.ty.width) o.ty.width])
      (b.logged ⟨id,value,none⟩ ⟨id,value,none⟩) A (P++[(c.depth,⟨id,value,none⟩)]) := by
  have hw : c.widths id = some o.ty.width := by simp [Octx.widths,ho]
  refine h.push (b.logged ⟨id,value,none⟩ ⟨id,value,none⟩).log_open (.pin ⟨id,value,none⟩) rfl
    ?_ ?_ ?_ h.held h.ruled ?_ (h.pins_push _) (h.log_push _)
  · simp [Cmd.scan,hw]
  · exact ⟨o,ho,h.varDepth id o ho,hv,rfl⟩
  · intro d' it'
    cases it' <;> simp [Standing]
    aesop
  · simp [h.pins]

theorem Mirrors.exclude (h : Mirrors c b A P) {id : ℕ} {value : BitVec 64} (ho : c.vars id = some o)
    (hv : o.ty.Has value) {lo hi : BitVec 64}
    (hin : (lo.toInt ≤ value.toInt ∧ value.toInt ≤ hi.toInt) ∨ b.RulesOut id value) :
    Mirrors (c.push .excl 0 [.distinct id (emitValue value.toInt o.ty.width) o.ty.width])
      (b.exclude id value true lo hi) A P := by
  have hw : c.widths id = some o.ty.width := by simp [Octx.widths,ho]
  refine h.push b.log_open (.excl (id,value)) rfl ?_ ⟨o,ho,hv,rfl⟩ ?_ ?_ ?_ h.pins h.pinsCut h.log
  · simp [Cmd.scan,hw]
  · intro d' it'
    cases it' <;> simp [Standing]
    aesop
  · intro x hx
    split at hx
    · exact mem_append_left _ (h.held x hx)
    · exact (mem_append.mp hx).elim (fun hx => mem_append_left _ (h.held x hx))
        (fun hx => List.mem_append_right _ hx)
  · intro x hx
    rcases mem_append.mp hx with hx | hx
    · refine (h.ruled x hx).imp_left (fun hx => ?_)
      split
      · exact hx
      · exact mem_append_left _ hx
    · rw [mem_singleton.mp hx]
      split
      · rename_i hno
        rcases hno with hmem | hout
        · exact .inl hmem
        · exact hin.imp_left (fun hin => by omega)
      · exact .inl (List.mem_append_right _ (List.mem_singleton_self _))

theorem Mirrors.checkpoint (h : Mirrors c b A P) :
    Mirrors (c.onCheckpoint b.marks.length) b.checkpoint A P := by
  have hmark : ∀ (k : ℕ) (m : Mark), (b.marks++[⟨b.nVars,b.adds.length,b.trail.length⟩])[k]? = some m →
      b.marks[k]? = some m ∨ (k = b.marks.length ∧ m = ⟨b.nVars,b.adds.length,b.trail.length⟩) := by
    intro k m hk
    rcases Nat.lt_or_ge k b.marks.length with hlt | hge
    · rw [List.getElem?_append_left hlt] at hk
      exact .inl hk
    · rw [List.getElem?_append_right hge] at hk
      obtain ⟨h0,hm⟩ := List.getElem?_eq_some_iff.mp hk
      simp only [List.length_singleton] at h0
      exact .inr ⟨by omega,by simpa using hm.symm⟩
  exact {
    h with
    depth := by simp [Octx.onCheckpoint,Book.checkpoint]
    varDepth := by
      intro i o ho
      have := h.varDepth i o ho
      have := h.depth
      simp only [Octx.onCheckpoint]
      omega
    varMark := by
      intro i o ho k m hk
      rcases hmark k m hk with hk | ⟨rfl,rfl⟩
      · exact h.varMark i o ho k m hk
      · have h1 := h.varDepth i o ho
        have h2 := h.known_lt ho
        have h3 := h.depth
        simp only
        omega
    markVars := by
      intro k m hk
      rcases hmark k m hk with hk | ⟨rfl,rfl⟩
      · exact h.markVars k m hk
      · exact le_rfl
    ruled := by
      intro x hx
      refine (h.ruled x hx).imp_right (fun hr => ?_)
      obtain ⟨o,ho⟩ := h.excluded_known hx
      refine hr.mono ?_ rfl rfl
      intro σ hσ
      have hnew : ∀ m, m = ⟨b.nVars,b.adds.length,b.trail.length⟩ →
          b.checkpoint.marks.find? (fun m => x.1 < m.nVars) = (b.marks.find? (fun m => x.1 < m.nVars)).or
            (some m) := by
        rintro m rfl
        have := h.known_lt ho
        simp [Book.checkpoint,List.find?_append,this]
      cases hi : b.marks.find? (fun m => x.1 < m.nVars) with
      | none =>
        rw [Book.home_some (by rw [hnew _ rfl,hi]; rfl)] at hσ
        rw [Book.home_none hi]
        simp only [Book.checkpoint,List.take_length] at hσ
        exact hσ
      | some m =>
        rw [Book.home_some (by rw [hnew _ rfl,hi]; rfl)] at hσ
        rw [Book.home_some hi]
        exact hσ
    markMono := by
      intro j k m m' hjk hj hk
      rcases hmark j m hj with hj | ⟨rfl,rfl⟩ <;> rcases hmark k m' hk with hk | ⟨rfl,rfl⟩
      · exact h.markMono j k m m' hjk hj hk
      · exact h.markVars j m hj
      · have := (List.getElem?_eq_some_iff.mp hk).1
        omega
      · exact le_rfl
    addsCut := by
      have := h.addsCut.checkpoint
      rw [show A.length = b.adds.length by rw [← h.adds,length_map]] at this
      simpa [Book.checkpoint] using this
    pinsCut := by
      have := h.pinsCut.checkpoint
      rw [show P.length = b.trail.length by rw [← h.pins,length_map]] at this
      simpa [Book.checkpoint] using this }

theorem script_eq (c : Octx) : c.script = (⟨.add,0,c.base⟩::c.entries).flatMap OEntry.text := rfl

/-- What is left of the script when entries are dropped whose declarations (`D`) nothing
that is kept names. -/
theorem Mirrors.scan_keep (h : Mirrors c b A P) (keep : OEntry → Bool) (D : ℕ → Prop)
    (hbase : keep ⟨.add,0,c.base⟩ = true)
    (hk : ∀ d (it : Item) text, it.Text c.vars b.slots d text → Standing A P b.excluded d it →
      keep ⟨it.kind,d,text⟩ = true → ∀ i o, c.vars i = some o → (o.depth ≤ d ∨ it.Names i) → ¬ D i)
    (hzero : ∀ i o, c.vars i = some o → o.depth = 0 → ¬ D i)
    (hd : ∀ d (it : Item) text, it.Text c.vars b.slots d text → keep ⟨it.kind,d,text⟩ = false →
      ∀ x ∈ text, ∀ i ∈ x.declares, D i) :
    ∃ k, scan (fun _ => none) (c.base ++ (c.entries.filter keep).flatMap OEntry.text) = some k ∧
      (∀ i, ¬ D i → k i = c.widths i) ∧ ∀ i, D i → k i = none := by
  have hs := h.scans
  obtain ⟨p₀,-,hb⟩ := h.base
  rw [show c.base ++ (c.entries.filter keep).flatMap OEntry.text =
      ((⟨.add,0,c.base⟩::c.entries).filter keep).flatMap OEntry.text by
    rw [List.filter_cons_of_pos hbase]; rfl]
  refine scan_filter (fun _ _ => rfl) ?_ ?_ hs
  · intro e he hke x hx i hi
    rcases List.mem_cons.mp he with rfl | he
    · obtain ⟨o,ho,hd0⟩ := hb.mentions x hx i hi
      exact hzero i o ho (Nat.le_zero.mp hd0)
    · obtain ⟨it,hst,hkind,ht⟩ := h.entries e he
      obtain ⟨o,ho,hor⟩ := ht.mentions x hx i hi
      exact hk e.depth it e.text ht hst (by rw [hkind]; exact hke) i o ho hor
  · intro e he hke x hx i hi
    rcases List.mem_cons.mp he with rfl | he
    · rw [hbase] at hke
      cases hke
    · obtain ⟨it,hst,hkind,ht⟩ := h.entries e he
      exact hd e.depth it e.text ht (by rw [hkind]; exact hke) x hx i hi

/-- The functions defined by a part of the script. -/
theorem Mirrors.names_keep (h : Mirrors c b A P) (keep : OEntry → Bool) :
    ((c.base ++ (c.entries.filter keep).flatMap OEntry.text).flatMap Cmd.names).Nodup ∧
      ∀ n ∈ (c.base ++ (c.entries.filter keep).flatMap OEntry.text).flatMap Cmd.names, n < c.defs := by
  have hsub : ((c.base ++ (c.entries.filter keep).flatMap OEntry.text).flatMap Cmd.names).Sublist
      (c.script.flatMap Cmd.names) :=
    ((List.filter_sublist.flatMap OEntry.text).append_left c.base).flatMap Cmd.names
  exact ⟨h.nodup.sublist hsub,fun n hn => h.names n (hsub.subset hn)⟩

/-- Where a variable that stands after a restore is found among the marks. -/
theorem find_take {marks : List Mark} {cp i : ℕ} {m : Mark} (hm : marks[cp]? = some m)
    (hi : i < m.nVars) : ∃ m', marks.find? (fun m => i < m.nVars) = some m' ∧
      ((m' = m ∧ (marks.take cp).find? (fun m => i < m.nVars) = none) ∨
        ∃ k : ℕ, (marks.take cp)[k]? = some m' ∧
          (marks.take cp).find? (fun m => i < m.nVars) = some m') := by
  obtain ⟨hlt,rfl⟩ := List.getElem?_eq_some_iff.mp hm
  have hsplit : marks.find? (fun m => i < m.nVars) =
      ((marks.take cp).find? (fun m => i < m.nVars)).or (some marks[cp]) := by
    nth_rewrite 1 [← List.take_append_drop cp marks]
    rw [List.find?_append,List.drop_eq_getElem_cons hlt,List.find?_cons_of_pos (by simpa using hi)]
  rw [hsplit]
  cases hf : (marks.take cp).find? (fun m => i < m.nVars) with
  | none => exact ⟨_,rfl,.inl ⟨rfl,rfl⟩⟩
  | some m' =>
    obtain ⟨k,hk⟩ := List.mem_iff_getElem?.mp (List.mem_of_find?_eq_some hf)
    exact ⟨m',rfl,.inr ⟨k,hk,rfl⟩⟩

theorem restore_eq {cp : ℕ} {m : Mark} (hm : b.marks[cp]? = some m) :
    b.restore cp = { b with
      nVars := m.nVars
      adds := b.adds.take m.nAdds
      trail := b.trail.take m.nPins
      scopeLog := b.scopeLog.filter (fun e => e.1 ≤ cp)
      holes := b.holes.filter (fun x => x.1 < m.nVars)
      marks := b.marks.take cp
      log_open := restored_log b cp } := by
  unfold Book.restore
  split
  · rename_i hnone
    rw [hm] at hnone
    cases hnone
  · rename_i m' hm'
    obtain rfl := Option.some.inj (hm.symm.trans hm')
    rfl

theorem Mirrors.restore (h : Mirrors c b A P) {cp : ℕ} {m : Mark} (hm : b.marks[cp]? = some m)
    (hexcl : ∀ x ∈ b.excluded, x.1 < m.nVars) :
    Mirrors (c.onRestore cp) (b.restore cp) (upTo cp A) (upTo cp P) := by
  have hlt : cp < b.marks.length := (List.getElem?_eq_some_iff.mp hm).1
  have hdepth := h.depth
  have hA := h.addsCut.restore (show (b.marks.map Mark.nAdds)[cp]? = some m.nAdds by simp [hm])
  have hP := h.pinsCut.restore (show (b.marks.map Mark.nPins)[cp]? = some m.nPins by simp [hm])
  obtain ⟨vars,hvars⟩ : ∃ vars, vars = fun id => (c.vars id).filter (fun v => v.depth ≤ cp) := ⟨_,rfl⟩
  obtain ⟨keep,hkeep⟩ : ∃ keep : OEntry → Bool,
      keep = fun (e : OEntry) => decide (e.depth ≤ cp) := ⟨_,rfl⟩
  have hc' : c.onRestore cp = { c with entries := c.entries.filter keep, vars := vars, depth := cp } := by
    rw [Octx.onRestore,if_neg (by omega),hvars,hkeep]
  have hvar : ∀ i o, vars i = some o ↔ c.vars i = some o ∧ o.depth ≤ cp := by
    intro i o
    rw [hvars]
    simp [Option.filter_eq_some_iff]
  have hgone : ∀ i o, c.vars i = some o → ¬ o.depth ≤ cp → vars i = none := by
    intro i o ho hd
    rw [hvars]
    simp only [ho]
    rw [Option.filter_some,if_neg (by simpa using hd)]
  have hmark : ∀ i o, c.vars i = some o → (o.depth ≤ cp ↔ i < m.nVars) :=
    fun i o ho => h.varMark i o ho cp m hm
  have hdecl : ∀ i, i < m.nVars → b.slots i = b.declared i := by
    intro i hi
    rw [Book.declared,if_pos (lt_of_lt_of_le hi (h.markVars cp m hm))]
  have htake : ∀ (k : ℕ) (m' : Mark), (b.marks.take cp)[k]? = some m' → k < cp ∧ b.marks[k]? = some m' := by
    intro k m' hk
    rw [List.getElem?_take] at hk
    split at hk
    · exact ⟨by assumption,hk⟩
    · cases hk
  have hstay : ∀ d it, d ≤ cp → Standing A P b.excluded d it → ∀ i o, c.vars i = some o →
      (o.depth ≤ d ∨ it.Names i) → vars i = some o ∧ b.slots i = b.slots i := by
    intro d it hd hst i o ho hor
    refine ⟨(hvar i o).mpr ⟨ho,?_⟩,rfl⟩
    rcases hor with hle | hn
    · exact hle.trans hd
    · cases it with
      | add p => exact hn.elim
      | pin q => exact hn.elim
      | excl x =>
        obtain rfl : x.1 = i := hn
        exact (hmark _ o ho).mpr (hexcl x hst.2)
  have hstanding : ∀ d it, Standing (upTo cp A) (upTo cp P) b.excluded d it ↔
      Standing A P b.excluded d it ∧ d ≤ cp := by
    intro d it
    cases it with
    | add p => exact mem_upTo
    | pin q =>
      simp only [Standing,mem_upTo]
      tauto
    | excl x =>
      simp only [Standing]
      constructor
      · rintro ⟨rfl,hx⟩
        exact ⟨⟨rfl,hx⟩,Nat.zero_le _⟩
      · exact fun hs => hs.1
  obtain ⟨k,hk,hag,hdropped⟩ := h.scan_keep keep (fun i => ∃ o, c.vars i = some o ∧ cp < o.depth)
    (by simp [hkeep])
    (by
      rintro d it text - hst hke i o ho hor ⟨o',ho',hlt'⟩
      have hd : d ≤ cp := by simpa [hkeep] using hke
      have := ((hvar i o).mp (hstay d it hd hst i o ho hor).1).2
      obtain rfl := Option.some.inj (ho.symm.trans ho')
      omega)
    (by
      rintro i o ho h0 ⟨o',ho',hlt'⟩
      obtain rfl := Option.some.inj (ho.symm.trans ho')
      omega)
    (by
      intro d it text ht hke x hx i hi
      obtain ⟨o,ho,hd⟩ := ht.declares x hx i hi
      have : ¬ d ≤ cp := by simpa [hkeep] using hke
      exact ⟨o,ho,by omega⟩)
  have hnames := h.names_keep keep
  have hwidths : k = fun i => (vars i).map (fun o => o.ty.width) := by
    funext i
    cases hi : c.vars i with
    | none =>
      rw [hag i (by rintro ⟨o,ho,-⟩; rw [hi] at ho; cases ho)]
      simp [Octx.widths,hvars,hi]
    | some o =>
      by_cases hd : o.depth ≤ cp
      · rw [hag i (by rintro ⟨o',ho',hlt'⟩; obtain rfl := Option.some.inj (hi.symm.trans ho'); omega)]
        rw [Octx.widths,hi,(hvar i o).mpr ⟨hi,hd⟩]
      · rw [hdropped i ⟨o,hi,by omega⟩,hgone i o hi hd]
        rfl
  rw [hc',restore_eq hm]
  exact {
    depth := by simp [min_eq_left hlt.le]
    same := by
      intro i
      simp only [Book.declared]
      cases hi : c.vars i with
      | none =>
        have hnone : b.declared i = none := (h.same.none_iff i).mp hi
        split
        · rename_i hlt'
          rw [hdecl i hlt',hnone,hvars]
          simp [hi]
        · rw [hvars]
          simp [hi]
      | some o =>
        by_cases hd : o.depth ≤ cp
        · have hlt' := (hmark i o hi).mp hd
          rw [if_pos hlt',hdecl i hlt',(hvar i o).mpr ⟨hi,hd⟩,← hi]
          exact h.same i
        · rw [if_neg (fun hlt' => hd ((hmark i o hi).mpr hlt')),hgone i o hi hd]
          rfl
    bound := fun i o ho => h.bound i o ((hvar i o).mp ho).1
    fits := by
      intro i v hv
      simp only [Book.declared] at hv
      split at hv
      · rename_i hlt'
        exact h.fits i v (by rw [← hdecl i hlt',hv])
      · cases hv
    varDepth := fun i o ho => ((hvar i o).mp ho).2
    varMark := by
      intro i o ho k m' hk
      exact h.varMark i o ((hvar i o).mp ho).1 k m' (htake k m' hk).2
    markVars := by
      intro k m' hk
      obtain ⟨hlt',hk⟩ := htake k m' hk
      exact h.markMono k cp m' m hlt'.le hk hm
    markMono := by
      intro j k m₁ m₂ hjk hj hk
      exact h.markMono j k m₁ m₂ hjk (htake j m₁ hj).2 (htake k m₂ hk).2
    adds := by rw [← hA.1,map_take,h.adds]
    addsCut := by
      rw [map_take]
      exact hA.2
    pins := by rw [← hP.1,map_take,h.pins]
    pinsCut := by
      rw [map_take]
      exact hP.2
    unnamed := by
      intro i f hf
      simp only [hvars,h.unnamed i f hf,Option.filter_none]
    held := fun x hx => h.held x (List.mem_of_mem_filter hx)
    ruled := by
      intro x hx
      have hlt' := hexcl x hx
      rcases h.ruled x hx with hx' | hr
      · exact .inl (mem_filter.mpr ⟨hx',by simpa using hlt'⟩)
      · right
        have hle := h.markVars cp m hm
        refine hr.mono ?_ ?_ rfl
        · intro σ hσ
          obtain ⟨m',hfind,hor⟩ := find_take hm hlt'
          rw [Book.home_some hfind]
          rcases hor with ⟨rfl,hnone⟩ | ⟨k,hk,hfind'⟩
          · rw [Book.home_none hnone] at hσ
            exact hσ
          · obtain ⟨hkcp,hk⟩ := htake k m' hk
            have hna := h.addsCut.cut_le hkcp.le (show (b.marks.map Mark.nAdds)[k]? = some m'.nAdds by simp [hk])
              (show (b.marks.map Mark.nAdds)[cp]? = some m.nAdds by simp [hm])
            rw [Book.home_some hfind'] at hσ
            simp only [List.take_take,min_eq_left hna] at hσ
            exact hσ
        · simp only [Book.declared]
          rw [if_pos hlt',if_pos (by omega)]
    log := by
      simp only [h.log,upTo,List.filter_filter]
      apply List.filter_congr
      intro e _
      exact Bool.and_comm _ _
    base := by
      obtain ⟨p₀,hp₀,hbase⟩ := h.base
      refine ⟨p₀,hp₀,hbase.mono (fun i o ho hd => ⟨(hvar i o).mpr ⟨ho,by omega⟩,rfl⟩)⟩
    entries := by
      intro e he
      obtain ⟨he,hke⟩ := mem_filter.mp he
      have hd : e.depth ≤ cp := by simpa [hkeep] using hke
      obtain ⟨it,hs,hkind,ht⟩ := h.entries e he
      refine ⟨it,?_,hkind,ht.mono (hstay e.depth it hd hs)⟩
      exact (hstanding _ _).mpr ⟨hs,hd⟩
    items := by
      intro d it hs
      obtain ⟨hs,hd⟩ := (hstanding _ _).mp hs
      obtain ⟨e,he,rfl,hkind,ht⟩ := h.items d it hs
      exact ⟨e,mem_filter.mpr ⟨he,by simpa [hkeep] using hd⟩,rfl,hkind,ht.mono (hstay e.depth it hd hs)⟩
    decls := by
      intro i o v ho hv
      obtain ⟨ho,hd⟩ := (hvar i o).mp ho
      rcases h.decls i o v ho hv with hl | ⟨e,he,hkind,hde,hs⟩
      · exact .inl hl
      · exact .inr ⟨e,mem_filter.mpr ⟨he,by simpa [hkeep,hde] using hd⟩,hkind,hde,hs⟩
    scans := by
      rw [hwidths] at hk
      exact hk
    nodup := hnames.1
    names := hnames.2 }

theorem Mirrors.resetRoot (h : Mirrors c b A P) (hm : b.marks = []) :
    Mirrors c.onReset { b with trail := [] } A [] := by
  have hdepth : c.depth = 0 := by rw [h.depth,hm]; rfl
  obtain ⟨keep,hkeep⟩ : ∃ keep : OEntry → Bool,
      keep = fun (e : OEntry) => decide (e.kind ≠ Kind.pin) := ⟨_,rfl⟩
  have hc' : c.onReset = { c with entries := c.entries.filter keep } := by
    rw [Octx.onReset,if_neg (by omega),hkeep]
  have hlog := b.log_nil hm
  have hst : ∀ d it, Standing A [] b.excluded d it ↔ Standing A P b.excluded d it ∧ it.kind ≠ .pin := by
    intro d it
    cases it <;> simp [Standing,Item.kind]
  obtain ⟨k,hk,hag,-⟩ := h.scan_keep keep (fun _ => False) (by simp [hkeep])
    (fun _ _ _ _ _ _ _ _ _ _ hf => hf) (fun _ _ _ _ hf => hf) (by
      intro d it text ht hke x hx i hi
      have hkind : it.kind = .pin := by simpa [hkeep] using hke
      cases it with
      | pin q =>
        obtain ⟨o,-,-,-,rfl⟩ := ht
        simp only [mem_singleton] at hx
        subst hx
        cases hi
      | add p => cases hkind
      | excl y => cases hkind)
  obtain rfl : k = c.widths := funext (fun i => hag i (fun hf => hf))
  have hnames := h.names_keep keep
  rw [hc']
  exact {
    h with
    pins := rfl
    pinsCut := by
      rw [hm]
      exact Scoped.nil
    log := hlog
    entries := by
      intro e he
      obtain ⟨he,hke⟩ := mem_filter.mp he
      obtain ⟨it,hs,hkind,ht⟩ := h.entries e he
      refine ⟨it,(hst _ _).mpr ⟨hs,?_⟩,hkind,ht⟩
      rw [hkind]
      simpa [hkeep] using hke
    items := by
      intro d it hs
      obtain ⟨hs,hne⟩ := (hst _ _).mp hs
      obtain ⟨e,he,hd,hkind,ht⟩ := h.items d it hs
      refine ⟨e,mem_filter.mpr ⟨he,?_⟩,hd,hkind,ht⟩
      rw [← hkind] at hne
      simpa [hkeep] using hne
    decls := by
      intro i o v ho hv
      rcases h.decls i o v ho hv with hl | ⟨e,he,hkind,hrest⟩
      · exact .inl hl
      · exact .inr ⟨e,mem_filter.mpr ⟨he,by simp [hkeep,hkind]⟩,hkind,hrest⟩
    scans := hk
    nodup := hnames.1
    names := hnames.2 }

theorem Mirrors.resetScope (h : Mirrors c b A P) (hm : b.marks ≠ []) : b.reset = b := by
  obtain ⟨ms,m,hms⟩ : ∃ ms m, b.marks = ms++[m] :=
    ⟨b.marks.dropLast,b.marks.getLast hm,(List.dropLast_append_getLast hm).symm⟩
  have hcut : Scoped (ms.map Mark.nPins++[m.nPins]) P := by
    have := h.pinsCut
    rwa [hms,List.map_append] at this
  have hinner := hcut.innermost
  have htrail : b.trail.take m.nPins ++
      (b.scopeLog.filter (fun e => e.1 = b.marks.length)).map Prod.snd = b.trail := by
    have hlog : b.scopeLog.filter (fun e => e.1 = b.marks.length) = P.drop m.nPins := by
      rw [hinner,h.log,List.filter_filter,hms]
      apply List.filter_congr
      intro e _
      simp only [List.length_append,List.length_singleton]
      by_cases he : e.1 = ms.length+1 <;> simp [he]
    rw [hlog,← h.pins,← map_take,← List.map_append,List.take_append_drop]
  have hlast : b.marks.getLast? = some m := by rw [hms]; simp
  unfold Book.reset
  split
  · rfl
  · split
    · rename_i hnone
      rw [hlast] at hnone
      cases hnone
    · rename_i m' hm'
      obtain rfl := Option.some.inj (hlast.symm.trans hm')
      rw [htrail]

end Push

end Oracle
end DvSolve
