import DvSolve.BuilderCut

/-! Runs of the builder with a problem kept up to date by appending: when the copy that is
appended to stays what a full copy would be. -/
namespace DvSolve
namespace Build

open ByteStore Builder
open List (length_append)
open Option (not_mem_none)

def Builder.items (b : Builder) (k : Kind) : List ℕ := listing b.image (b.count k) (b.head k)

structure Taken where
  mark : Kind → ℕ
  kept : Kind → List ℕ

/-- The builder, the problem that `dvs_builder_finalize_append` last returned, the variables
declared and the marks taken. -/
structure Sys where
  b : Builder
  prev : Option Problem
  vars : List ℕ
  taken : List Taken

inductive Op
  | expr (eight : Bool) (kind : Byte) (rest : List Byte) (m : Fresh)
  | addVar (varId width : ℕ) (isSigned : Byte) (lo hi : ℕ) (m : Fresh)
  | addConstraint (root : ℕ) (m : Fresh)
  | addSource (varIds : List ℕ) (m : Fresh)
  | addAllDifferent (varIds : List ℕ) (m : Fresh)
  | addSoft (root priority : ℕ) (m : Fresh)
  | addDist (varId : ℕ) (entries : List DistEntry) (m : Fresh)
  | setVarOrder (varId : ℕ) (stage : Byte)
  | setVarKind (varId kind : ℕ)
  | markVarAux (ref : ℕ)
  | mark
  | rewind (t : Taken)
  | finalizeAppend (m : Fresh)
  | cutUncut (m : Kind → ℕ) (junk : Cut)

namespace Sys

def start (blockSize : ℕ) (custom : Bool) (junk : Store) : Sys :=
  ⟨.create blockSize custom junk,none,[],[]⟩

def added (s : Sys) (isVar : Bool) : Option (ℕ × Builder) → Sys
  | none => s
  | some (ref,b) => { s with b := b, vars := if isVar then ref :: s.vars else s.vars }

def setBuilder (s : Sys) (b : Builder) : Sys := { s with b := b }

def setPrev (s : Sys) (p : Problem) : Sys := { s with prev := some p }

/-- One call; `none` is a store past the end of a block or of a problem. -/
def step (s : Sys) : Op → Option Sys
  | .expr eight kind rest m =>
    (s.b.node (if eight then 8 else 4) (kind :: rest) m).map (s.added false)
  | .addVar varId width isSigned lo hi m =>
    (s.b.addVar varId width isSigned lo hi m).map (s.added true)
  | .addConstraint root m => (s.b.addConstraint root m).map (s.added false)
  | .addSource varIds m => (s.b.addSource varIds m).map (s.added false)
  | .addAllDifferent varIds m => (s.b.addAllDifferent varIds m).map (s.added false)
  | .addSoft root priority m => (s.b.addSoftConstraint root priority m).map (s.added false)
  | .addDist varId entries m => (s.b.addDist varId entries m).map (s.added false)
  | .setVarOrder varId stage => some (s.setBuilder (s.b.setVarOrder varId stage))
  | .setVarKind varId kind => some (s.setBuilder (s.b.setVarKind varId kind))
  | .markVarAux ref => some (s.setBuilder (s.b.markVarAux ref))
  | .mark => some { s with taken := ⟨s.b.count,s.b.items⟩ :: s.taken }
  | .rewind t => some (s.setBuilder ((s.b.rewind t.mark).getD s.b))
  | .finalizeAppend m =>
    (Build.finalizeAppend s.b s.prev m).map fun r => (r.map s.setPrev).getD s
  | .cutUncut m junk =>
    some ((s.prev.bind fun p => (cutSince p m junk).map fun c => s.setPrev (uncut c.1 c.2)).getD s)

def run (s : Sys) : List Op → Option Sys
  | [] => some s
  | op :: ops => (s.step op).bind fun s' => s'.run ops

/-- The calls in question: only declared variables are marked, and only live marks rewound to. -/
def Legal (s : Sys) : Op → Prop
  | .markVarAux ref => ref ∈ s.vars
  | .rewind t => t ∈ s.taken ∧ Live s.b.items t.mark t.kept
  | _ => True

def offsetAt (s : Sys) (p : ℕ × ℕ) (d : ℕ) : ℕ :=
  ((s.b.blocks[p.1]?).map Block.base).getD 0+p.2+d

def Uncopied (s : Sys) (off : ℕ) (v : Byte) : Prop :=
  s.b.custom = true ∨ ∀ p ∈ s.prev, p.used ≤ off ∨ s.b.image off = v

def Grows (s : Sys) : Prop :=
  s.b.custom = true ∨ ∀ p ∈ s.prev,
    s.b.virtualUsed ≤ p.capacity ∨ s.b.virtualUsed+headroom s.b.virtualUsed < 2^32

/-- The condition on a call: no node of 4 GiB, no setter on a copied byte with another value, no
growth past 32 bits. -/
def Calm (s : Sys) : Op → Prop
  | .expr _ _ rest _ => rest.length+1 < 2^32
  | .addSource varIds _ => 8+4*varIds.length < 2^32
  | .addAllDifferent varIds _ => 8+4*varIds.length < 2^32
  | .addDist _ entries _ => 12+24*entries.length < 2^32
  | .setVarOrder varId stage => ∀ p, s.b.findVar varId (s.b.count .vars+1) (s.b.head .vars) = some p →
      s.Uncopied (s.offsetAt p 14) stage
  | .setVarKind varId kind => ∀ p, s.b.findVar varId (s.b.count .vars+1) (s.b.head .vars) = some p →
      kind ≤ 3 → s.Uncopied (s.offsetAt p 13) (BitVec.ofNat 8 kind)
  | .markVarAux ref => ∀ p, s.b.refPtr ref = some p → s.Uncopied (s.offsetAt p 13) 1
  | .finalizeAppend _ => s.Grows
  | _ => True

def Meets (s : Sys) : List Op → Prop
  | [] => True
  | op :: ops => s.Legal op ∧ s.Calm op ∧ ∀ s', s.step op = some s' → s'.Meets ops

end Sys

variable {b b' : Builder} {born : Set (Kind × ℕ)} {items : Kind → List ℕ} {p : Problem}

structure Tracks (b : Builder) (p : Problem) : Prop where
  used : p.used ≤ b.virtualUsed
  room : p.used ≤ p.room
  capacity : p.capacity ≤ p.room
  pool : ∀ off, off < p.used → p.pool off = b.image off

theorem Laid.items_eq (hl : Laid b born items) : b.items = items := by
  funext k
  rw [Builder.items,hl.count k]
  exact (hl.chain k).listing

theorem Laid.listed (hl : Laid b born items) (hb : b.Wf) (h : Same (finalize b) p) :
    Listed p items := by
  have hused : p.used = b.virtualUsed := h.used
  have hlow : ∀ k, ∀ a ∈ items k, poolHeaderSz ≤ a ∧ a+4 ≤ poolHeaderSz+p.used := by
    intro k a ha
    have h1 := hl.end_le hb (hl.mem k a ha)
    have h2 := four_le_span k
    exact ⟨(hl.inside k a (hl.mem k a ha)).1,by omega⟩
  refine ⟨fun k => ?_,fun k => ?_,hl.nodup,fun k a k' a' ha ha' => ?_,hlow,hused ▸ hb.small⟩
  · rw [h.head]
    refine (hl.chain k).congr fun a ha => word_congr fun off h1 h2 => h.pool off ?_
    obtain ⟨h3,h4⟩ := hlow k a ha
    show off < b.virtualUsed
    omega
  · rw [h.count]
    exact hl.count k
  · have h4 := four_le_span k
    have h4' := four_le_span k'
    obtain heq | hap := hl.apart k a k' a' (hl.mem k a ha) (hl.mem k' a' ha')
    · exact .inl heq
    · exact .inr (by omega)

theorem append_same (hb : b.Wf) (h : Tracks b p) (hroom : b.virtualUsed ≤ p.room) :
    ∃ q, append b p = some q ∧ Same (finalize b) q ∧ Tracks b q := by
  refine ⟨_,by rw [append,if_neg (not_lt.mpr hroom)],?_⟩
  have hpool : ∀ off, off < b.virtualUsed →
      copyRange b p.pool p.used b.virtualUsed off = b.image off := by
    intro off hoff
    rw [hb.copyRange_eq]
    by_cases hold : off < p.used
    · rw [copy,if_neg (by omega)]
      exact h.pool off hold
    · rw [copy,if_pos ⟨not_lt.mp hold,hoff⟩]
  exact ⟨⟨rfl,rfl,rfl,hpool⟩,⟨le_rfl,hroom,h.capacity,hpool⟩⟩

theorem lt_headroom (used : ℕ) : 0 < headroom used := by
  unfold headroom
  split_ifs <;> omega

theorem finalizeAppend_same (hb : b.Wf) {prev : Option Problem}
    (hprev : b.custom = false → ∀ p ∈ prev, Tracks b p)
    (hgrow : b.custom = true ∨ ∀ p ∈ prev,
      b.virtualUsed ≤ p.capacity ∨ b.virtualUsed+headroom b.virtualUsed < 2^32) (m : Fresh) :
    ∃ r, finalizeAppend b prev m = some r ∧
      ∀ q ∈ r, Same (finalize b) q ∧ (b.custom = false → Tracks b q) := by
  have hfull : ∀ q, q = (if b.custom then finalize b else finalizeReserve b (headroom b.virtualUsed)) →
      Same (finalize b) q ∧ (b.custom = false → Tracks b q) := by
    rintro q rfl
    by_cases hc : b.custom = true
    · rw [if_pos hc]
      exact ⟨⟨rfl,rfl,rfl,fun _ _ => rfl⟩,fun hf => absurd (hc.symm.trans hf) (by decide)⟩
    · rw [if_neg hc]
      exact ⟨⟨rfl,rfl,rfl,fun _ _ => rfl⟩,fun _ => ⟨le_rfl,Nat.le_add_right _ _,Nat.mod_le _ _,
        fun _ _ => rfl⟩⟩
  have hfullr : ∃ r, (if m.ok then some (some (if b.custom then finalize b
      else finalizeReserve b (headroom b.virtualUsed))) else some none) = some r ∧
      ∀ q ∈ r, Same (finalize b) q ∧ (b.custom = false → Tracks b q) := by
    by_cases hok : m.ok = true
    · exact ⟨_,if_pos hok,fun q hq => hfull q (Option.some.inj hq).symm⟩
    · exact ⟨none,if_neg hok,fun q hq => absurd hq (not_mem_none q)⟩
  cases prev with
  | none => exact hfullr
  | some p =>
    unfold finalizeAppend
    by_cases hc : b.custom = true
    · simp only [hc,true_or,if_true] at hfullr ⊢
      exact hfullr
    have hcf : b.custom = false := Bool.eq_false_iff.mpr hc
    have htracks := hprev hcf p rfl
    have hstep : ∀ {p' : Problem}, Tracks b p' → b.virtualUsed ≤ p'.room →
        ∃ r, (append b p').map some = some r ∧
          ∀ q ∈ r, Same (finalize b) q ∧ (b.custom = false → Tracks b q) := by
      intro p' hp' hroom
      obtain ⟨q,hq,hsame,ht⟩ := append_same hb hp' hroom
      refine ⟨some q,by rw [hq]; rfl,fun q' hq' => ?_⟩
      obtain rfl := Option.some.inj hq'
      exact ⟨hsame,fun _ => ht⟩
    have hnot : ¬ (b.custom = true ∨ b.virtualUsed < p.used) :=
      not_or.mpr ⟨hc,not_lt.mpr htracks.used⟩
    simp only [if_neg hnot]
    by_cases hcap : p.capacity < b.virtualUsed
    · rw [if_pos hcap]
      by_cases hok : m.ok = true
      · rw [if_pos hok]
        have hfits : b.virtualUsed+headroom b.virtualUsed < 2^32 :=
          (hgrow.resolve_left hc p rfl).resolve_left (not_le.mpr hcap)
        have hused := htracks.used
        have hroom := htracks.room
        rw [Nat.mod_eq_of_lt hfits]
        refine hstep ⟨hused,show p.used ≤ b.virtualUsed+headroom b.virtualUsed by omega,le_rfl,fun off hoff => ?_⟩
          (Nat.le_add_right _ _)
        have hlt : off < p.used := hoff
        show copy m.junk p.pool 0 (min p.room (b.virtualUsed+headroom b.virtualUsed)) off = _
        rw [copy,if_pos ⟨Nat.zero_le off,by omega⟩]
        exact htracks.pool off hoff
      · rw [if_neg hok]
        exact ⟨none,rfl,fun q hq => absurd hq (not_mem_none q)⟩
    · rw [if_neg hcap]
      exact hstep htracks ((not_lt.mp hcap).trans htracks.capacity)

namespace Sys

variable {s s' : Sys}

/-- The lists are laid out, the variables declared are items, and the problem is what a full
copy was when it was made. -/
structure Inv (s : Sys) : Prop where
  wf : s.b.Wf
  laid : ∃ born, Laid s.b born s.b.items ∧ ∀ ref ∈ s.vars, (Kind.vars,ref) ∈ born
  marks : ∀ t ∈ s.taken, ∀ k, t.mark k = (t.kept k).length
  listed : ∀ p ∈ s.prev, ∃ items, Listed p items
  tracks : s.b.custom = false → ∀ p ∈ s.prev, Tracks s.b p

theorem inv_start (blockSize : ℕ) (custom : Bool) (junk : Store) :
    (start blockSize custom junk).Inv := by
  have hl := Laid.create blockSize custom junk
  refine ⟨create_wf blockSize custom junk,⟨∅,?_,fun _ h => absurd h List.not_mem_nil⟩,
    fun _ h => absurd h List.not_mem_nil,fun p h => absurd h (not_mem_none p),
    fun _ p h => absurd h (not_mem_none p)⟩
  have hitems := hl.items_eq
  rw [← hitems] at hl
  exact hl

theorem Inv.setBuilder (h : s.Inv) {b : Builder} {born : Set (Kind × ℕ)} {items : Kind → List ℕ}
    {vars : List ℕ} (hb : b.Wf) (hl : Laid b born items)
    (hvars : ∀ ref ∈ vars, (Kind.vars,ref) ∈ born) (hused : s.b.virtualUsed ≤ b.virtualUsed)
    (hcustom : b.custom = s.b.custom)
    (hpool : s.b.custom = false → ∀ p ∈ s.prev, ∀ off, off < p.used → b.image off = s.b.image off) :
    ({ s with b := b, vars := vars } : Sys).Inv := by
  refine ⟨hb,⟨born,?_,hvars⟩,h.marks,h.listed,fun hc p hp => ?_⟩
  · rw [hl.items_eq]
    exact hl
  · have hc' : s.b.custom = false := hcustom ▸ hc
    have ht := h.tracks hc' p hp
    refine ⟨ht.used.trans hused,ht.room,ht.capacity,fun off hoff => ?_⟩
    rw [ht.pool off hoff]
    exact (hpool hc' p hp off hoff).symm

theorem added_pool (h : s.Inv) {content : List Byte} {ref : ℕ} {b : Builder}
    (ha : Added s.b content ref b) :
    s.b.custom = false → ∀ p ∈ s.prev, ∀ off, off < p.used → b.image off = s.b.image off := by
  intro hc p hp off hoff
  have h1 := (h.tracks hc p hp).used
  have h2 := ha.past
  rw [ha.image]
  exact put_outside (.inl (by omega))

theorem added_used {content : List Byte} {ref : ℕ} {b : Builder} (ha : Added s.b content ref b) :
    s.b.virtualUsed ≤ b.virtualUsed := by
  have h1 := ha.past
  have h2 := ha.used
  omega

theorem inv_item (h : s.Inv) {k : Kind} {align : ℕ} {payload : List Byte} {m : Fresh}
    (isVar : Bool) (hvar : isVar = true → k = .vars) (halign : 1 < align)
    (hspan : span k ≤ 4+payload.length) (hlen : 4+payload.length < 2^32) :
    ∃ s', (s.b.item k align payload m).map (s.added isVar) = some s' ∧ s'.Inv := by
  obtain ⟨born,hl,hvars⟩ := h.laid
  have hclen : (le 4 (s.b.head k) ++ payload).length = 4+payload.length := by
    rw [length_append,le_length]
  have hne : le 4 (s.b.head k) ++ payload ≠ [] := fun h0 => by
    rw [h0,List.length_nil] at hclen
    omega
  unfold Builder.item
  obtain hnone | ⟨ref,b,hnode,ha⟩ := node_added h.wf (m := m) halign hne (by omega)
  · exact ⟨s,by rw [hnone]; rfl,h⟩
  · have hlaid := ha.laid_item h.wf hl hspan
    have hwf : (b.setHead k ref).Wf := ⟨ha.wf.ordered,ha.wf.fits,ha.wf.first,ha.wf.last,ha.wf.small⟩
    refine ⟨_,by rw [hnode]; rfl,?_⟩
    have hpool := added_pool h ha
    have hused := added_used ha
    refine h.setBuilder hwf hlaid (fun r hr => ?_) hused ha.custom hpool
    cases isVar with
    | false => exact Set.mem_insert_of_mem _ (hvars r hr)
    | true =>
      obtain rfl | hmem := List.mem_cons.mp hr
      · rw [hvar rfl]
        exact Set.mem_insert _ _
      · exact Set.mem_insert_of_mem _ (hvars r hmem)

theorem inv_expr (h : s.Inv) {align : ℕ} {content : List Byte} {m : Fresh} (halign : 1 < align)
    (hne : content ≠ []) (hlen : content.length < 2^32) :
    ∃ s', (s.b.node align content m).map (s.added false) = some s' ∧ s'.Inv := by
  obtain ⟨born,hl,hvars⟩ := h.laid
  obtain hnone | ⟨ref,b,hnode,ha⟩ := node_added h.wf (m := m) halign hne hlen
  · exact ⟨s,by rw [hnone]; rfl,h⟩
  · refine ⟨_,by rw [hnode]; rfl,?_⟩
    exact h.setBuilder ha.wf (ha.laid h.wf hl) hvars (added_used ha) ha.custom (added_pool h ha)

theorem inv_poke (h : s.Inv) {born : Set (Kind × ℕ)} (hl : Laid s.b born s.b.items)
    (hvars : ∀ ref ∈ s.vars, (Kind.vars,ref) ∈ born) {a d : ℕ} (ha : (Kind.vars,a) ∈ born)
    {q : ℕ × ℕ} (hq : s.b.refPtr a = some q) (hd : 4 ≤ d) (hd' : d < span .vars) {v : Byte}
    (hv : s.Uncopied (s.offsetAt q d) v) : (s.setBuilder (s.b.poke q.1 (q.2+d) v)).Inv := by
  obtain ⟨i,loc,blk,hptr,hblk,hoff,hloc⟩ := hl.refPtr h.wf ha
  obtain rfl : (i,loc) = q := Option.some.inj (hptr.symm.trans hq)
  obtain ⟨hwf,hlaid,himage,hused⟩ := hl.poke h.wf ha hblk hoff hloc hd hd' v
  have hat : s.offsetAt (i,loc) d = a-poolHeaderSz+d := by
    show ((s.b.blocks[i]?).map Block.base).getD 0+loc+d = _
    rw [hblk,← hoff]
    rfl
  rw [hat] at hv
  refine h.setBuilder hwf hlaid hvars hused.ge rfl fun hc p hp off hoffp => ?_
  rw [himage]
  by_cases heq : off = a-poolHeaderSz+d
  · subst heq
    obtain hcust | hun := hv
    · exact absurd (hc.symm.trans hcust) (by decide)
    · have hval := (hun p hp).resolve_left (not_le.mpr hoffp)
      rw [hval]
      exact put_inside (l := [v]) (i := 0) Nat.zero_lt_one
  · have hone : [v].length = 1 := rfl
    exact put_outside (by omega)

theorem flatMap_length {α : Type*} {f : α → List Byte} {n : ℕ} (hf : ∀ x, (f x).length = n)
    (l : List α) : (l.flatMap f).length = n*l.length := by
  induction l with
  | nil => rfl
  | cons x l ih => rw [List.flatMap_cons,length_append,hf,ih,List.length_cons,Nat.mul_succ,
      Nat.add_comm]

theorem entry_length (e : DistEntry) : e.bytes.length = 24 := by
  simp only [DistEntry.bytes,length_append,le_length,List.length_cons,List.length_nil]

theorem uncut_of_cut {p : Problem} (h : ∃ items, Listed p items) {m : Kind → ℕ} {junk : Cut}
    {c : Problem × Cut} (hc : cutSince p m junk = some c) : uncut c.1 c.2 = p := by
  obtain ⟨items,hlisted⟩ := h
  have hm : ∀ k, m k ≤ p.count k := by
    intro k
    by_contra hlt
    rw [cutSince,if_pos ⟨k,Kind.mem_all k,not_le.mp hlt⟩] at hc
    cases hc
  obtain ⟨s,hs,_,_,hback⟩ := cutSince_spec hlisted hm junk
  obtain rfl : s = c := Option.some.inj (hs.symm.trans hc)
  exact hback

theorem inv_step (h : s.Inv) {op : Op} (hlegal : s.Legal op) (hcalm : s.Calm op) :
    ∃ s', s.step op = some s' ∧ s'.Inv := by
  obtain ⟨born,hl,hvars⟩ := h.laid
  have hfound : ∀ {varId : ℕ} {q : ℕ × ℕ},
      s.b.findVar varId (s.b.count .vars+1) (s.b.head .vars) = some q →
      ∃ a, (Kind.vars,a) ∈ born ∧ s.b.refPtr a = some q := by
    intro varId q hq
    obtain ⟨a,ha,hp⟩ := hl.findVar h.wf (hl.chain .vars) (hl.mem .vars) hq
    exact ⟨a,hl.mem .vars a ha,hp⟩
  cases op with
  | expr eight kind rest m =>
    refine inv_expr h ?_ (List.cons_ne_nil _ _) hcalm
    split_ifs <;> decide
  | addVar varId width isSigned lo hi m =>
    by_cases hw : width = 0 ∨ maxWidth < width
    · exact ⟨s,by rw [step,Builder.addVar,if_pos hw]; rfl,h⟩
    · have hlen : (le 4 varId ++ le 4 width ++ [isSigned,0,0,0] ++ le 8 lo ++ le 8 hi).length = 28 := by
        simp only [length_append,le_length,List.length_cons,List.length_nil]
      rw [step,Builder.addVar,if_neg hw]
      exact inv_item h true (fun _ => rfl) (by decide) (by rw [hlen]; decide) (by rw [hlen]; decide)
  | addConstraint root m =>
    have hlen : (le 4 root ++ le 4 0).length = 8 := by
      rw [length_append,le_length,le_length]
    exact inv_item h false nofun (by decide) (by rw [hlen]; decide) (by rw [hlen]; decide)
  | addSource varIds m =>
    have hlen : (le 4 varIds.length ++ varIds.flatMap (le 4)).length = 4+4*varIds.length := by
      rw [length_append,le_length,flatMap_length (le_length 4)]
    have hbound : 8+4*varIds.length < 2^32 := hcalm
    exact inv_item h false nofun (by decide) (show 4 ≤ _ by omega) (by omega)
  | addAllDifferent varIds m =>
    have hlen : (le 4 varIds.length ++ varIds.flatMap (le 4)).length = 4+4*varIds.length := by
      rw [length_append,le_length,flatMap_length (le_length 4)]
    have hbound : 8+4*varIds.length < 2^32 := hcalm
    exact inv_item h false nofun (by decide) (show 4 ≤ _ by omega) (by omega)
  | addSoft root priority m =>
    have hlen : (le 4 root ++ le 4 priority ++ le 4 0).length = 12 := by
      simp only [length_append,le_length]
    exact inv_item h false nofun (by decide) (by rw [hlen]; decide) (by rw [hlen]; decide)
  | addDist varId entries m =>
    have hlen : (le 4 varId ++ le 4 entries.length ++ entries.flatMap DistEntry.bytes).length =
        8+24*entries.length := by
      rw [length_append,length_append,le_length,le_length,flatMap_length entry_length]
    have hbound : 12+24*entries.length < 2^32 := hcalm
    exact inv_item h false nofun (by decide) (show 4 ≤ _ by omega) (by omega)
  | setVarOrder varId stage =>
    refine ⟨_,rfl,?_⟩
    unfold Builder.setVarOrder
    cases hq : s.b.findVar varId (s.b.count .vars+1) (s.b.head .vars) with
    | none => exact h
    | some q =>
      obtain ⟨a,ha,hp⟩ := hfound hq
      exact inv_poke h hl hvars ha hp (by decide) (by decide) (hcalm q hq)
  | setVarKind varId kind =>
    refine ⟨_,rfl,?_⟩
    unfold Builder.setVarKind
    by_cases hk : 3 < kind
    · rw [if_pos hk]
      exact h
    rw [if_neg hk]
    cases hq : s.b.findVar varId (s.b.count .vars+1) (s.b.head .vars) with
    | none => exact h
    | some q =>
      obtain ⟨a,ha,hp⟩ := hfound hq
      exact inv_poke h hl hvars ha hp (by decide) (by decide) (hcalm q hq (not_lt.mp hk))
  | markVarAux ref =>
    refine ⟨_,rfl,?_⟩
    unfold Builder.markVarAux
    cases hq : s.b.refPtr ref with
    | none => exact h
    | some q => exact inv_poke h hl hvars (hvars ref hlegal) hq (by decide) (by decide) (hcalm q hq)
  | mark =>
    refine ⟨_,rfl,h.wf,⟨born,hl,hvars⟩,fun t ht => ?_,h.listed,h.tracks⟩
    obtain rfl | hmem := List.mem_cons.mp ht
    · exact hl.count
    · exact h.marks t hmem
  | rewind t =>
    obtain ⟨b,hb,hwf,hlaid,himage,hused,hcustom⟩ := hl.rewind h.wf hlegal.2
    refine ⟨_,rfl,?_⟩
    rw [hb]
    exact h.setBuilder hwf hlaid hvars hused.ge hcustom fun _ _ _ off _ => congrFun himage off
  | finalizeAppend m =>
    obtain ⟨r,hr,hsame⟩ := finalizeAppend_same h.wf h.tracks hcalm m
    refine ⟨_,by rw [step,hr]; rfl,?_⟩
    cases r with
    | none => exact h
    | some p =>
      obtain ⟨h1,h2⟩ := hsame p rfl
      refine ⟨h.wf,⟨born,hl,hvars⟩,h.marks,fun q hq => ?_,fun hc q hq => ?_⟩
      · obtain rfl := Option.some.inj hq
        exact ⟨_,hl.listed h.wf h1⟩
      · obtain rfl := Option.some.inj hq
        exact h2 hc
  | cutUncut m junk =>
    refine ⟨_,rfl,?_⟩
    cases hp : s.prev with
    | none => exact h
    | some p =>
      rw [Option.bind_some]
      cases hc : cutSince p m junk with
      | none => exact h
      | some c =>
        have hback := uncut_of_cut (h.listed p hp) hc
        rw [Option.map_some,Option.getD_some,hback]
        rw [show s.setPrev p = s by rw [setPrev,← hp]]
        exact h

structure Right (s : Sys) : Prop where
  /-- Appending gives the problem that a full copy gives, with the builder's lists. -/
  append : s.Grows → ∀ m, ∃ r, Build.finalizeAppend s.b s.prev m = some r ∧
    ∀ p ∈ r, Same (finalize s.b) p ∧ Listed p s.b.items
  /-- The problem returned, cut at a live mark, lists what was added since, as
  `dvs_builder_finalize_since` does. -/
  cut : ∀ p, Same (finalize s.b) p → ∀ t ∈ s.taken, Live s.b.items t.mark t.kept → ∀ junk,
    ∃ c items, cutSince p t.mark junk = some c ∧ Listed c.1 items ∧
      (∀ k, s.b.items k = items k ++ t.kept k) ∧ uncut c.1 c.2 = p ∧
      ∃ f, finalizeSince s.b t.mark = some f ∧ Same c.1 f
  /-- The problem kept is put back whatever mark it was cut at. -/
  uncut : ∀ p ∈ s.prev, ∀ m junk c, cutSince p m junk = some c → Build.uncut c.1 c.2 = p

theorem Inv.right (h : s.Inv) : s.Right := by
  obtain ⟨born,hl,_⟩ := h.laid
  refine ⟨fun hgrow m => ?_,fun p hp t ht hlive junk => ?_,fun p hp m junk c hc =>
    uncut_of_cut (h.listed p hp) hc⟩
  · obtain ⟨r,hr,hsame⟩ := finalizeAppend_same h.wf h.tracks hgrow m
    exact ⟨r,hr,fun p hp => ⟨(hsame p hp).1,hl.listed h.wf (hsame p hp).1⟩⟩
  · have hlp := hl.listed h.wf hp
    have hself : Same (finalize s.b) (finalize s.b) := ⟨rfl,rfl,rfl,fun _ _ => rfl⟩
    have hlf := hl.listed h.wf hself
    have hle : ∀ k, t.mark k ≤ s.b.count k := by
      intro k
      rw [hl.count k,hlive.count k]
      exact (hlive.oldest k).length_le
    have hm : ∀ k, t.mark k ≤ p.count k := by
      intro k
      rw [hp.count]
      exact hle k
    obtain ⟨c,hc,hlisted,_,hback⟩ := cutSince_spec hlp hm junk
    refine ⟨c,_,hc,hlisted,fun k => ?_,hback,?_⟩
    · rw [cutLists,if_pos (Kind.mem_all k),hlive.count k]
      obtain ⟨new,hnew⟩ := hlive.oldest k
      rw [← hnew,length_append,Nat.add_sub_cancel,List.take_left']
      rfl
    · have hsame : Same p (finalize s.b) := ⟨hp.head.symm,hp.count.symm,hp.used.symm,
        fun off hoff => (hp.pool off (hp.used ▸ hoff)).symm⟩
      obtain ⟨f,hf,hsamef⟩ := cutLists_same hlp hlf hsame junk Kind.all
      have hahead : ∀ q : Kind → ℕ, (∀ k, t.mark k ≤ q k) → ¬ ∃ k ∈ Kind.all, q k < t.mark k := by
        rintro q hq ⟨k,_,hk⟩
        exact absurd (hq k) (not_le.mpr hk)
      refine ⟨f,by rw [finalizeSince,if_neg (hahead _ hle)]; exact hf,?_⟩
      rw [cutSince,if_neg (hahead _ hm)] at hc
      rw [← Option.some.inj hc]
      exact hsamef

theorem run_inv (h : s.Inv) {ops : List Op} (hops : s.Meets ops) :
    ∃ s', s.run ops = some s' ∧ s'.Inv := by
  induction ops generalizing s with
  | nil => exact ⟨s,rfl,h⟩
  | cons op ops ih =>
    obtain ⟨hlegal,hcalm,hrest⟩ := hops
    obtain ⟨s1,hs1,h1⟩ := inv_step h hlegal hcalm
    obtain ⟨s2,hs2,h2⟩ := ih h1 (hrest s1 hs1)
    exact ⟨s2,by rw [run,hs1]; exact hs2,h2⟩

/-- In every run whose calls meet the condition, the problem appended to is in every state what a
full copy is, and it is cut and put back as it should be. -/
theorem builder_runs (blockSize : ℕ) (custom : Bool) (junk : Store) (ops : List Op)
    (hops : (start blockSize custom junk).Meets ops) :
    ∃ s, (start blockSize custom junk).run ops = some s ∧ s.Right := by
  obtain ⟨s,hs,hinv⟩ := run_inv (inv_start blockSize custom junk) hops
  exact ⟨s,hs,hinv.right⟩

def mem : Fresh := ⟨true,fun _ => 0⟩

theorem builder_runs_declared :
    ∃ s, (start 0 false fun _ => 0).run [.finalizeAppend mem,.addVar 0 8 0 0 255 mem,
      .finalizeAppend mem] = some s ∧ s.Right := by
  refine builder_runs 0 false (fun _ => 0) _ ⟨trivial,.inr nofun,fun s1 h1 => ⟨trivial,trivial,
    fun s2 h2 => ⟨trivial,.inr fun p hp => .inl ?_,fun _ _ => trivial⟩⟩⟩
  obtain rfl := Option.some.inj h1
  obtain rfl := Option.some.inj h2
  obtain rfl := Option.some.inj hp
  decide

/-- The kind of a variable changed after it was copied: the next append leaves the old kind. -/
theorem kind_changed_late :
    ∃ s, (start 0 false fun _ => 0).run [.addVar 0 8 0 0 255 mem,.finalizeAppend mem,
      .setVarKind 0 3] = some s ∧ ¬ s.Right := by
  refine ⟨_,rfl,fun h => ?_⟩
  obtain ⟨r,hr,hsame⟩ := h.append (.inr fun p hp => .inl (by
    obtain rfl := Option.some.inj hp
    decide)) mem
  obtain rfl := Option.some.inj hr
  have hbyte := (hsame _ rfl).1.pool 13 (by decide)
  exact absurd hbyte (by decide)

end Sys

end Build
end DvSolve
