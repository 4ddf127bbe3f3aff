import DvSolve.BuilderBlocks
import DvSolve.Linked

/-! The item lists in the image of the pool: chains of links through items that lie apart, and
what each operation of the builder does to them. -/
namespace DvSolve
namespace Build

open Function ByteStore Linked

variable {pool : Store} {l : List ℕ} {k : Kind} {content : List Byte}

/-- The links lead from `head` through the items to `EXPR_NULL`. -/
def Chain (pool : Store) (head : ℕ) (l : List ℕ) : Prop :=
  Path (fun a => some (word pool 4 (a-poolHeaderSz))) (some exprNull) (some head) l

theorem chain_nil {head : ℕ} : Chain pool head [] ↔ head = exprNull :=
  Option.some_inj

theorem chain_cons {head a : ℕ} :
    Chain pool head (a :: l) ↔ head = a ∧ Chain pool (word pool 4 (a-poolHeaderSz)) l :=
  and_congr_left fun _ => Option.some_inj

theorem Chain.congr {pool' : Store} {head : ℕ} (h : Chain pool head l)
    (hw : ∀ a ∈ l, word pool' 4 (a-poolHeaderSz) = word pool 4 (a-poolHeaderSz)) :
    Chain pool' head l :=
  Path.congr h fun a ha => congrArg some (hw a ha)

theorem Chain.listing {head : ℕ} (h : Chain pool head l) :
    listing pool l.length head = l := by
  induction l generalizing head with
  | nil => rfl
  | cons a l ih =>
    obtain ⟨rfl,hl⟩ := chain_cons.mp h
    rw [List.length_cons,Build.listing,ih hl]

/-- The bytes of an item that the code reads or patches by its kind: its link, and of a variable
all of it. -/
def span : Kind → ℕ
  | .vars => 32
  | _ => 4

theorem four_le_span (k : Kind) : 4 ≤ span k := by cases k <;> decide

/-- All items ever added, `born`, lie apart, and the lists go through some of them. -/
structure Laid (b : Builder) (born : Set (Kind × ℕ)) (items : Kind → List ℕ) : Prop where
  inside : ∀ k a, (k,a) ∈ born → poolHeaderSz ≤ a ∧ b.Inside (a-poolHeaderSz) (span k)
  apart : ∀ k a k' a', (k,a) ∈ born → (k',a') ∈ born → (k = k' ∧ a = a') ∨ a+span k ≤ a' ∨ a'+span k' ≤ a
  mem : ∀ k, ∀ a ∈ items k, (k,a) ∈ born
  nodup : ∀ k, (items k).Nodup
  chain : ∀ k, Chain b.image (b.head k) (items k)
  count : ∀ k, b.count k = (items k).length

variable {b b' : Builder} {born : Set (Kind × ℕ)} {items : Kind → List ℕ}

theorem Laid.create (blockSize : ℕ) (custom : Bool) (junk : Store) :
    Laid (.create blockSize custom junk) ∅ fun _ => [] :=
  ⟨fun _ _ h => absurd h (Set.notMem_empty _),fun _ _ _ _ h => absurd h (Set.notMem_empty _),
    fun _ _ h => absurd h List.not_mem_nil,fun _ => List.nodup_nil,fun _ => chain_nil.mpr rfl,
    fun _ => rfl⟩

theorem Laid.of_links (h : Laid b born items) (hin : ∀ off n, b.Inside off n → b'.Inside off n)
    (hw : ∀ k a, (k,a) ∈ born → word b'.image 4 (a-poolHeaderSz) = word b.image 4 (a-poolHeaderSz))
    (hhead : b'.head = b.head) (hcount : b'.count = b.count) : Laid b' born items := by
  refine ⟨fun k a ha => ?_,h.apart,h.mem,h.nodup,fun k => ?_,fun k => ?_⟩
  · obtain ⟨h1,h2⟩ := h.inside k a ha
    exact ⟨h1,hin _ _ h2⟩
  · rw [hhead]
    exact (h.chain k).congr fun a ha => hw k a (h.mem k a ha)
  · rw [hcount]
    exact h.count k

theorem Laid.end_le (h : Laid b born items) (hb : b.Wf) {a : ℕ} (ha : (k,a) ∈ born) :
    a+span k ≤ poolHeaderSz+b.virtualUsed := by
  obtain ⟨h1,blk,hblk,_,h3⟩ := h.inside k a ha
  have := hb.block_end hblk
  omega

structure Added (b : Builder) (content : List Byte) (ref : ℕ) (b' : Builder) : Prop where
  wf : b'.Wf
  image : b'.image = put b.image (ref-poolHeaderSz) content
  past : poolHeaderSz+b.virtualUsed ≤ ref
  used : poolHeaderSz+b'.virtualUsed = ref+content.length
  inside : ∀ off n, b.Inside off n → b'.Inside off n
  here : b'.Inside (ref-poolHeaderSz) content.length
  head : b'.head = b.head
  count : b'.count = b.count
  custom : b'.custom = b.custom

theorem node_added (h : b.Wf) {align : ℕ} {m : Builder.Fresh} (halign : 1 < align)
    (hne : content ≠ []) (hlen : content.length < 2^32) :
    b.node align content m = some none ∨
      ∃ ref b', b.node align content m = some (some (ref,b')) ∧ Added b content ref b' := by
  have hpos : content.length ≠ 0 := fun h0 => hne (List.length_eq_zero_iff.mp h0)
  unfold Builder.node
  rw [Nat.mod_eq_of_lt hlen]
  cases ha : b.alloc content.length align m with
  | none => exact .inl rfl
  | some r =>
    obtain ⟨ref,b1⟩ := r
    have hall := Builder.alloc_allocated h (show 0 < align by omega) hpos ha
    have hlow : b.virtualUsed ≤ Builder.alignUp b.virtualUsed align :=
      Builder.le_alignUp (show 0 < align by omega)
    have hfill := Builder.fill_rewritten hall.wf content hall.here hall.used.ge
    have hlast := hall.wf.last
    have hused := hall.used
    rw [← hall.ref_eq,hall.image] at hfill
    have hoff : ref-poolHeaderSz = Builder.alignUp b.virtualUsed align := by
      rw [hall.ref_eq,Nat.add_sub_cancel_left]
    refine .inr ⟨ref,_,if_pos hlen,hfill.wf,?_,?_,?_,?_,?_,?_,?_,?_⟩
    · rw [hfill.image,hoff]
    · rw [hall.ref_eq]
      omega
    · rw [hfill.used,hall.ref_eq,hall.used]
      omega
    · exact fun off n hin => hfill.inside off n (hall.inside off n hin)
    · rw [hoff]
      refine hfill.inside _ _ ⟨b1.current,?_,hall.here,by omega⟩
      exact List.mem_append_right _ List.mem_cons_self
    · exact hfill.head.trans hall.head
    · exact hfill.count.trans hall.count
    · exact hfill.custom.trans hall.custom

theorem Added.word_eq {ref : ℕ} (h : Added b content ref b') {off n : ℕ}
    (hoff : off+n ≤ b.virtualUsed) : word b'.image n off = word b.image n off := by
  have := h.past
  rw [h.image]
  exact word_put_outside (.inl (by omega))

theorem Added.laid {ref : ℕ} (h : Added b content ref b') (hb : b.Wf) (hl : Laid b born items) :
    Laid b' born items := by
  refine hl.of_links h.inside (fun k a ha => h.word_eq ?_) h.head h.count
  have h1 := hl.end_le hb ha
  have h2 := four_le_span k
  have h3 := (hl.inside k a ha).1
  omega

theorem Added.laid_item {payload : List Byte} {ref : ℕ}
    (h : Added b (le 4 (b.head k) ++ payload) ref b') (hb : b.Wf) (hl : Laid b born items)
    (hspan : span k ≤ 4+payload.length) :
    Laid (b'.setHead k ref) (insert (k,ref) born) (Function.update items k (ref :: items k)) := by
  have hlen : (le 4 (b.head k) ++ payload).length = 4+payload.length := by
    rw [List.length_append,le_length]
  have hnew : ∀ k' a, (k',a) ∈ born → a+span k' ≤ ref := fun k' a ha =>
    (hl.end_le hb ha).trans h.past
  have hfresh : ∀ k', (k',ref) ∉ born := by
    intro k' hk'
    have h1 := hnew k' ref hk'
    have h2 := four_le_span k'
    omega
  have hbase := h.laid hb hl
  have hhead : b.head k < 256^4 := by
    have hchain := hl.chain k
    have hcases : b.head k = exprNull ∨ b.head k ∈ items k := by
      cases hitems : items k with
      | nil =>
        rw [hitems] at hchain
        exact .inl (chain_nil.mp hchain)
      | cons a l =>
        rw [hitems] at hchain
        rw [(chain_cons.mp hchain).1]
        exact .inr List.mem_cons_self
    obtain hnull | hmem := hcases
    · rw [hnull]
      decide
    · have h1 := hl.end_le hb (hl.mem k _ hmem)
      have h2 := hb.small
      have h3 : exprNull < 256^4 := by decide
      omega
  have hlink : word b'.image 4 (ref-poolHeaderSz) = b.head k := by
    rw [h.image,word_put,Nat.mod_eq_of_lt hhead]
  have hrefge := h.past
  refine ⟨fun k' a ha => ?_,?_,?_,?_,?_,?_⟩
  · obtain heq | hold := Set.mem_insert_iff.mp ha
    · obtain ⟨rfl,rfl⟩ := Prod.mk.inj heq
      refine ⟨by omega,?_⟩
      obtain ⟨blk,h1,h2,h3⟩ := h.here
      exact ⟨blk,h1,h2,by omega⟩
    · exact hbase.inside k' a hold
  · intro k1 a1 k2 a2 h1 h2
    obtain he1 | hold1 := Set.mem_insert_iff.mp h1
    · obtain ⟨rfl,rfl⟩ := Prod.mk.inj he1
      obtain he2 | hold2 := Set.mem_insert_iff.mp h2
      · obtain ⟨rfl,rfl⟩ := Prod.mk.inj he2
        exact .inl ⟨rfl,rfl⟩
      · exact .inr (.inr (hnew k2 a2 hold2))
    · obtain he2 | hold2 := Set.mem_insert_iff.mp h2
      · obtain ⟨rfl,rfl⟩ := Prod.mk.inj he2
        exact .inr (.inl (hnew k1 a1 hold1))
      · exact hl.apart k1 a1 k2 a2 hold1 hold2
  · intro k' a ha
    by_cases hk : k' = k
    · subst hk
      rw [update_self] at ha
      obtain rfl | hmem := List.mem_cons.mp ha
      · exact Set.mem_insert _ _
      · exact Set.mem_insert_of_mem _ (hl.mem k' a hmem)
    · rw [update_of_ne hk] at ha
      exact Set.mem_insert_of_mem _ (hl.mem k' a ha)
  · intro k'
    by_cases hk : k' = k
    · subst hk
      rw [update_self]
      exact List.nodup_cons.mpr ⟨fun hmem => hfresh k' (hl.mem k' ref hmem),hl.nodup k'⟩
    · rw [update_of_ne hk]
      exact hl.nodup k'
  · intro k'
    by_cases hk : k' = k
    · subst hk
      rw [update_self]
      refine chain_cons.mpr ⟨update_self _ _ _,?_⟩
      rw [show (b'.setHead k' ref).image = b'.image from rfl,hlink,← h.head]
      exact hbase.chain k'
    · rw [update_of_ne hk]
      rw [show (b'.setHead k ref).head k' = b'.head k' from update_of_ne hk _ _]
      exact hbase.chain k'
  · intro k'
    by_cases hk : k' = k
    · subst hk
      rw [update_self,List.length_cons]
      rw [show (b'.setHead k' ref).count k' = b'.count k'+1 from update_self _ _ _,hbase.count k']
    · rw [update_of_ne hk]
      rw [show (b'.setHead k ref).count k' = b'.count k' from update_of_ne hk _ _]
      exact hbase.count k'

theorem Laid.refPtr (hl : Laid b born items) (hb : b.Wf) {a : ℕ} (ha : (k,a) ∈ born) :
    ∃ i loc blk, b.refPtr a = some (i,loc) ∧ b.blocks[i]? = some blk ∧
      blk.base+loc = a-poolHeaderSz ∧ loc+span k ≤ blk.used := by
  obtain ⟨h1,h2⟩ := hl.inside k a ha
  have hpos : 0 < span k := lt_of_lt_of_le (by decide) (four_le_span k)
  obtain ⟨i,loc,blk,hptr,hblk,hoff,hloc⟩ := hb.refPtr_inside hpos h2
  rw [show poolHeaderSz+(a-poolHeaderSz) = a by omega] at hptr
  exact ⟨i,loc,blk,hptr,hblk,hoff,hloc⟩

/-- A byte of a variable's kind or order changed: the lists are left alone. -/
theorem Laid.poke (hl : Laid b born items) (hb : b.Wf) {a i loc d : ℕ} {blk : Block}
    (ha : (.vars,a) ∈ born) (hblk : b.blocks[i]? = some blk) (hoff : blk.base+loc = a-poolHeaderSz)
    (hloc : loc+span .vars ≤ blk.used) (hd : 4 ≤ d) (hd' : d < span .vars) (v : Byte) :
    (b.poke i (loc+d) v).Wf ∧ Laid (b.poke i (loc+d) v) born items ∧
      (b.poke i (loc+d) v).image = put b.image (a-poolHeaderSz+d) [v] ∧
      (b.poke i (loc+d) v).virtualUsed = b.virtualUsed := by
  have hr := Builder.poke_rewritten hb hblk (show loc+d < blk.used by omega) v
  rw [show blk.base+(loc+d) = a-poolHeaderSz+d by omega] at hr
  have hlow := (hl.inside .vars a ha).1
  refine ⟨hr.wf,hl.of_links hr.inside (fun k c hc => ?_) hr.head hr.count,hr.image,hr.used⟩
  rw [hr.image]
  refine word_put_outside ?_
  have hone : [v].length = 1 := rfl
  obtain ⟨rfl,rfl⟩ | h := hl.apart k c .vars a hc ha <;> omega

theorem Laid.findVar (hl : Laid b born items) (hb : b.Wf) {varId n : ℕ} {p : ℕ × ℕ} {r : ℕ}
    (hchain : Chain b.image r l) (hmem : ∀ a ∈ l, (.vars,a) ∈ born)
    (h : b.findVar varId n r = some p) : ∃ a ∈ l, b.refPtr a = some p := by
  induction n generalizing r l with
  | zero => exact absurd h nofun
  | succ n ih =>
    unfold Builder.findVar at h
    by_cases hnull : r = exprNull
    · rw [if_pos hnull] at h
      exact absurd h nofun
    rw [if_neg hnull] at h
    cases l with
    | nil => exact absurd (chain_nil.mp hchain) hnull
    | cons a l =>
      obtain ⟨rfl,htail⟩ := chain_cons.mp hchain
      obtain ⟨i,loc,blk,hptr,hblk,hoff,hloc⟩ := hl.refPtr hb (hmem r List.mem_cons_self)
      rw [hptr] at h
      by_cases hid : b.read (i,loc) 4 = varId
      · simp only [if_pos hid] at h
        exact ⟨r,List.mem_cons_self,hptr.trans h⟩
      · simp only [if_neg hid] at h
        have hspan : span .vars = 32 := rfl
        rw [hb.read_image hblk (show loc+0+4 ≤ blk.used by omega),hoff,Nat.add_zero] at h
        obtain ⟨a',ha',hp⟩ := ih htail (fun x hx => hmem x (List.mem_cons_of_mem _ hx)) h
        exact ⟨a',List.mem_cons_of_mem _ ha',hp⟩

theorem Laid.dropNewest (hl : Laid b born items) (hb : b.Wf) {n : ℕ} (hn : n ≤ (items k).length) :
    ∃ b', b.dropNewest k n = some b' ∧ b'.Wf ∧
      Laid b' born (Function.update items k ((items k).drop n)) ∧ b'.image = b.image ∧
      b'.virtualUsed = b.virtualUsed ∧ b'.custom = b.custom := by
  induction n generalizing b items with
  | zero =>
    refine ⟨b,rfl,hb,?_,rfl,rfl,rfl⟩
    rw [List.drop_zero,Function.update_eq_self]
    exact hl
  | succ n ih =>
    cases hitems : items k with
    | nil =>
      rw [hitems] at hn
      exact absurd hn (by simp)
    | cons a l =>
      have hchain := hl.chain k
      have hcount := hl.count k
      have hmem := hl.mem k
      have hnodup := hl.nodup k
      rw [hitems] at hchain hcount hmem hnodup
      obtain ⟨hhead,htail⟩ := chain_cons.mp hchain
      obtain ⟨i,loc,blk,hptr,hblk,hoff,hloc⟩ := hl.refPtr hb (hmem a List.mem_cons_self)
      have h4 := four_le_span k
      have hnull : b.head k ≠ exprNull := by
        have h1 := hl.end_le hb (hmem a List.mem_cons_self)
        have h2 := hb.small
        omega
      have hread : b.read (i,loc) 0 = word b.image 4 (a-poolHeaderSz) := by
        rw [hb.read_image hblk (show loc+0+4 ≤ blk.used by omega),hoff,Nat.add_zero]
      let b1 : Builder := { b with
        head := Function.update b.head k (b.read (i,loc) 0)
        count := Function.update b.count k (b.count k-1) }
      have hl1 : Laid b1 born (Function.update items k l) := by
        refine ⟨hl.inside,hl.apart,fun k' x hx => ?_,fun k' => ?_,fun k' => ?_,fun k' => ?_⟩
        · by_cases hk : k' = k
          · subst hk
            rw [update_self] at hx
            exact hmem x (List.mem_cons_of_mem _ hx)
          · rw [update_of_ne hk] at hx
            exact hl.mem k' x hx
        · by_cases hk : k' = k
          · subst hk
            rw [update_self]
            exact (List.nodup_cons.mp hnodup).2
          · rw [update_of_ne hk]
            exact hl.nodup k'
        · by_cases hk : k' = k
          · subst hk
            rw [update_self,show b1.head k' = b.read (i,loc) 0 from
              update_self _ _ _,hread]
            exact htail
          · rw [update_of_ne hk,show b1.head k' = b.head k' from
              update_of_ne hk _ _]
            exact hl.chain k'
        · by_cases hk : k' = k
          · subst hk
            rw [update_self,show b1.count k' = b.count k'-1 from
              update_self _ _ _,hcount,List.length_cons,Nat.add_sub_cancel]
          · rw [update_of_ne hk,show b1.count k' = b.count k' from
              update_of_ne hk _ _]
            exact hl.count k'
      have hb1 : b1.Wf := ⟨hb.ordered,hb.fits,hb.first,hb.last,hb.small⟩
      have hlen : n ≤ (Function.update items k l k).length := by
        rw [hitems,List.length_cons] at hn
        rw [update_self]
        omega
      obtain ⟨b',hd,hb',hl',himg,hused,hcustom⟩ := ih hl1 hb1 hlen
      refine ⟨b',?_,hb',?_,himg,hused,hcustom⟩
      · unfold Builder.dropNewest
        rw [if_neg hnull,hhead,hptr]
        exact hd
      · rw [update_self,Function.update_idem] at hl'
        rw [List.drop_succ_cons]
        exact hl'

structure Live (items : Kind → List ℕ) (m : Kind → ℕ) (kept : Kind → List ℕ) : Prop where
  count : ∀ k, m k = (kept k).length
  oldest : ∀ k, kept k <:+ items k

theorem Laid.rewind_kinds (hl : Laid b born items) (hb : b.Wf) {m : Kind → ℕ}
    {kept : Kind → List ℕ} (hm : ∀ k, m k = (kept k).length) (ks : List Kind)
    (hks : ∀ k ∈ ks, kept k <:+ items k) :
    ∃ b' items', ks.foldlM (fun b k => Builder.dropNewest b k (b.count k-m k)) b = some b' ∧
      b'.Wf ∧ Laid b' born items' ∧ (∀ k, k ∈ ks ∨ items k = kept k → items' k = kept k) ∧
      b'.image = b.image ∧ b'.virtualUsed = b.virtualUsed ∧ b'.custom = b.custom := by
  induction ks generalizing b items with
  | nil => exact ⟨b,items,rfl,hb,hl,fun k hk => hk.resolve_left List.not_mem_nil,rfl,rfl,rfl⟩
  | cons k ks ih =>
    have hsuffix := hks k List.mem_cons_self
    obtain ⟨b1,hdrop,hb1,hl1,himg,hused,hcustom⟩ :=
      hl.dropNewest hb (k := k) (n := (items k).length-(kept k).length) (Nat.sub_le _ _)
    rw [← List.suffix_iff_eq_drop.mp hsuffix] at hl1
    have hrest : ∀ j ∈ ks, kept j <:+ Function.update items k (kept k) j := by
      intro j hj
      by_cases hjk : j = k
      · subst hjk
        rw [update_self]
      · rw [update_of_ne hjk]
        exact hks j (List.mem_cons_of_mem _ hj)
    obtain ⟨b2,items2,hfold,hb2,hl2,hkept,himg2,hused2,hcustom2⟩ := ih hl1 hb1 hrest
    refine ⟨b2,items2,?_,hb2,hl2,fun j hj => hkept j ?_,himg2.trans himg,hused2.trans hused,
      hcustom2.trans hcustom⟩
    · rw [List.foldlM_cons,hl.count k,hm k,hdrop]
      exact hfold
    · by_cases hjk : j = k
      · subst hjk
        exact .inr (update_self _ _ _)
      · rw [update_of_ne hjk]
        exact hj.imp_left fun h => (List.mem_cons.mp h).resolve_left hjk

theorem Kind.mem_all (k : Kind) : k ∈ Kind.all := by cases k <;> decide

theorem Laid.rewind (hl : Laid b born items) (hb : b.Wf) {m : Kind → ℕ} {kept : Kind → List ℕ}
    (hlive : Live items m kept) :
    ∃ b', b.rewind m = some b' ∧ b'.Wf ∧ Laid b' born kept ∧ b'.image = b.image ∧
      b'.virtualUsed = b.virtualUsed ∧ b'.custom = b.custom := by
  obtain ⟨b',items',hfold,hb',hl',hkept,himg,hused,hcustom⟩ :=
    hl.rewind_kinds hb hlive.count Kind.all fun k _ => hlive.oldest k
  obtain rfl : items' = kept := funext fun k => hkept k (.inl (Kind.mem_all k))
  have hahead : ¬ ∃ k ∈ Kind.all, b.count k < m k := by
    rintro ⟨k,_,hk⟩
    rw [hl.count k,hlive.count k] at hk
    exact absurd (hlive.oldest k).length_le (not_le.mpr hk)
  exact ⟨b',by rw [Builder.rewind,if_neg hahead]; exact hfold,hb',hl',himg,hused,hcustom⟩

end Build
end DvSolve
