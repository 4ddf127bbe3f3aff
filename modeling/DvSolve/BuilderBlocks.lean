import DvSolve.Builder

/-! The blocks as one store: what an allocation, a store, a copy and a lookup through the block
index do to the image of the pool. -/
namespace DvSolve
namespace Build

open ByteStore
open List (foldl_cons getElem?_eq_getElem length_append mem_singleton pairwise_iff_getElem)

variable {l : List Block} {pool pool' : Store} {off : ℕ}
variable {blk : Block} {i : ℕ} {blk' : Block}

def Ordered (l : List Block) : Prop := l.Pairwise fun x y => x.base+x.used ≤ y.base

theorem place_has (h : blk.Has off) : place pool blk off = blk.data (off-blk.base) :=
  if_pos h

theorem place_not_has (h : ¬ blk.Has off) : place pool blk off = pool off := if_neg h

theorem places_none (h : ∀ blk ∈ l, ¬ blk.Has off) : l.foldl place pool off = pool off := by
  induction l generalizing pool with
  | nil => rfl
  | cons blk l ih =>
    rw [foldl_cons,ih fun x hx => h x (List.mem_cons_of_mem blk hx),
      place_not_has (h blk List.mem_cons_self)]

theorem places_mem (hl : Ordered l) (hblk : blk ∈ l) (h : blk.Has off) :
    l.foldl place pool off = blk.data (off-blk.base) := by
  induction l generalizing pool with
  | nil => exact absurd hblk List.not_mem_nil
  | cons x l ih =>
    obtain ⟨hx,hl⟩ := List.pairwise_cons.mp hl
    rw [foldl_cons]
    obtain rfl | hmem := List.mem_cons.mp hblk
    · rw [places_none,place_has h]
      intro y hy hyo
      have h1 := hx y hy
      have h2 := h.2
      have h3 := hyo.1
      omega
    · exact ih hl hmem

theorem places_congr (h : pool off = pool' off) : l.foldl place pool off = l.foldl place pool' off := by
  induction l generalizing pool pool' with
  | nil => exact h
  | cons x l ih =>
    refine ih ?_
    unfold place
    rw [h]

namespace Builder

variable {b : Builder}

/-- The blocks cover the pool, each within its capacity. -/
structure Wf (b : Builder) : Prop where
  ordered : Ordered b.blocks
  fits : ∀ blk ∈ b.blocks, blk.used ≤ blk.capacity
  first : b.blocks.head?.map Block.base = some 0
  last : b.current.base+b.current.used = b.virtualUsed
  small : b.virtualUsed+poolHeaderSz < exprNull

theorem create_wf (blockSize : ℕ) (custom : Bool) (junk : Store) :
    (create blockSize custom junk).Wf :=
  ⟨List.pairwise_singleton _ _,fun blk h => by
    rw [mem_singleton.mp h]
    exact Nat.zero_le _,rfl,rfl,show 0+poolHeaderSz < exprNull by decide⟩

theorem Wf.older_end (h : b.Wf) (hblk : blk ∈ b.older) :
    blk.base+blk.used ≤ b.current.base :=
  (List.pairwise_append.mp h.ordered).2.2 blk hblk b.current List.mem_cons_self

theorem Wf.block_end (h : b.Wf) (hblk : blk ∈ b.blocks) :
    blk.base+blk.used ≤ b.virtualUsed := by
  have hlast := h.last
  obtain hold | hcur := List.mem_append.mp hblk
  · have := h.older_end hold
    omega
  · rw [mem_singleton.mp hcur,hlast]

theorem image_eq (b : Builder) : b.image = place (b.older.foldl place fun _ => 0) b.current := by
  rw [image,blocks,List.foldl_append,foldl_cons,List.foldl_nil]

theorem Wf.image_past (h : b.Wf) (hoff : b.virtualUsed ≤ off) : b.image off = 0 := by
  refine places_none fun blk hblk hhas => ?_
  have h1 := h.block_end hblk
  have h2 := hhas.2
  omega

theorem Wf.older_past (h : b.Wf) (hoff : b.current.base ≤ off) :
    b.older.foldl place (fun _ => 0) off = 0 := by
  refine places_none fun blk hblk hhas => ?_
  have h1 := h.older_end hblk
  have h2 := hhas.2
  omega

/-- The bytes from `off` on are in one block. -/
def Inside (b : Builder) (off n : ℕ) : Prop :=
  ∃ blk ∈ b.blocks, blk.base ≤ off ∧ off+n ≤ blk.base+blk.used

/-- What a successful allocation gives: a fresh zeroed range at the end of the current block. -/
structure Allocated (b : Builder) (bytes align : ℕ) (ref : ℕ) (b' : Builder) : Prop where
  wf : b'.Wf
  image : b'.image = b.image
  ref_eq : ref = poolHeaderSz+alignUp b.virtualUsed align
  used : b'.virtualUsed = alignUp b.virtualUsed align+bytes
  here : b'.current.base ≤ alignUp b.virtualUsed align
  inside : ∀ off n, b.Inside off n → b'.Inside off n
  head : b'.head = b.head
  count : b'.count = b.count
  custom : b'.custom = b.custom

theorem le_alignUp {val align : ℕ} (h : 0 < align) : val ≤ alignUp val align := by
  unfold alignUp
  split_ifs with h1
  · exact le_rfl
  · have hmod := Nat.mod_lt (val+(align-1)) h
    have hdiv := Nat.div_add_mod (val+(align-1)) align
    rw [Nat.mul_comm] at hdiv
    omega

section Alloc

variable (h : b.Wf) {bytes align ref : ℕ} {m : Fresh} {b' : Builder} (halign : 0 < align)
  (hsmall : alignUp b.virtualUsed align+bytes+poolHeaderSz < exprNull)
include h halign hsmall

theorem newBlock_allocated (junk : Store) :
    Allocated b bytes align (poolHeaderSz+alignUp b.virtualUsed align)
      (b.newBlock bytes (alignUp b.virtualUsed align) junk) := by
  have hle : b.virtualUsed ≤ alignUp b.virtualUsed align := le_alignUp halign
  have hblocks : (b.newBlock bytes (alignUp b.virtualUsed align) junk).blocks =
      b.blocks ++ [b.freshBlock bytes (alignUp b.virtualUsed align) junk] := rfl
  refine ⟨⟨?_,?_,?_,rfl,hsmall⟩,?_,rfl,rfl,le_rfl,?_,rfl,rfl,rfl⟩
  · rw [hblocks]
    refine List.pairwise_append.mpr ⟨h.ordered,List.pairwise_singleton _ _,fun x hx y hy => ?_⟩
    rw [mem_singleton.mp hy]
    exact (h.block_end hx).trans hle
  · intro blk hblk
    rw [hblocks] at hblk
    obtain hold | hnew := List.mem_append.mp hblk
    · exact h.fits blk hold
    · rw [mem_singleton.mp hnew]
      show bytes ≤ if b.blockSize < bytes then bytes else b.blockSize
      split_ifs <;> omega
  · rw [hblocks,List.head?_append_of_ne_nil _ (by simp [blocks])]
    exact h.first
  · funext off
    rw [image,hblocks,List.foldl_append,foldl_cons,List.foldl_nil]
    show place b.image _ off = b.image off
    unfold place
    split_ifs with hhas
    · have h1 : alignUp b.virtualUsed align ≤ off := hhas.1
      have h2 : off < alignUp b.virtualUsed align+bytes := hhas.2
      rw [h.image_past (hle.trans h1)]
      exact put_zeros junk (Nat.zero_le _) (show off-alignUp b.virtualUsed align < 0+bytes by omega)
    · rfl
  · rintro off n ⟨blk,hblk,h1,h2⟩
    exact ⟨blk,List.mem_append_left _ hblk,h1,h2⟩

theorem inBlock_allocated (hroom : b.current.used+(alignUp b.virtualUsed align-b.virtualUsed+bytes) ≤
    b.current.capacity) :
    Allocated b bytes align (poolHeaderSz+alignUp b.virtualUsed align)
      (b.inBlock bytes (alignUp b.virtualUsed align-b.virtualUsed) (alignUp b.virtualUsed align)) := by
  have hle : b.virtualUsed ≤ alignUp b.virtualUsed align := le_alignUp halign
  have hlast := h.last
  let blk := longer b.current (alignUp b.virtualUsed align-b.virtualUsed) bytes
  have hblocks : (b.inBlock bytes (alignUp b.virtualUsed align-b.virtualUsed)
      (alignUp b.virtualUsed align)).blocks = b.older ++ [blk] := rfl
  have hused : blk.used = b.current.used+(alignUp b.virtualUsed align-b.virtualUsed)+bytes := rfl
  have hbase : blk.base = b.current.base := rfl
  refine ⟨⟨?_,?_,?_,?_,hsmall⟩,?_,rfl,rfl,?_,?_,rfl,rfl,rfl⟩
  · rw [hblocks]
    refine List.pairwise_append.mpr ⟨(List.pairwise_append.mp h.ordered).1,
      List.pairwise_singleton _ _,fun x hx y hy => ?_⟩
    rw [mem_singleton.mp hy,hbase]
    exact h.older_end hx
  · intro x hx
    rw [hblocks] at hx
    obtain hold | hnew := List.mem_append.mp hx
    · exact h.fits x (List.mem_append_left _ hold)
    · rw [mem_singleton.mp hnew]
      show b.current.used+_+bytes ≤ b.current.capacity
      omega
  · have hfirst := h.first
    rw [hblocks]
    unfold blocks at hfirst
    cases hold : b.older with
    | nil =>
      rw [hold] at hfirst
      exact hfirst
    | cons x rest =>
      rw [hold] at hfirst
      exact hfirst
  · show b.current.base+(b.current.used+_+bytes) = _
    show _ = alignUp b.virtualUsed align+bytes
    omega
  · funext off
    rw [image_eq,image_eq]
    show place (b.older.foldl place fun _ => 0) blk off = place _ b.current off
    by_cases hold : b.current.Has off
    · have hnew : blk.Has off := ⟨hold.1,by have := hold.2; omega⟩
      rw [place_has hold,place_has hnew]
      exact put_outside (.inl (by have h1 := hold.1; have h2 := hold.2; rw [hbase]; omega))
    · rw [place_not_has hold]
      by_cases hnew : blk.Has off
      · have hbelow : b.current.base ≤ off := hnew.1
        have habove : off < b.current.base+blk.used := hnew.2
        have hpast : b.current.base+b.current.used ≤ off := by
          by_contra hlt
          exact hold ⟨hbelow,by omega⟩
        rw [place_has hnew,h.older_past hbelow]
        exact put_zeros b.current.data (by rw [hbase]; omega) (by rw [hbase]; omega)
      · rw [place_not_has hnew]
  · show b.current.base ≤ _
    omega
  · rintro off n ⟨x,hx,h1,h2⟩
    obtain hold | hcur := List.mem_append.mp hx
    · exact ⟨x,List.mem_append_left _ hold,h1,h2⟩
    · rw [mem_singleton.mp hcur] at h1 h2
      exact ⟨blk,List.mem_append_right _ List.mem_cons_self,h1,by omega⟩

end Alloc

theorem alloc_cases {bytes align ref : ℕ} {m : Fresh} {b' : Builder} (halign : 0 < align)
    (ha : b.alloc bytes align m = some (ref,b')) :
    ref = poolHeaderSz+alignUp b.virtualUsed align ∧
      alignUp b.virtualUsed align+bytes+poolHeaderSz < exprNull ∧
      (bytes = 0 ∧ b' = { b with virtualUsed := alignUp b.virtualUsed align } ∨
        bytes ≠ 0 ∧ (b' = b.newBlock bytes (alignUp b.virtualUsed align) m.junk ∨
          b.current.used+(alignUp b.virtualUsed align-b.virtualUsed+bytes) ≤ b.current.capacity ∧
          b' = b.inBlock bytes (alignUp b.virtualUsed align-b.virtualUsed)
            (alignUp b.virtualUsed align))) := by
  unfold alloc at ha
  have hup : (b.virtualUsed+align-1)/align*align = alignUp b.virtualUsed align := by
    unfold alignUp
    split_ifs with h1
    · obtain rfl : align = 1 := by omega
      rw [Nat.add_sub_cancel,Nat.div_one,Nat.mul_one]
    · rw [show b.virtualUsed+align-1 = b.virtualUsed+(align-1) by omega]
  dsimp only at ha
  rw [hup] at ha
  split_ifs at ha with hbig hpos hroom hok
  · obtain ⟨rfl,rfl⟩ := Prod.mk.inj (Option.some.inj ha)
    exact ⟨rfl,not_le.mp hbig,.inl ⟨hpos,rfl⟩⟩
  · obtain ⟨rfl,rfl⟩ := Prod.mk.inj (Option.some.inj ha)
    exact ⟨rfl,not_le.mp hbig,.inr ⟨hpos,.inl rfl⟩⟩
  · obtain ⟨rfl,rfl⟩ := Prod.mk.inj (Option.some.inj ha)
    exact ⟨rfl,not_le.mp hbig,.inr ⟨hpos,.inr ⟨not_lt.mp hroom,rfl⟩⟩⟩

theorem alloc_allocated (h : b.Wf) {bytes align ref : ℕ} {m : Fresh} {b' : Builder}
    (halign : 0 < align) (hpos : bytes ≠ 0) (ha : b.alloc bytes align m = some (ref,b')) :
    Allocated b bytes align ref b' := by
  obtain ⟨rfl,hsmall,hzero | ⟨-,rfl | ⟨hroom,rfl⟩⟩⟩ := alloc_cases halign ha
  · exact absurd hzero.1 hpos
  · exact newBlock_allocated h halign hsmall m.junk
  · exact inBlock_allocated h halign hsmall hroom

/-- Changing the data of one block, within what is used of it, changes that much of the image. -/
theorem places_data {l' : List Block} (hl : Ordered l) (hi : l[i]? = some blk)
    (hl' : l' = l.set i blk') (hbase : blk'.base = blk.base) (hused : blk'.used = blk.used)
    (off : ℕ) :
    l'.foldl place pool off =
      if blk.Has off then blk'.data (off-blk.base) else l.foldl place pool off := by
  subst hl'
  have hlt : i < l.length := (List.getElem?_eq_some_iff.mp hi).1
  have hhas : ∀ j, blk'.Has j ↔ blk.Has j := by
    intro j
    unfold Block.Has
    rw [hbase,hused]
  have hl' : Ordered (l.set i blk') := by
    refine pairwise_iff_getElem.mpr fun a c ha hc hac => ?_
    rw [List.length_set] at ha hc
    have h := pairwise_iff_getElem.mp hl a c ha hc hac
    have hblk : l[i] = blk := (List.getElem?_eq_some_iff.mp hi).2
    rw [List.getElem_set,List.getElem_set]
    split_ifs with h1 h2 h2
    · omega
    · subst h1
      rw [hbase,hused,← hblk]
      exact h
    · subst h2
      rw [hbase,← hblk]
      exact h
    · exact h
  by_cases hb : blk.Has off
  · rw [if_pos hb,places_mem hl' (List.mem_set hlt blk') ((hhas off).mpr hb),hbase]
  · rw [if_neg hb]
    by_cases hany : ∃ x ∈ l, x.Has off
    · obtain ⟨x,hx,hxo⟩ := hany
      obtain ⟨j,hj,rfl⟩ := List.getElem_of_mem hx
      have hij : i ≠ j := by
        rintro rfl
        rw [(List.getElem?_eq_some_iff.mp hi).2] at hxo
        exact hb hxo
      have hmem : l[j] ∈ l.set i blk' := by
        rw [← List.getElem_set_of_ne hij blk' (by rw [List.length_set]; exact hj)]
        exact List.getElem_mem _
      rw [places_mem hl' hmem hxo,places_mem hl hx hxo]
    · rw [places_none fun x hx hxo => hany ⟨x,hx,hxo⟩]
      refine places_none fun x hx hxo => ?_
      obtain hold | rfl := List.mem_or_eq_of_mem_set hx
      · exact hany ⟨x,hold,hxo⟩
      · exact hb ((hhas off).mp hxo)

/-- A builder whose blocks are the same but for the data of one. -/
structure Rewritten (b b' : Builder) (img : Store) : Prop where
  wf : b'.Wf
  image : b'.image = img
  inside : ∀ off n, b.Inside off n → b'.Inside off n
  used : b'.virtualUsed = b.virtualUsed
  head : b'.head = b.head
  count : b'.count = b.count
  custom : b'.custom = b.custom

theorem inside_of_blocks {b' : Builder} (hi : b.blocks[i]? = some blk)
    (hb' : b'.blocks = b.blocks.set i blk') (hbase : blk'.base = blk.base)
    (hused : blk'.used = blk.used) {off n : ℕ} (h : b.Inside off n) : b'.Inside off n := by
  obtain ⟨x,hx,h1,h2⟩ := h
  obtain ⟨j,hj,rfl⟩ := List.getElem_of_mem hx
  have hlt : i < b.blocks.length := (List.getElem?_eq_some_iff.mp hi).1
  by_cases hij : i = j
  · subst hij
    rw [(List.getElem?_eq_some_iff.mp hi).2] at h1 h2
    refine ⟨blk',?_,by omega,by omega⟩
    rw [hb']
    exact List.mem_set hlt blk'
  · refine ⟨_,?_,h1,h2⟩
    rw [hb',← List.getElem_set_of_ne hij blk' (by rw [List.length_set]; exact hj)]
    exact List.getElem_mem _

theorem Wf.set (h : b.Wf) {b' : Builder} (hi : b.blocks[i]? = some blk)
    (hb' : b'.blocks = b.blocks.set i blk') (hbase : blk'.base = blk.base)
    (hused : blk'.used = blk.used) (hcap : blk'.capacity = blk.capacity)
    (hv : b'.virtualUsed = b.virtualUsed) : b'.Wf := by
  have hlt : i < b.blocks.length := (List.getElem?_eq_some_iff.mp hi).1
  have hblk : b.blocks[i] = blk := (List.getElem?_eq_some_iff.mp hi).2
  have hshape : ∀ j (hj : j < b.blocks.length), ∀ x, b'.blocks[j]? = some x →
      x.base = b.blocks[j].base ∧ x.used = b.blocks[j].used ∧ x.capacity = b.blocks[j].capacity := by
    intro j hj x hx
    rw [hb',List.getElem?_set] at hx
    by_cases hij : i = j
    · subst hij
      rw [if_pos rfl,if_pos hlt] at hx
      obtain rfl := Option.some.inj hx
      rw [hblk]
      exact ⟨hbase,hused,hcap⟩
    · rw [if_neg hij,getElem?_eq_getElem hj] at hx
      obtain rfl := Option.some.inj hx
      exact ⟨rfl,rfl,rfl⟩
  have hlen : b'.blocks.length = b.blocks.length := by rw [hb',List.length_set]
  have hat : ∀ j (hj : j < b.blocks.length) (hj' : j < b'.blocks.length), _ := fun j hj hj' =>
    hshape j hj _ (getElem?_eq_getElem hj')
  refine ⟨?_,?_,?_,?_,hv ▸ h.small⟩
  · refine pairwise_iff_getElem.mpr fun a c ha hc hac => ?_
    obtain ⟨h1,h2,_⟩ := hat a (hlen ▸ ha) ha
    obtain ⟨h3,_,_⟩ := hat c (hlen ▸ hc) hc
    rw [h1,h2,h3]
    exact pairwise_iff_getElem.mp h.ordered a c (hlen ▸ ha) (hlen ▸ hc) hac
  · intro x hx
    obtain ⟨j,hj,rfl⟩ := List.getElem_of_mem hx
    obtain ⟨_,h2,h3⟩ := hat j (hlen ▸ hj) hj
    rw [h2,h3]
    exact h.fits _ (List.getElem_mem _)
  · have hfirst := h.first
    have h0 : 0 < b.blocks.length := by rw [blocks,length_append]; exact Nat.succ_pos _
    have h0' : 0 < b'.blocks.length := by omega
    rw [List.head?_eq_getElem?,getElem?_eq_getElem h0] at hfirst
    rw [List.head?_eq_getElem?,getElem?_eq_getElem h0',Option.map_some,(hat 0 h0 h0').1]
    exact hfirst
  · have hcur : ∀ c : Builder, ∃ hj : c.older.length < c.blocks.length,
        c.blocks[c.older.length] = c.current := fun c =>
      ⟨by rw [blocks,length_append]; exact Nat.lt_succ_self _,by simp [blocks]⟩
    have holder : b'.older.length = b.older.length := by
      rw [blocks,blocks,length_append,length_append] at hlen
      exact Nat.succ.inj hlen
    obtain ⟨hj,hc⟩ := hcur b
    obtain ⟨hj',hc'⟩ := hcur b'
    have h1 := hat b.older.length hj (holder ▸ hj')
    have hsame : b'.blocks[b.older.length] = b'.current := by
      rw [← hc']
      exact getElem_congr_idx holder.symm
    rw [hsame,hc] at h1
    rw [hv,h1.1,h1.2.1]
    exact h.last

theorem Wf.rewritten (h : b.Wf) {b' : Builder} (hi : b.blocks[i]? = some blk)
    (hb' : b'.blocks = b.blocks.set i blk') (hbase : blk'.base = blk.base)
    (hused : blk'.used = blk.used) (hcap : blk'.capacity = blk.capacity)
    (hv : b'.virtualUsed = b.virtualUsed) (hhead : b'.head = b.head) (hcount : b'.count = b.count)
    (hcustom : b'.custom = b.custom) {img : Store} (himg : ∀ off, img off =
      if blk.Has off then blk'.data (off-blk.base) else b.image off) : Rewritten b b' img := by
  refine ⟨h.set hi hb' hbase hused hcap hv,?_,fun off n => inside_of_blocks hi hb' hbase hused,hv,
    hhead,hcount,hcustom⟩
  funext off
  rw [himg]
  exact places_data h.ordered hi hb' hbase hused off

theorem fill_rewritten (h : b.Wf) {off : ℕ} (content : List Byte) (hbase : b.current.base ≤ off)
    (hend : off+content.length ≤ b.virtualUsed) :
    Rewritten b (b.fill (poolHeaderSz+off) content) (put b.image off content) := by
  have hlast := h.last
  have hi : b.blocks[b.older.length]? = some b.current := by
    rw [blocks,List.getElem?_append_right le_rfl,Nat.sub_self]
    rfl
  have hset : (b.fill (poolHeaderSz+off) content).blocks = b.blocks.set b.older.length { b.current with
        data := put b.current.data (poolHeaderSz+off-poolHeaderSz-b.current.base) content } := by
    rw [blocks,blocks,List.set_append_right _ _ le_rfl,Nat.sub_self]
    rfl
  refine h.rewritten hi hset rfl rfl rfl rfl rfl rfl rfl fun a => ?_
  rw [Nat.add_sub_cancel_left]
  by_cases hhas : b.current.Has a
  · rw [if_pos hhas]
    have h1 := hhas.1
    have himage : b.image a = b.current.data (a-b.current.base) :=
      places_mem h.ordered (List.mem_append_right _ List.mem_cons_self) hhas
    show put b.image off content a = put b.current.data (off-b.current.base) content _
    by_cases hin : off ≤ a ∧ a < off+content.length
    · rw [put,if_pos hin,put,if_pos (by omega)]
      congr 1
      omega
    · rw [put_outside (by omega),put_outside (by omega),himage]
  · rw [if_neg hhas]
    refine put_outside ?_
    by_contra hin
    exact hhas ⟨by omega,by omega⟩

theorem poke_rewritten (h : b.Wf) {loc : ℕ} (hi : b.blocks[i]? = some blk) (hloc : loc < blk.used)
    (v : Byte) :
    Rewritten b (b.poke i loc v) (put b.image (blk.base+loc) [v]) := by
  have hset : (b.poke i loc v).blocks = b.blocks.set i (blk.write loc v) := by
    by_cases hlt : i < b.older.length
    · rw [blocks,List.getElem?_append_left hlt] at hi
      have hne : i ≠ b.older.length := by omega
      rw [blocks,blocks,List.set_append_left _ _ hlt,poke,if_neg hne,List.modify_eq_set_getElem?,hi]
      rfl
    · have hlen := (List.getElem?_eq_some_iff.mp hi).1
      rw [blocks,length_append] at hlen
      have heq : i = b.older.length := by
        have : [b.current].length = 1 := rfl
        omega
      subst heq
      rw [blocks,List.getElem?_append_right le_rfl,Nat.sub_self] at hi
      obtain rfl : b.current = blk := Option.some.inj hi
      rw [blocks,blocks,List.set_append_right _ _ le_rfl,Nat.sub_self,poke,if_pos rfl,
        List.modify_eq_self le_rfl]
      rfl
  refine h.rewritten hi hset rfl rfl rfl rfl rfl rfl rfl fun a => ?_
  have hone : [v].length = 1 := rfl
  by_cases hat : a = blk.base+loc
  · subst hat
    rw [if_pos ⟨Nat.le_add_right _ _,by omega⟩,Nat.add_sub_cancel_left,Block.write_data,
      Function.update_self]
    exact put_inside (l := [v]) (i := 0) Nat.zero_lt_one
  · rw [put_outside (by omega)]
    by_cases hhas : blk.Has a
    · have h1 := hhas.1
      rw [if_pos hhas,Block.write_data,Function.update_of_ne (by omega)]
      exact places_mem h.ordered (List.mem_of_getElem? hi) hhas
    · rw [if_neg hhas]

/-- The search ends at the last of the `N` blocks that start at or below the offset. -/
theorem search_spec {base : ℕ → ℕ} {o N : ℕ} (hmono : ∀ i j, i ≤ j → j < N → base i ≤ base j)
    (n : ℕ) {lo hi : ℕ} (hn : hi-lo ≤ n+1) (hlt : lo < hi) (hN : hi ≤ N) (hlo : base lo ≤ o)
    (hhi : ∀ j, hi ≤ j → j < N → o < base j) :
    search base o n lo hi < N ∧ base (search base o n lo hi) ≤ o ∧
      ∀ j, search base o n lo hi < j → j < N → o < base j := by
  have hdone : hi-lo ≤ 1 → lo < N ∧ base lo ≤ o ∧ ∀ j, lo < j → j < N → o < base j :=
    fun h1 => ⟨by omega,hlo,fun j hj hjN => hhi j (by omega) hjN⟩
  induction n generalizing lo hi with
  | zero => exact hdone (by omega)
  | succ n ih =>
    rw [search]
    by_cases h1 : 1 < hi-lo
    · rw [if_pos h1]
      have hlow : lo < lo+(hi-lo)/2 := by omega
      have hhigh : lo+(hi-lo)/2 < hi := by omega
      by_cases hmid : base (lo+(hi-lo)/2) ≤ o
      · simp only [if_pos hmid]
        exact ih (by omega) hhigh hN hmid hhi fun h => ⟨by omega,hmid,fun j hj hjN =>
          hhi j (by omega) hjN⟩
      · simp only [if_neg hmid]
        have habove : ∀ j, lo+(hi-lo)/2 ≤ j → j < N → o < base j := fun j hj hjN =>
          (not_le.mp hmid).trans_le (hmono _ j hj hjN)
        exact ih (by omega) hlow (by omega) hlo habove fun h => ⟨by omega,hlo,fun j hj hjN =>
          habove j (by omega) hjN⟩
    · rw [if_neg h1]
      exact hdone (by omega)

theorem Wf.blockAt_spec (h : b.Wf) (off : ℕ) :
    ∃ blk, b.blocks[b.blockAt off]? = some blk ∧ blk.base ≤ off ∧
      ∀ (j : ℕ) (x : Block), b.blockAt off < j → b.blocks[j]? = some x → off < x.base := by
  let base := fun i : ℕ => ((b.blocks[i]?).map Block.base).getD 0
  have hbase : ∀ {i : ℕ} {x : Block}, b.blocks[i]? = some x → base i = x.base := by
    intro i x hi
    show ((b.blocks[i]?).map Block.base).getD 0 = _
    rw [hi]
    rfl
  have hmono : ∀ i j, i ≤ j → j < b.blocks.length → base i ≤ base j := by
    intro i j hij hj
    obtain rfl | hlt := hij.eq_or_lt
    · exact le_rfl
    · rw [hbase (getElem?_eq_getElem (hij.trans_lt hj)),hbase (getElem?_eq_getElem hj)]
      have := pairwise_iff_getElem.mp h.ordered i j (hij.trans_lt hj) hj hlt
      omega
  have hpos : 0 < b.blocks.length := by rw [blocks,length_append]; exact Nat.succ_pos _
  have hzero : base 0 = 0 := by
    have hfirst := h.first
    rw [List.head?_eq_getElem?] at hfirst
    show ((b.blocks[0]?).map Block.base).getD 0 = 0
    rw [hfirst]
    rfl
  obtain ⟨h1,h2,h3⟩ := search_spec (o:=off) hmono b.blocks.length (by omega) hpos le_rfl
    (hzero.le.trans (Nat.zero_le off)) fun j hj hjN => absurd hjN (not_lt.mpr hj)
  have hat := getElem?_eq_getElem h1
  refine ⟨_,hat,hbase hat ▸ h2,fun j x hj hx => ?_⟩
  rw [← hbase hx]
  exact h3 j hj (List.getElem?_eq_some_iff.mp hx).1

theorem Wf.refPtr_at (h : b.Wf) {j loc : ℕ} (hj : b.blocks[j]? = some blk) (hloc : loc < blk.used) :
    b.refPtr (poolHeaderSz+(blk.base+loc)) = some (j,loc) := by
  obtain ⟨hlen,rfl⟩ := List.getElem?_eq_some_iff.mp hj
  have hend := h.block_end (List.getElem_mem hlen)
  have hsmall := h.small
  have hnull : exprNull = 2^32-1 := rfl
  set off := b.blocks[j].base+loc with hoff
  have hvoff : (poolHeaderSz+off+2^32-poolHeaderSz) % 2^32 = off := by
    rw [show poolHeaderSz+off+2^32-poolHeaderSz = off+2^32 by omega,Nat.add_mod_right]
    exact Nat.mod_eq_of_lt (by omega)
  obtain ⟨x,hx,hxlo,hxhi⟩ := h.blockAt_spec off
  have hsame : b.blockAt off = j := by
    have hlt := (List.getElem?_eq_some_iff.mp hx).1
    have hxe := (List.getElem?_eq_some_iff.mp hx).2
    obtain hlt' | heq | hgt := Nat.lt_trichotomy (b.blockAt off) j
    · have := hxhi j _ hlt' hj
      omega
    · exact heq
    · have := pairwise_iff_getElem.mp h.ordered j _ hlen hlt hgt
      rw [hxe] at this
      omega
  have hhas : b.blocks[j].Has off := ⟨by omega,by omega⟩
  unfold refPtr
  rw [if_neg (by omega),hvoff]
  simp only [hsame,hj,if_pos hhas]
  rw [hoff,Nat.add_sub_cancel_left]

theorem Wf.refPtr_inside (h : b.Wf) {off n : ℕ} (hn : 0 < n) (hin : b.Inside off n) :
    ∃ i loc blk, b.refPtr (poolHeaderSz+off) = some (i,loc) ∧ b.blocks[i]? = some blk ∧
      blk.base+loc = off ∧ loc+n ≤ blk.used := by
  obtain ⟨blk,hblk,h1,h2⟩ := hin
  obtain ⟨j,hj⟩ := List.mem_iff_getElem?.mp hblk
  have hptr := h.refPtr_at hj (show off-blk.base < blk.used by omega)
  rw [Nat.add_sub_of_le h1] at hptr
  exact ⟨j,off-blk.base,blk,hptr,hj,Nat.add_sub_of_le h1,by omega⟩

theorem Wf.read_image (h : b.Wf) {loc o : ℕ} (hi : b.blocks[i]? = some blk)
    (hloc : loc+o+4 ≤ blk.used) : b.read (i,loc) o = word b.image 4 (blk.base+loc+o) := by
  unfold read
  rw [hi]
  have hword : ∀ n a c, a+n ≤ blk.used → c = blk.base+a → word blk.data n a = word b.image n c := by
    intro n
    induction n with
    | zero => intro a c _ _; rfl
    | succ n ih =>
      rintro a c ha rfl
      have hhas : blk.Has (blk.base+a) := ⟨Nat.le_add_right _ _,by omega⟩
      rw [word,word,ih (a+1) (blk.base+a+1) (by omega) (by omega)]
      have hbyte : b.image (blk.base+a) = blk.data (blk.base+a-blk.base) :=
        places_mem h.ordered (List.mem_of_getElem? hi) hhas
      rw [hbyte,Nat.add_sub_cancel_left]
  exact hword 4 (loc+o) _ (by omega) (by omega)

theorem copyBlocks_at (hl : Ordered l) {lo hi : ℕ} (h1 : lo ≤ off) (h2 : off < hi) :
    copyBlocks lo hi l pool off = l.foldl place pool off := by
  induction l generalizing pool with
  | nil => rfl
  | cons blk l ih =>
    obtain ⟨hblk,hl⟩ := List.pairwise_cons.mp hl
    rw [copyBlocks]
    by_cases hbeyond : hi ≤ blk.base
    · rw [if_pos hbeyond,places_none]
      intro x hx hxo
      have hlow := hxo.1
      obtain rfl | hmem := List.mem_cons.mp hx
      · omega
      · have := hblk x hmem
        omega
    · simp only [if_neg hbeyond]
      rw [ih hl,foldl_cons]
      refine places_congr ?_
      unfold place copy
      by_cases hhas : blk.Has off
      · have h3 := hhas.1
        have h4 := hhas.2
        rw [if_pos (by split_ifs <;> omega),if_pos (by split_ifs <;> omega),if_pos hhas]
      · rw [if_neg hhas]
        have hno : ¬ (blk.base ≤ off ∧ off < blk.base+blk.used) := hhas
        by_cases hse : (if lo < blk.base then blk.base else lo) <
            if hi < blk.base+blk.used then hi else blk.base+blk.used
        · rw [if_pos hse]
          exact if_neg (by split_ifs <;> omega)
        · rw [if_neg hse]

theorem copyBlocks_outside {lo hi : ℕ} (h : ¬ (lo ≤ off ∧ off < hi)) :
    copyBlocks lo hi l pool off = pool off := by
  induction l generalizing pool with
  | nil => rfl
  | cons blk l ih =>
    rw [copyBlocks]
    by_cases hbeyond : hi ≤ blk.base
    · rw [if_pos hbeyond]
    · simp only [if_neg hbeyond]
      rw [ih]
      by_cases hse : (if lo < blk.base then blk.base else lo) <
          if hi < blk.base+blk.used then hi else blk.base+blk.used
      · rw [if_pos hse]
        exact if_neg (by split_ifs <;> omega)
      · rw [if_neg hse]

theorem Wf.copyRange_eq (h : b.Wf) (lo hi : ℕ) :
    copyRange b pool lo hi = copy pool b.image lo hi := by
  funext off
  unfold copyRange
  by_cases hin : lo ≤ off ∧ off < hi
  · obtain ⟨x,hx,hxlo,_⟩ := h.blockAt_spec lo
    have hdrop : Ordered (b.blocks.drop (b.blockAt lo)) :=
      h.ordered.sublist (List.drop_sublist _ _)
    rw [copyBlocks_at hdrop hin.1 hin.2]
    have hsplit : b.image off = (b.blocks.drop (b.blockAt lo)).foldl place
        ((b.blocks.take (b.blockAt lo)).foldl place fun _ => 0) off := by
      rw [← List.foldl_append,List.take_append_drop]
      rfl
    rw [copy,if_pos hin,hsplit]
    refine places_congr ?_
    rw [copy,if_pos hin,places_none]
    intro y hy hyo
    obtain ⟨j,hj,rfl⟩ := List.getElem_of_mem hy
    rw [List.length_take] at hj
    have hlt := (List.getElem?_eq_some_iff.mp hx).1
    have hxe := (List.getElem?_eq_some_iff.mp hx).2
    rw [List.getElem_take] at hyo
    have hord := pairwise_iff_getElem.mp h.ordered j _ (by omega) hlt (by omega)
    have hyo2 := hyo.2
    rw [hxe] at hord
    omega
  · rw [copyBlocks_outside hin,copy,if_neg hin,copy,if_neg hin]

end Builder

end Build
end DvSolve
