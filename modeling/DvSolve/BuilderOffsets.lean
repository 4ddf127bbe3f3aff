import DvSolve.BuilderBlocks

/-! Runs of allocations: the virtual offsets handed out and the places their bytes are kept at. -/
namespace DvSolve
namespace Build

open ByteStore
open Builder (alignUp alloc_cases le_alignUp)

structure Request where
  content : List Byte
  power : ℕ
  fresh : Builder.Fresh

structure Range where
  off : ℕ
  power : ℕ
  block : ℕ
  loc : ℕ
  content : List Byte

structure Served where
  builder : Builder
  ranges : List Range

namespace Served

def start (blockSize : ℕ) (custom : Bool) (junk : Store) : Served :=
  ⟨Builder.create blockSize custom junk,[]⟩

def range (b : Builder) (ref : ℕ) (r : Request) : Range :=
  ⟨ref-poolHeaderSz,r.power,b.older.length,b.current.used-r.content.length,r.content⟩

def serve (s : Served) (r : Request) : Option Served :=
  (s.builder.alloc r.content.length (2^r.power) r.fresh).map fun p =>
    ⟨p.2.fill p.1 r.content,s.ranges ++ [range p.2 p.1 r]⟩

def serveAll (s : Served) (rs : List Request) : Option Served := rs.foldlM serve s

def Keeps (b : Builder) (r : Range) : Prop :=
  b.refPtr (poolHeaderSz+r.off) = some (r.block,r.loc) ∧ r.off+r.content.length ≤ (finalize b).used ∧
    ∃ blk, b.blocks[r.block]? = some blk ∧ ∀ k (h : k < r.content.length),
      blk.data (r.loc+k) = r.content[k] ∧ (finalize b).pool (r.off+k) = r.content[k]

structure InStep (s : Served) : Prop where
  aligned : ∀ r ∈ s.ranges, 2^r.power ∣ r.off
  apart : s.ranges.Pairwise fun x y => x.off+x.content.length ≤ y.off
  used : s.builder.current.base+s.builder.current.used = s.builder.virtualUsed
  keeps : ∀ r ∈ s.ranges, r.content ≠ [] → Keeps s.builder r

def Holds (b : Builder) (r : Range) : Prop :=
  ∃ blk, b.blocks[r.block]? = some blk ∧ blk.base+r.loc = r.off ∧
    r.loc+r.content.length ≤ blk.used ∧ ∀ k (h : k < r.content.length), blk.data (r.loc+k) = r.content[k]

structure Good (s : Served) : Prop where
  wf : s.builder.Wf
  aligned : ∀ r ∈ s.ranges, 2^r.power ∣ r.off
  apart : s.ranges.Pairwise fun x y => x.off+x.content.length ≤ y.off
  holds : ∀ r ∈ s.ranges, Holds s.builder r

variable {b b' : Builder} {s t : Served} {r : Request} {rs : List Request}

theorem Holds.keeps {x : Range} (h : Holds b x) (hb : b.Wf) (hne : x.content ≠ []) : Keeps b x := by
  obtain ⟨blk,hblk,hoff,hend,hdata⟩ := h
  have hpos := List.length_pos_iff.mpr hne
  have hmem := List.mem_of_getElem? hblk
  have hused := hb.block_end hmem
  refine ⟨?_,?_,blk,hblk,fun k hk => ⟨hdata k hk,?_⟩⟩
  · rw [← hoff]
    exact hb.refPtr_at hblk (by omega)
  · show _ ≤ b.virtualUsed
    omega
  · have hhas : blk.Has (x.off+k) := ⟨by omega,by omega⟩
    show b.image (x.off+k) = _
    rw [Builder.image,places_mem hb.ordered hmem hhas,← hdata k hk]
    congr 1
    omega

theorem Good.inStep (h : s.Good) : s.InStep :=
  ⟨h.aligned,h.apart,h.wf.last,fun r hr hne => (h.holds r hr).keeps h.wf hne⟩

theorem Holds.grow {x : Range} (h : Holds b x)
    (hgrow : ∀ (i : ℕ) blk, b.blocks[i]? = some blk → ∃ blk', b'.blocks[i]? = some blk' ∧
      blk'.base = blk.base ∧ blk.used ≤ blk'.used ∧ ∀ a < blk.used, blk'.data a = blk.data a) :
    Holds b' x := by
  obtain ⟨blk,hblk,hoff,hend,hdata⟩ := h
  obtain ⟨blk',hblk',hbase,hused,hsame⟩ := hgrow _ blk hblk
  refine ⟨blk',hblk',by omega,by omega,fun k hk => ?_⟩
  rw [hsame _ (by omega),hdata k hk]

theorem dvd_alignUp (val p : ℕ) : 2^p ∣ alignUp val (2^p) := by
  unfold alignUp
  split_ifs with h
  · obtain hp : 2^p = 1 := le_antisymm h Nat.one_le_two_pow
    rw [hp]
    exact one_dvd val
  · exact dvd_mul_left _ _

theorem alignUp_of_dvd {val align : ℕ} (h : align ∣ val) : alignUp val align = val := by
  unfold alignUp
  split_ifs with h1
  · rfl
  · obtain ⟨c,rfl⟩ := h
    rw [Nat.mul_add_div (by omega),Nat.div_eq_of_lt (by omega),Nat.add_zero,Nat.mul_comm]

theorem serve_eq (h : s.serve r = some t) :
    ∃ ref b1, s.builder.alloc r.content.length (2^r.power) r.fresh = some (ref,b1) ∧
      t = ⟨b1.fill ref r.content,s.ranges ++ [range b1 ref r]⟩ := by
  obtain ⟨⟨ref,b1⟩,ha,rfl⟩ := Option.map_eq_some_iff.mp h
  exact ⟨ref,b1,ha,rfl⟩

theorem blocks_current (b : Builder) : b.blocks[b.older.length]? = some b.current := by
  rw [Builder.blocks,List.getElem?_append_right le_rfl,Nat.sub_self]
  rfl

theorem holds_fill {ref : ℕ} (hbase : b.current.base ≤ ref-poolHeaderSz)
    (hend : b.current.base+b.current.used = ref-poolHeaderSz+r.content.length) :
    Holds (b.fill ref r.content) (range b ref r) := by
  refine ⟨_,blocks_current (b.fill ref r.content),?_,?_,fun k hk => ?_⟩
  · show b.current.base+(b.current.used-r.content.length) = ref-poolHeaderSz
    omega
  · show b.current.used-r.content.length+r.content.length ≤ b.current.used
    omega
  · have hk' : k < r.content.length := hk
    show put b.current.data (ref-poolHeaderSz-b.current.base) r.content
      (b.current.used-r.content.length+k) = r.content[k]
    rw [show b.current.used-r.content.length+k = ref-poolHeaderSz-b.current.base+k by omega,
      put_inside hk',List.getD_eq_getElem?_getD,List.getElem?_eq_getElem hk']
    rfl

theorem Good.served (h : s.Good) {ref : ℕ} {b1 : Builder} (hb1 : b1.Wf)
    (href : ref = poolHeaderSz+alignUp s.builder.virtualUsed (2^r.power))
    (hused : b1.virtualUsed = alignUp s.builder.virtualUsed (2^r.power)+r.content.length)
    (hbase : b1.current.base ≤ alignUp s.builder.virtualUsed (2^r.power))
    (hgrow : ∀ (i : ℕ) blk, s.builder.blocks[i]? = some blk →
      ∃ blk', (b1.fill ref r.content).blocks[i]? = some blk' ∧ blk'.base = blk.base ∧
        blk.used ≤ blk'.used ∧ ∀ a < blk.used, blk'.data a = blk.data a) :
    Good ⟨b1.fill ref r.content,s.ranges ++ [range b1 ref r]⟩ := by
  have hoff : ref-poolHeaderSz = alignUp s.builder.virtualUsed (2^r.power) := by
    rw [href,Nat.add_sub_cancel_left]
  have hlow : s.builder.virtualUsed ≤ alignUp s.builder.virtualUsed (2^r.power) :=
    le_alignUp (Nat.two_pow_pos _)
  have hlast := hb1.last
  refine ⟨?_,?_,?_,?_⟩
  · rw [href]
    exact (Builder.fill_rewritten hb1 r.content hbase hused.ge).wf
  · intro x hx
    obtain hold | hnew := List.mem_append.mp hx
    · exact h.aligned x hold
    · obtain rfl := List.mem_singleton.mp hnew
      show 2^r.power ∣ ref-poolHeaderSz
      rw [hoff]
      exact dvd_alignUp _ _
  · refine List.pairwise_append.mpr ⟨h.apart,List.pairwise_singleton _ _,fun x hx y hy => ?_⟩
    obtain rfl := List.mem_singleton.mp hy
    obtain ⟨blk,hblk,hat,hend,-⟩ := h.holds x hx
    have hin := h.wf.block_end (List.mem_of_getElem? hblk)
    show _ ≤ ref-poolHeaderSz
    omega
  · intro x hx
    obtain hold | hnew := List.mem_append.mp hx
    · exact (h.holds x hold).grow hgrow
    · obtain rfl := List.mem_singleton.mp hnew
      exact holds_fill (by omega) (by omega)

/-- A request keeps the invariant, unless it is for nothing and moves the offset. -/
theorem Good.serve (h : s.Good) (ht : s.serve r = some t)
    (hzero : r.content = [] → 2^r.power ∣ s.builder.virtualUsed) : t.Good := by
  obtain ⟨ref,b1,ha,rfl⟩ := serve_eq ht
  obtain ⟨href,hsmall,hcases⟩ := alloc_cases (Nat.two_pow_pos _) ha
  have hlast := h.wf.last
  have hlow : s.builder.virtualUsed ≤ alignUp s.builder.virtualUsed (2^r.power) :=
    le_alignUp (Nat.two_pow_pos _)
  obtain ⟨hnone,rfl⟩ | ⟨hpos,hcases⟩ := hcases
  · have hnil := List.length_eq_zero_iff.mp hnone
    have hup := alignUp_of_dvd (hzero hnil)
    have hcur : s.builder.current.base ≤ s.builder.virtualUsed := by omega
    rw [hup] at href ⊢
    have hsame : s.builder.fill ref [] = s.builder := by
      have hput : put s.builder.current.data (ref-poolHeaderSz-s.builder.current.base) [] =
          s.builder.current.data := funext fun i => put_outside (Nat.lt_or_ge i _)
      unfold Builder.fill
      rw [hput]
    refine h.served h.wf (by rw [hup,href]) (by rw [hup,hnone]; rfl)
      (hcur.trans hlow) fun i blk hi => ?_
    refine ⟨blk,?_,rfl,le_rfl,fun a _ => rfl⟩
    rw [hnil,hsame]
    exact hi
  · have hall := Builder.alloc_allocated h.wf (Nat.two_pow_pos _) hpos ha
    refine h.served hall.wf href hall.used hall.here fun i blk hi => ?_
    obtain rfl | ⟨-,rfl⟩ := hcases
    · have hlt := (List.getElem?_eq_some_iff.mp hi).1
      refine ⟨blk,?_,rfl,le_rfl,fun a _ => rfl⟩
      exact (List.getElem?_append_left hlt).trans hi
    · obtain hlt | hge := Nat.lt_or_ge i s.builder.older.length
      · refine ⟨blk,?_,rfl,le_rfl,fun a _ => rfl⟩
        rw [Builder.blocks,List.getElem?_append_left hlt] at hi
        exact (List.getElem?_append_left hlt).trans hi
      · have hlt := (List.getElem?_eq_some_iff.mp hi).1
        rw [Builder.blocks,List.length_append,List.length_singleton] at hlt
        obtain rfl : i = s.builder.older.length := by omega
        rw [blocks_current] at hi
        obtain rfl := Option.some.inj hi
        refine ⟨_,blocks_current (Builder.fill _ ref r.content),rfl,?_,fun a ha => ?_⟩
        · show s.builder.current.used ≤ s.builder.current.used+_+_
          omega
        · show put (put s.builder.current.data _ _) (ref-poolHeaderSz-s.builder.current.base) _ a = _
          rw [put_outside (.inl (by omega)),put_outside (.inl ha)]

theorem start_good (blockSize : ℕ) (custom : Bool) (junk : Store) :
    (start blockSize custom junk).Good :=
  ⟨Builder.create_wf blockSize custom junk,nofun,List.Pairwise.nil,nofun⟩

theorem serveAll_concat : s.serveAll (rs ++ [r]) = (s.serveAll rs).bind (serve · r) := by
  rw [serveAll,List.foldlM_append]
  simp [serveAll]

theorem InStep.dvd (h : s.InStep) (ht : s.serve r = some t) (h' : t.InStep)
    (hnil : r.content = []) : 2^r.power ∣ s.builder.virtualUsed := by
  obtain ⟨ref,b1,ha,rfl⟩ := serve_eq ht
  obtain ⟨-,-,⟨-,rfl⟩ | ⟨hpos,-⟩⟩ := alloc_cases (Nat.two_pow_pos _) ha
  · have hused : s.builder.current.base+s.builder.current.used =
        alignUp s.builder.virtualUsed (2^r.power) := h'.used
    rw [← h.used,hused]
    exact dvd_alignUp _ _
  · exact absurd (by rw [hnil]; rfl) hpos

/-- In a run of allocations the offsets and the blocks agree in every state exactly when every
request for nothing finds the offset aligned. -/
theorem offsets_iff (blockSize : ℕ) (custom : Bool) (junk : Store) {rs : List Request}
    (h : ∃ t, (start blockSize custom junk).serveAll rs = some t) :
    (∀ pre, pre <+: rs → ∀ t, (start blockSize custom junk).serveAll pre = some t → t.InStep) ↔
      ∀ pre r, pre ++ [r] <+: rs → r.content = [] → ∀ t,
        (start blockSize custom junk).serveAll pre = some t → 2^r.power ∣ t.builder.virtualUsed := by
  constructor
  · intro hall pre r hpre hnil s hs
    obtain ⟨t,ht⟩ := h
    obtain ⟨rest,rfl⟩ := hpre
    rw [serveAll,List.foldlM_append] at ht
    obtain ⟨u,hu,-⟩ := Option.bind_eq_some_iff.mp ht
    have hstep := hu
    rw [← serveAll,serveAll_concat,hs,Option.bind_some] at hstep
    exact (hall pre (by rw [List.append_assoc]; exact List.prefix_append _ _) s hs).dvd hstep
      (hall _ (List.prefix_append _ _) u hu) hnil
  · intro hall pre
    have hgood : pre <+: rs → ∀ t, (start blockSize custom junk).serveAll pre = some t → t.Good := by
      induction pre using List.reverseRecOn with
      | nil =>
        intro _ t ht
        obtain rfl := Option.some.inj ht
        exact start_good blockSize custom junk
      | append_singleton pre r ih =>
        intro hpre t ht
        rw [serveAll_concat] at ht
        obtain ⟨s,hs,hserve⟩ := Option.bind_eq_some_iff.mp ht
        exact (ih ((List.prefix_append _ _).trans hpre) s hs).serve hserve fun hnil =>
          hall pre r hpre hnil s hs
    exact fun hpre t ht => (hgood hpre t ht).inStep

/-- A byte, nothing and then a word. -/
theorem offsets_word : ∃ t, (start 0 false fun _ => 0).serveAll
    [⟨[7],0,⟨true,fun _ => 0⟩⟩,⟨[],0,⟨true,fun _ => 0⟩⟩,⟨[1,2,3,4],2,⟨true,fun _ => 0⟩⟩] = some t ∧
      t.InStep := by
  have hruns : ∃ t, (start 0 false fun _ => 0).serveAll [⟨[7],0,⟨true,fun _ => 0⟩⟩,
      ⟨[],0,⟨true,fun _ => 0⟩⟩,⟨[1,2,3,4],2,⟨true,fun _ => 0⟩⟩] = some t := ⟨_,rfl⟩
  obtain ⟨t,ht⟩ := hruns
  refine ⟨t,ht,(offsets_iff 0 false (fun _ => 0) ⟨t,ht⟩).mpr (fun pre r hpre hnil t _ => ?_) _
    List.prefix_rfl t ht⟩
  have hmem : r ∈ _ := hpre.subset (List.mem_append_right pre List.mem_cons_self)
  obtain rfl | hmem := List.mem_cons.mp hmem
  · exact absurd hnil (List.cons_ne_nil _ _)
  obtain rfl | hmem := List.mem_cons.mp hmem
  · exact one_dvd _
  · obtain rfl := List.mem_singleton.mp hmem
    exact absurd hnil (List.cons_ne_nil _ _)

/-- After nothing at a multiple of eight, a word is not where its reference leads. -/
theorem offsets_lost : ∃ t, (start 0 false fun _ => 0).serveAll
    [⟨[7],0,⟨true,fun _ => 0⟩⟩,⟨[],3,⟨true,fun _ => 0⟩⟩,⟨[1,2,3,4],2,⟨true,fun _ => 0⟩⟩] = some t ∧
      ⟨8,2,0,1,[1,2,3,4]⟩ ∈ t.ranges ∧ t.builder.refPtr (poolHeaderSz+8) = none ∧
      t.builder.current.base+t.builder.current.used ≠ t.builder.virtualUsed ∧ ¬ t.InStep := by
  refine ⟨_,rfl,List.mem_append_right _ List.mem_cons_self,rfl,by decide,fun h => ?_⟩
  exact absurd h.used (by decide)

end Served
end Build
end DvSolve
