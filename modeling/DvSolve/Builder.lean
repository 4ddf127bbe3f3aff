import DvSolve.ByteStore

/-! The problem builder: a pool in blocks, six lists of items kept newest first in it, and the
contiguous problems made from it, at once or by appending to the previous one. Offsets are those
of the pool's data, references those the code stores. -/
namespace DvSolve
namespace Build

open ByteStore
open Function (update)

inductive Kind
  | vars
  | constraints
  | sources
  | allDiffs
  | softs
  | dists
  deriving DecidableEq

def Kind.all : List Kind := [.vars,.constraints,.sources,.allDiffs,.softs,.dists]

def exprNull : ℕ := 0xFFFFFFFF

def poolHeaderSz : ℕ := 16

structure Block where
  base : ℕ
  capacity : ℕ
  used : ℕ
  data : Store

def Block.Has (blk : Block) (off : ℕ) : Prop := blk.base ≤ off ∧ off < blk.base+blk.used

instance (blk : Block) (off : ℕ) : Decidable (blk.Has off) := inferInstanceAs (Decidable (_ ∧ _))

def Block.write (blk : Block) (loc : ℕ) (v : Byte) : Block :=
  { blk with data := update blk.data loc v }

@[simp] theorem Block.write_data (blk : Block) (loc : ℕ) (v : Byte) :
    (blk.write loc v).data = update blk.data loc v := rfl

/-- The builder. `older` and then `current` are its blocks; `custom` when it has an allocator of
its own. -/
structure Builder where
  older : List Block
  current : Block
  virtualUsed : ℕ
  blockSize : ℕ
  custom : Bool
  head : Kind → ℕ
  count : Kind → ℕ

namespace Builder

def blocks (b : Builder) : List Block := b.older ++ [b.current]

def create (blockSize : ℕ) (custom : Bool) (junk : Store) : Builder :=
  let size := if blockSize = 0 then 4096 else blockSize
  ⟨[],⟨0,size,0,junk⟩,0,size,custom,fun _ => exprNull,fun _ => 0⟩

def setHead (b : Builder) (k : Kind) (ref : ℕ) : Builder :=
  { b with head := update b.head k ref, count := update b.count k (b.count k+1) }

/-- What the allocators answer: whether there is a block and room in the index for it, and what
the new memory holds. -/
structure Fresh where
  ok : Bool
  junk : Store

def alignUp (val align : ℕ) : ℕ := if align ≤ 1 then val else (val+(align-1))/align*align

def freshBlock (b : Builder) (bytes aligned : ℕ) (junk : Store) : Block :=
  ⟨aligned,if b.blockSize < bytes then bytes else b.blockSize,bytes,put junk 0 (List.replicate bytes 0)⟩

def newBlock (b : Builder) (bytes aligned : ℕ) (junk : Store) : Builder :=
  { b with
    older := b.older ++ [b.current]
    current := b.freshBlock bytes aligned junk
    virtualUsed := aligned+bytes }

/-- The current block with zeroed padding and the allocation after it. -/
def longer (blk : Block) (padding bytes : ℕ) : Block :=
  { blk with
    used := blk.used+padding+bytes
    data := put blk.data blk.used (List.replicate (padding+bytes) 0) }

def inBlock (b : Builder) (bytes padding aligned : ℕ) : Builder :=
  { b with current := longer b.current padding bytes, virtualUsed := aligned+bytes }

/-- `dvs_builder_alloc`; `none` is `EXPR_NULL`. -/
def alloc (b : Builder) (bytes align : ℕ) (m : Fresh) : Option (ℕ × Builder) :=
  let fin := (b.virtualUsed+align-1)/align*align+bytes
  if exprNull ≤ fin+poolHeaderSz then none
  else
    let aligned := alignUp b.virtualUsed align
    let padding := aligned-b.virtualUsed
    if bytes = 0 then some (poolHeaderSz+aligned,{ b with virtualUsed := aligned })
    else if b.current.capacity < b.current.used+(padding+bytes) then
      if m.ok then some (poolHeaderSz+aligned,b.newBlock bytes aligned m.junk) else none
    else some (poolHeaderSz+aligned,b.inBlock bytes padding aligned)

/-- The stores through the pointer to a node just allocated. -/
def fill (b : Builder) (ref : ℕ) (content : List Byte) : Builder :=
  { b with current := { b.current with
      data := put b.current.data (ref-poolHeaderSz-b.current.base) content } }

/-- A node of the pool: the size is computed in 32 bits. The outer `none` is a store past the end
of the block, the inner one `EXPR_NULL`. -/
def node (b : Builder) (align : ℕ) (content : List Byte) (m : Fresh) :
    Option (Option (ℕ × Builder)) :=
  match b.alloc (content.length % 2^32) align m with
  | none => some none
  | some (ref,b') => if content.length < 2^32 then some (some (ref,b'.fill ref content)) else none

/-- An item: a node that starts with the link to the newest one, and takes its place. -/
def item (b : Builder) (k : Kind) (align : ℕ) (payload : List Byte) (m : Fresh) :
    Option (Option (ℕ × Builder)) :=
  (b.node align (le 4 (b.head k) ++ payload) m).map fun r =>
    r.map fun rb => (rb.1,rb.2.setHead k rb.1)

/-- The last block of those from `lo` to `hi` that starts at or below `off`. -/
def search (base : ℕ → ℕ) (off : ℕ) : ℕ → ℕ → ℕ → ℕ
  | 0, lo, _ => lo
  | n+1, lo, hi =>
    if 1 < hi-lo then
      let mid := lo+(hi-lo)/2
      if base mid ≤ off then search base off n mid hi else search base off n lo mid
    else lo

def blockAt (b : Builder) (off : ℕ) : ℕ :=
  search (fun i => ((b.blocks[i]?).map Block.base).getD 0) off b.blocks.length 0 b.blocks.length

/-- `dvs_builder_ref_ptr`: the block and the place in it. -/
def refPtr (b : Builder) (ref : ℕ) : Option (ℕ × ℕ) :=
  if ref = exprNull then none
  else
    let voff := (ref+2^32-poolHeaderSz) % 2^32
    let i := b.blockAt voff
    match b.blocks[i]? with
    | some blk => if blk.Has voff then some (i,voff-blk.base) else none
    | none => none

def read (b : Builder) (p : ℕ × ℕ) (off : ℕ) : ℕ :=
  match b.blocks[p.1]? with
  | some blk => word blk.data 4 (p.2+off)
  | none => 0

def poke (b : Builder) (i loc : ℕ) (v : Byte) : Builder :=
  { b with
    older := b.older.modify i fun blk => blk.write loc v
    current := if i = b.older.length then b.current.write loc v else b.current }

structure DistEntry where
  lo : ℕ
  hi : ℕ
  weight : ℕ
  isPerValue : Byte

def DistEntry.bytes (e : DistEntry) : List Byte :=
  le 8 e.lo ++ le 8 e.hi ++ le 4 e.weight ++ [e.isPerValue,0,0,0]

def maxWidth : ℕ := 2^24

/-- `dvs_builder_add_var`: a `VarSpec` has its kind at byte 13 and its order at byte 14. -/
def addVar (b : Builder) (varId width : ℕ) (isSigned : Byte) (lo hi : ℕ) (m : Fresh) :
    Option (Option (ℕ × Builder)) :=
  if width = 0 ∨ maxWidth < width then some none
  else b.item .vars 8
    (le 4 varId ++ le 4 width ++ [isSigned,0,0,0] ++ le 8 lo ++ le 8 hi) m

def addConstraint (b : Builder) (root : ℕ) (m : Fresh) : Option (Option (ℕ × Builder)) :=
  b.item .constraints 4 (le 4 root ++ le 4 0) m

def addSource (b : Builder) (varIds : List ℕ) (m : Fresh) : Option (Option (ℕ × Builder)) :=
  b.item .sources 4 (le 4 varIds.length ++ varIds.flatMap (le 4)) m

def addAllDifferent (b : Builder) (varIds : List ℕ) (m : Fresh) :
    Option (Option (ℕ × Builder)) :=
  b.item .allDiffs 4 (le 4 varIds.length ++ varIds.flatMap (le 4)) m

def addSoftConstraint (b : Builder) (root priority : ℕ) (m : Fresh) :
    Option (Option (ℕ × Builder)) :=
  b.item .softs 4 (le 4 root ++ le 4 priority ++ le 4 0) m

def addDist (b : Builder) (varId : ℕ) (entries : List DistEntry) (m : Fresh) :
    Option (Option (ℕ × Builder)) :=
  b.item .dists 4 (le 4 varId ++ le 4 entries.length ++ entries.flatMap DistEntry.bytes) m

def findVar (b : Builder) (varId : ℕ) : ℕ → ℕ → Option (ℕ × ℕ)
  | 0, _ => none
  | n+1, r =>
    if r = exprNull then none
    else
      match b.refPtr r with
      | none => none
      | some p => if b.read p 4 = varId then some p else findVar b varId n (b.read p 0)

def setVarOrder (b : Builder) (varId : ℕ) (stage : Byte) : Builder :=
  match b.findVar varId (b.count .vars+1) (b.head .vars) with
  | none => b
  | some p => b.poke p.1 (p.2+14) stage

def setVarKind (b : Builder) (varId kind : ℕ) : Builder :=
  if 3 < kind then b
  else
    match b.findVar varId (b.count .vars+1) (b.head .vars) with
    | none => b
    | some p => b.poke p.1 (p.2+13) (BitVec.ofNat 8 kind)

def markVarAux (b : Builder) (ref : ℕ) : Builder :=
  match b.refPtr ref with
  | none => b
  | some p => b.poke p.1 (p.2+13) 1

def dropNewest (b : Builder) (k : Kind) : ℕ → Option Builder
  | 0 => some b
  | n+1 =>
    if b.head k = exprNull then none
    else
      match b.refPtr (b.head k) with
      | none => none
      | some p => dropNewest { b with
          head := update b.head k (b.read p 0)
          count := update b.count k (b.count k-1) } k n

def rewind (b : Builder) (m : Kind → ℕ) : Option Builder :=
  if ∃ k ∈ Kind.all, b.count k < m k then none
  else Kind.all.foldlM (fun b k => b.dropNewest k (b.count k-m k)) b

end Builder

structure Problem where
  head : Kind → ℕ
  count : Kind → ℕ
  used : ℕ
  capacity : ℕ
  room : ℕ
  pool : Store

def place (pool : Store) (blk : Block) : Store := fun off =>
  if blk.Has off then blk.data (off-blk.base) else pool off

def Builder.image (b : Builder) : Store := b.blocks.foldl place fun _ => 0

def finalizeReserve (b : Builder) (extra : ℕ) : Problem :=
  ⟨b.head,b.count,b.virtualUsed,(b.virtualUsed+extra) % 2^32,b.virtualUsed+extra,b.image⟩

def finalize (b : Builder) : Problem :=
  ⟨b.head,b.count,b.virtualUsed,b.virtualUsed,b.virtualUsed,b.image⟩

def copyBlocks (lo hi : ℕ) : List Block → Store → Store
  | [], pool => pool
  | blk::rest, pool =>
    if hi ≤ blk.base then pool
    else
      let s := if lo < blk.base then blk.base else lo
      let e := if hi < blk.base+blk.used then hi else blk.base+blk.used
      copyBlocks lo hi rest
        (if s < e then copy pool (fun off => blk.data (off-blk.base)) s e else pool)

def copyRange (b : Builder) (pool : Store) (lo hi : ℕ) : Store :=
  copyBlocks lo hi (b.blocks.drop (b.blockAt lo)) (copy pool (fun _ => 0) lo hi)

def headroom (used : ℕ) : ℕ := if 4096 < used/2 then used/2 else 4096

/-- What is added since the last call, in a problem that has the room; `none` is a store past its
end. -/
def append (b : Builder) (p : Problem) : Option Problem :=
  if p.room < b.virtualUsed then none
  else some { p with
    head := b.head
    count := b.count
    used := b.virtualUsed
    pool := copyRange b p.pool p.used b.virtualUsed }

def grown (p : Problem) (cap : ℕ) (junk : Store) : Problem :=
  { p with capacity := cap, room := cap, pool := copy junk p.pool 0 (min p.room cap) }

/-- `dvs_builder_finalize_append`; the inner `none` is NULL. -/
def finalizeAppend (b : Builder) (prev : Option Problem) (m : Builder.Fresh) :
    Option (Option Problem) :=
  let used := b.virtualUsed
  let full := if m.ok then
      some (some (if b.custom then finalize b else finalizeReserve b (headroom used)))
    else some none
  match prev with
  | none => full
  | some p =>
    if b.custom = true ∨ used < p.used then full
    else if p.capacity < used then
      if m.ok then (append b (grown p ((used+headroom used) % 2^32) m.junk)).map some
      else some none
    else (append b p).map some

def follow (pool : Store) : ℕ → ℕ → ℕ
  | 0, cur => cur
  | k+1, cur => follow pool k (word pool 4 (cur-poolHeaderSz))

def followKept (pool : Store) : ℕ → ℕ → Option ℕ
  | 0, cur => if cur = exprNull then none else some cur
  | k+1, cur =>
    if cur = exprNull then none else followKept pool k (word pool 4 (cur-poolHeaderSz))

def emptied (p : Problem) (k : Kind) : Problem :=
  { p with count := update p.count k 0, head := update p.head k exprNull }

def ended (p : Problem) (k : Kind) (keep cur : ℕ) : Problem :=
  { p with
    count := update p.count k keep
    pool := put p.pool (cur-poolHeaderSz) (le 4 exprNull) }

def cutList (p : Problem) (k : Kind) (keep : ℕ) : Option Problem :=
  if p.count k < keep then none
  else if keep = 0 then some (emptied p k)
  else (followKept p.pool (keep-1) (p.head k)).map (ended p k keep)

def finalizeSince (b : Builder) (m : Kind → ℕ) : Option Problem :=
  if ∃ k ∈ Kind.all, b.count k < m k then none
  else Kind.all.foldlM (fun p k => cutList p k (p.count k-m k)) (finalize b)

structure Cut where
  head : Kind → ℕ
  count : Kind → ℕ
  linkAt : Kind → ℕ
  linkWas : Kind → ℕ

def Cut.set (c : Cut) (k : Kind) (head count linkAt linkWas : ℕ) : Cut :=
  ⟨update c.head k head,update c.count k count,update c.linkAt k linkAt,update c.linkWas k linkWas⟩

def cutKind (m : Kind → ℕ) (s : Problem × Cut) (k : Kind) : Problem × Cut :=
  let p := s.1
  let keep := p.count k-m k
  if keep = 0 then (emptied p k,s.2.set k (p.head k) (p.count k) exprNull exprNull)
  else
    let cur := follow p.pool (keep-1) (p.head k)
    (ended p k keep cur,s.2.set k (p.head k) (p.count k) cur (word p.pool 4 (cur-poolHeaderSz)))

def cutSince (p : Problem) (m : Kind → ℕ) (junk : Cut) : Option (Problem × Cut) :=
  if ∃ k ∈ Kind.all, p.count k < m k then none else some (Kind.all.foldl (cutKind m) (p,junk))

def uncutKind (save : Cut) (p : Problem) (k : Kind) : Problem :=
  { p with
    pool := if save.linkAt k = exprNull then p.pool
      else put p.pool (save.linkAt k-poolHeaderSz) (le 4 (save.linkWas k))
    head := update p.head k (save.head k)
    count := update p.count k (save.count k) }

def uncut (p : Problem) (save : Cut) : Problem := Kind.all.foldl (uncutKind save) p

def listing (pool : Store) : ℕ → ℕ → List ℕ
  | 0, _ => []
  | n+1, cur => cur :: listing pool n (word pool 4 (cur-poolHeaderSz))

def Problem.items (p : Problem) (k : Kind) : List ℕ := listing p.pool (p.count k) (p.head k)

end Build
end DvSolve
