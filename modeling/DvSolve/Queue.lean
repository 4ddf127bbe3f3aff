import DvSolve.Context

/-! The propagation queue as sixteen lists.
The linked levels of the source, with their mask and `IN_QUEUE` flags, represent one
list of propagators for each priority; the operations append, take the first, and empty. -/
namespace DvSolve
namespace Solver

open Function Linked

variable {c' : Ctx} {ref : ℕ}

def queueNextOf (c : Ctx) (r : ℕ) : Option ℕ := (c.props r).queueNext

structure QueueOk (c : Ctx) (q : ℕ → List ℕ) : Prop where
  chain : ∀ l, Path (queueNextOf c) none (c.queue.heads l) (q l)
  tail : ∀ l, c.queue.tails l = (q l).getLast?
  mask : ∀ l, c.queue.nonEmptyMask.testBit l = true ↔ q l ≠ []
  mem : ∀ l, ∀ r ∈ q l, (c.props r).inQueue = true ∧ (c.props r).priority = l ∧ r < c.poolTop
  queued : ∀ r, (c.props r).inQueue = true → r ∈ q (c.props r).priority
  nodup : ∀ l, (q l).Nodup
  levels : ∀ l, nLevels ≤ l → q l = []

/-- A state that differs from `c` in its queue and queue links only. -/
structure QueueStep (c c' : Ctx) : Prop where
  rest : c' = { c with props := c'.props, queue := c'.queue }
  props : ∀ r, c'.props r =
    { c.props r with queueNext := (c'.props r).queueNext, inQueue := (c'.props r).inQueue }

theorem QueueStep.refl (c : Ctx) : QueueStep c c := ⟨rfl,fun _ => rfl⟩

theorem QueueStep.priority {c : Ctx} (h : QueueStep c c') (r : ℕ) :
    (c'.props r).priority = (c.props r).priority := by rw [h.props r]

theorem QueueStep.entailed {c : Ctx} (h : QueueStep c c') (r : ℕ) :
    (c'.props r).entailed = (c.props r).entailed := by rw [h.props r]

theorem QueueStep.propId {c : Ctx} (h : QueueStep c c') (r : ℕ) :
    (c'.props r).propId = (c.props r).propId := by rw [h.props r]

theorem QueueStep.fire {c : Ctx} (h : QueueStep c c') (r : ℕ) :
    (c'.props r).fire = (c.props r).fire := by rw [h.props r]

variable {c : Ctx} {q : ℕ → List ℕ}

theorem QueueOk.heads_eq (hq : QueueOk c q) (l : ℕ) : c.queue.heads l = (q l).head? := by
  have h := hq.chain l
  cases hl : q l with
  | nil =>
    rw [hl] at h
    exact h
  | cons r rest =>
    rw [hl] at h
    exact h.1

/-- The propagator as it stands at the end of a level. -/
def asTail (p : Propagator) : Propagator := { p with inQueue := true, queueNext := none }

theorem propEnqueue_skip (h : (c.props ref).inQueue = true ∨ (c.props ref).entailed = true) :
    propEnqueue c ref = c := by
  unfold propEnqueue
  rw [if_pos (by simpa using h)]

theorem propEnqueue_nil (hq : QueueOk c q) (h1 : (c.props ref).inQueue = false)
    (h2 : (c.props ref).entailed = false) (hnil : q (c.props ref).priority = []) :
    propEnqueue c ref = { c.setProp ref (asTail (c.props ref)) with
      queue := ⟨c.queue.nonEmptyMask ||| 2^(c.props ref).priority,
        Function.update c.queue.heads (c.props ref).priority (some ref),
        Function.update c.queue.tails (c.props ref).priority (some ref)⟩ } := by
  have hh := hq.heads_eq (c.props ref).priority
  rw [hnil] at hh
  unfold propEnqueue
  rw [if_neg (by simp [h1,h2])]
  simp only [Ctx.setProp,hh,List.head?_nil]
  rfl

theorem propEnqueue_snoc (hq : QueueOk c q) {last : ℕ} {l : List ℕ}
    (h1 : (c.props ref).inQueue = false) (h2 : (c.props ref).entailed = false)
    (hl : q (c.props ref).priority = l ++ [last]) :
    propEnqueue c ref = { (c.setProp ref (asTail (c.props ref))).setProp last
        { c.props last with queueNext := some ref } with
      queue := { c.queue with
        tails := Function.update c.queue.tails (c.props ref).priority (some ref) } } := by
  have hne : last ≠ ref := by
    rintro rfl
    have := (hq.mem _ last (by rw [hl]; simp)).1
    simp [h1] at this
  have ht := hq.tail (c.props ref).priority
  rw [hl,List.getLast?_append_of_ne_nil _ (by simp)] at ht
  obtain ⟨head,hh⟩ : ∃ head, c.queue.heads (c.props ref).priority = some head := by
    rw [hq.heads_eq,hl]
    cases l <;> simp
  unfold propEnqueue
  rw [if_neg (by simp [h1,h2])]
  simp only [Ctx.setProp,hh,ht,List.getLast?_singleton,update_of_ne hne]
  rfl

theorem exists_snoc {l : List ℕ} (h : l ≠ []) : ∃ l' last, l = l' ++ [last] :=
  ⟨l.dropLast,l.getLast h,(List.dropLast_append_getLast h).symm⟩

theorem propEnqueue_step (hq : QueueOk c q) (ref : ℕ) : QueueStep c (propEnqueue c ref) := by
  by_cases hskip : (c.props ref).inQueue = true ∨ (c.props ref).entailed = true
  · rw [propEnqueue_skip hskip]
    exact .refl c
  simp only [not_or,Bool.not_eq_true] at hskip
  by_cases hnil : q (c.props ref).priority = []
  · rw [propEnqueue_nil hq hskip.1 hskip.2 hnil]
    refine ⟨rfl,fun r => ?_⟩
    by_cases h : r = ref
    · subst h
      simp [Ctx.setProp,asTail]
    · simp [Ctx.setProp,update_of_ne h]
  · obtain ⟨l,last,hl⟩ := exists_snoc hnil
    rw [propEnqueue_snoc hq hskip.1 hskip.2 hl]
    refine ⟨rfl,fun r => ?_⟩
    by_cases ht : r = last
    · subst ht
      by_cases h : r = ref
      · subst h
        simp [Ctx.setProp]
      · simp [Ctx.setProp]
    · by_cases h : r = ref
      · subst h
        simp [Ctx.setProp,asTail,update_of_ne ht]
      · simp [Ctx.setProp,update_of_ne ht,update_of_ne h]

def enqueued (c : Ctx) (q : ℕ → List ℕ) (ref : ℕ) : ℕ → List ℕ :=
  if (c.props ref).inQueue ∨ (c.props ref).entailed then q
  else Function.update q (c.props ref).priority (q (c.props ref).priority ++ [ref])

theorem propEnqueue_inQueue (hq : QueueOk c q) (h1 : (c.props ref).inQueue = false)
    (h2 : (c.props ref).entailed = false) (r : ℕ) :
    ((propEnqueue c ref).props r).inQueue = if r = ref then true else (c.props r).inQueue := by
  by_cases hnil : q (c.props ref).priority = []
  · rw [propEnqueue_nil hq h1 h2 hnil]
    by_cases h : r = ref
    · subst h
      simp [Ctx.setProp,asTail]
    · simp [Ctx.setProp,h]
  · obtain ⟨l,last,hl⟩ := exists_snoc hnil
    have hlast := (hq.mem _ last (by rw [hl]; simp)).1
    rw [propEnqueue_snoc hq h1 h2 hl]
    by_cases ht : r = last
    · subst ht
      simp [Ctx.setProp,hlast]
    · by_cases h : r = ref
      · subst h
        simp [Ctx.setProp,asTail,update_of_ne ht]
      · simp [Ctx.setProp,update_of_ne ht,h]

theorem propEnqueue_chain (hq : QueueOk c q) (h1 : (c.props ref).inQueue = false)
    (h2 : (c.props ref).entailed = false) (l : ℕ) :
    Path (queueNextOf (propEnqueue c ref)) none ((propEnqueue c ref).queue.heads l)
      (Function.update q (c.props ref).priority (q (c.props ref).priority ++ [ref]) l) := by
  have hfresh : ∀ l, ref ∉ q l := fun l h => by
    have := (hq.mem l ref h).1
    simp [h1] at this
  by_cases hnil : q (c.props ref).priority = []
  · rw [propEnqueue_nil hq h1 h2 hnil]
    by_cases hl : l = (c.props ref).priority
    · subst hl
      simp [hnil,Linked.Path,queueNextOf,Ctx.setProp,asTail]
    · simp only [update_of_ne hl]
      refine (hq.chain l).congr fun r hr => ?_
      have hne : r ≠ ref := fun h => hfresh l (h ▸ hr)
      simp [queueNextOf,Ctx.setProp,update_of_ne hne]
  · obtain ⟨l',last,hl'⟩ := exists_snoc hnil
    rw [propEnqueue_snoc hq h1 h2 hl']
    by_cases hl : l = (c.props ref).priority
    · subst hl
      rw [update_self,hl']
      have hpath := hq.chain (c.props ref).priority
      rw [hl'] at hpath
      refine (hpath.snoc (hl' ▸ hfresh _) (hl' ▸ hq.nodup _)).congr fun r _ => ?_
      by_cases ht : r = last
      · subst ht
        simp [queueNextOf,Ctx.setProp]
      · by_cases h : r = ref
        · subst h
          simp [queueNextOf,Ctx.setProp,asTail,update_of_ne ht]
        · simp [queueNextOf,Ctx.setProp,update_of_ne ht,update_of_ne h]
    · simp only [update_of_ne hl]
      refine (hq.chain l).congr fun r hr => ?_
      have hne : r ≠ ref := fun h => hfresh l (h ▸ hr)
      have hlast : r ≠ last := fun h => by
        have hr' := (hq.mem l r hr).2.1
        have := (hq.mem _ last (by rw [hl']; simp)).2.1
        rw [h,this] at hr'
        exact hl hr'.symm
      simp [queueNextOf,Ctx.setProp,update_of_ne hne,update_of_ne hlast]

theorem propEnqueue_ends (hq : QueueOk c q) (h1 : (c.props ref).inQueue = false)
    (h2 : (c.props ref).entailed = false) :
    (propEnqueue c ref).queue.tails = Function.update c.queue.tails (c.props ref).priority (some ref) ∧
      ∀ l, (propEnqueue c ref).queue.nonEmptyMask.testBit l =
        (c.queue.nonEmptyMask.testBit l || decide (l = (c.props ref).priority)) := by
  by_cases hnil : q (c.props ref).priority = []
  · rw [propEnqueue_nil hq h1 h2 hnil]
    refine ⟨rfl,fun l => ?_⟩
    rw [Nat.testBit_or,Nat.testBit_two_pow,eq_comm]
    by_cases h : l = (c.props ref).priority <;> simp [h,eq_comm]
  · obtain ⟨l',last,hl'⟩ := exists_snoc hnil
    have hset := (hq.mask (c.props ref).priority).mpr hnil
    rw [propEnqueue_snoc hq h1 h2 hl']
    refine ⟨rfl,fun l => ?_⟩
    by_cases h : l = (c.props ref).priority
    · subst h
      simp [hset]
    · simp [h]

theorem propEnqueue_ok (hq : QueueOk c q) (hr : ref < c.poolTop)
    (hp : (c.props ref).priority < nLevels) : QueueOk (propEnqueue c ref) (enqueued c q ref) := by
  by_cases hskip : (c.props ref).inQueue = true ∨ (c.props ref).entailed = true
  · rw [propEnqueue_skip hskip,enqueued,if_pos hskip]
    exact hq
  rw [enqueued,if_neg hskip]
  simp only [not_or,Bool.not_eq_true] at hskip
  obtain ⟨h1,h2⟩ := hskip
  have hstep := propEnqueue_step hq ref
  have hflag := propEnqueue_inQueue hq h1 h2
  obtain ⟨htails,hmask⟩ := propEnqueue_ends hq h1 h2
  have htop : (propEnqueue c ref).poolTop = c.poolTop := by rw [hstep.rest]
  have hfresh : ref ∉ q (c.props ref).priority := fun h => by
    have := (hq.mem _ ref h).1
    simp [h1] at this
  refine ⟨propEnqueue_chain hq h1 h2,fun l => ?_,fun l => ?_,fun l r hr' => ?_,fun r hr' => ?_,
    fun l => ?_,fun l hl => ?_⟩
  · rw [htails]
    by_cases h : l = (c.props ref).priority
    · subst h
      simp
    · rw [update_of_ne h,update_of_ne h]
      exact hq.tail l
  · rw [hmask]
    by_cases h : l = (c.props ref).priority
    · subst h
      simp
    · rw [update_of_ne h,← hq.mask l]
      simp [h]
  · rw [hflag,hstep.priority,htop]
    by_cases h : r = ref
    · subst h
      rw [if_pos rfl]
      by_cases hl : l = (c.props r).priority
      · exact ⟨rfl,hl.symm,hr⟩
      · rw [update_of_ne hl] at hr'
        have := (hq.mem l r hr').1
        simp [h1] at this
    · rw [if_neg h]
      refine hq.mem l r ?_
      by_cases hl : l = (c.props ref).priority
      · subst hl
        simpa [h] using hr'
      · rwa [update_of_ne hl] at hr'
  · rw [hflag] at hr'
    rw [hstep.priority]
    by_cases h : r = ref
    · subst h
      simp
    · rw [if_neg h] at hr'
      have := hq.queued r hr'
      by_cases hl : (c.props r).priority = (c.props ref).priority
      · rw [hl] at this ⊢
        simp [this]
      · rwa [update_of_ne hl]
  · by_cases h : l = (c.props ref).priority
    · subst h
      rw [update_self]
      exact List.nodup_append.mpr ⟨hq.nodup _,List.nodup_singleton _,fun a ha b hb he => hfresh (by
          obtain rfl : b = ref := by simpa using hb
          exact he ▸ ha)⟩
    · rw [update_of_ne h]
      exact hq.nodup l
  · have h : l ≠ (c.props ref).priority := by omega
    rw [update_of_ne h]
    exact hq.levels l hl

theorem takeHead_step (c : Ctx) (lvl ref : ℕ) : QueueStep c (takeHead c lvl ref) := by
  refine ⟨rfl,fun r => ?_⟩
  by_cases h : r = ref
  · subst h
    simp [takeHead,Ctx.setProp]
  · simp [takeHead,Ctx.setProp,update_of_ne h]

theorem takeHead_inQueue (c : Ctx) (lvl ref r : ℕ) :
    ((takeHead c lvl ref).props r).inQueue = if r = ref then false else (c.props r).inQueue := by
  by_cases h : r = ref
  · subst h
    simp [takeHead,Ctx.setProp]
  · simp [takeHead,Ctx.setProp,h]

theorem takeHead_heads (c : Ctx) (lvl ref : ℕ) : (takeHead c lvl ref).queue.heads =
    Function.update c.queue.heads lvl (c.props ref).queueNext := by
  unfold takeHead
  dsimp only
  split_ifs <;> rfl

theorem takeHead_next (c : Ctx) (lvl : ℕ) {r : ℕ} (h : r ≠ ref) :
    queueNextOf (takeHead c lvl ref) r = queueNextOf c r := by
  simp [queueNextOf,takeHead,Ctx.setProp,h]

theorem mask_clear (m lvl l : ℕ) (hl : m.testBit l = true → l < 16) :
    (m &&& (0xFFFF ^^^ 2^lvl)).testBit l = (m.testBit l && decide (l ≠ lvl)) := by
  have hffff : (0xFFFF : ℕ) = 2^16-1 := rfl
  rw [Nat.testBit_and,Nat.testBit_xor,hffff,Nat.testBit_two_pow_sub_one,Nat.testBit_two_pow]
  cases h : m.testBit l with
  | false => rfl
  | true =>
    have := hl h
    by_cases he : l = lvl
    · subst he
      simp [this]
    · simp [this,he,Ne.symm he]

/-- Taking the head of a level leaves its list without its head. -/
theorem takeHead_ok (hq : QueueOk c q) {lvl : ℕ} {rest : List ℕ} (hl : q lvl = ref :: rest) :
    QueueOk (takeHead c lvl ref) (Function.update q lvl rest) := by
  have hpath := hq.chain lvl
  rw [hl] at hpath
  obtain ⟨_,hrest⟩ := hpath
  obtain ⟨_,hprio,_⟩ := hq.mem lvl ref (by rw [hl]; simp)
  obtain ⟨hnotin,hnd⟩ := List.nodup_cons.mp (hl ▸ hq.nodup lvl)
  have hother : ∀ l, l ≠ lvl → ref ∉ q l := fun l hne h =>
    hne ((hq.mem l ref h).2.1.symm.trans hprio)
  have hnext : (c.props ref).queueNext = none ↔ rest = [] := by
    cases rest with
    | nil => exact iff_of_true hrest rfl
    | cons r rest => exact iff_of_false (by rw [show (c.props ref).queueNext = some r from hrest.1]; simp) (by simp)
  have hlt : ∀ l, c.queue.nonEmptyMask.testBit l = true → l < 16 := fun l h => by
    by_contra h16
    exact (hq.mask l).mp h (hq.levels l (by simpa [nLevels] using h16))
  have hstep := takeHead_step c lvl ref
  have htop : (takeHead c lvl ref).poolTop = c.poolTop := by rw [hstep.rest]
  have hsub : ∀ l, ∀ r ∈ Function.update q lvl rest l, r ∈ q l ∧ r ≠ ref := by
    intro l r hr
    by_cases h : l = lvl
    · subst h
      rw [update_self] at hr
      exact ⟨by rw [hl]; simp [hr],fun he => hnotin (he ▸ hr)⟩
    · rw [update_of_ne h] at hr
      exact ⟨hr,fun he => hother l h (he ▸ hr)⟩
  refine ⟨fun l => ?_,fun l => ?_,fun l => ?_,fun l r hr => ?_,fun r hr => ?_,fun l => ?_,
    fun l h16 => ?_⟩
  · rw [takeHead_heads]
    by_cases h : l = lvl
    · subst h
      rw [update_self,update_self]
      exact hrest.congr fun r hr => takeHead_next c l fun he => hnotin (he ▸ hr)
    · rw [update_of_ne h,update_of_ne h]
      exact (hq.chain l).congr fun r hr => takeHead_next c lvl fun he => hother l h (he ▸ hr)
  · unfold takeHead
    dsimp only
    by_cases h : l = lvl
    · subst h
      by_cases hnil : rest = []
      · rw [if_pos (hnext.mpr hnil),hnil]
        simp
      · rw [if_neg (mt hnext.mp hnil),update_self]
        have ht := hq.tail l
        rw [hl,List.getLast?_cons_of_ne_nil hnil] at ht
        exact ht
    · rw [update_of_ne h,← hq.tail l]
      split_ifs
      · exact update_of_ne h _ _
      · rfl
  · unfold takeHead
    dsimp only
    by_cases hnil : rest = []
    · rw [if_pos (hnext.mpr hnil)]
      rw [mask_clear _ _ _ (hlt l)]
      by_cases h : l = lvl
      · subst h
        simp [hnil]
      · rw [update_of_ne h,← hq.mask l]
        simp [h]
    · rw [if_neg (mt hnext.mp hnil)]
      rw [hq.mask l]
      by_cases h : l = lvl
      · subst h
        simp [hl,hnil]
      · rw [update_of_ne h]
  · obtain ⟨hr',hne⟩ := hsub l r hr
    rw [takeHead_inQueue,if_neg hne,hstep.priority,htop]
    exact hq.mem l r hr'
  · rw [takeHead_inQueue] at hr
    rw [hstep.priority]
    by_cases h : r = ref
    · simp [h] at hr
    · rw [if_neg h] at hr
      have hmem := hq.queued r hr
      by_cases hp : (c.props r).priority = lvl
      · rw [hp,update_self]
        rw [hp,hl] at hmem
        exact (List.mem_cons.mp hmem).resolve_left h
      · rwa [update_of_ne hp]
  · by_cases h : l = lvl
    · subst h
      rw [update_self]
      exact hnd
    · rw [update_of_ne h]
      exact hq.nodup l
  · by_cases h : l = lvl
    · subst h
      have := hq.levels l h16
      simp [hl] at this
    · rw [update_of_ne h]
      exact hq.levels l h16

/-- The first level with an entry loses its head. -/
theorem dequeue_ok (hq : QueueOk c q) (hne : c.queue.nonEmptyMask ≠ 0) :
    ∃ lvl ref rest, q lvl = ref :: rest ∧ (∀ l < lvl, q l = []) ∧
      dequeue c = some (ref,takeHead c lvl ref) := by
  obtain ⟨l₀,hl₀⟩ := Nat.exists_testBit_of_ne_zero hne
  have hlt : l₀ < nLevels := by
    by_contra h
    exact (hq.mask l₀).mp hl₀ (hq.levels l₀ (by omega))
  obtain ⟨lvl,hfind⟩ := Option.isSome_iff_exists.mp (List.find?_isSome.mpr
    ⟨l₀,List.mem_range.mpr hlt,hl₀⟩)
  obtain ⟨hbit,_,hbefore⟩ := List.find?_range_eq_some.mp hfind
  obtain ⟨ref,rest,hlvl⟩ := List.exists_cons_of_ne_nil ((hq.mask lvl).mp hbit)
  have hhead : c.queue.heads lvl = some ref := by rw [hq.heads_eq,hlvl]; rfl
  refine ⟨lvl,ref,rest,hlvl,fun l hl => ?_,?_⟩
  · by_contra h
    have := hbefore l hl
    simp [(hq.mask l).mpr h] at this
  · simp [dequeue,hfind,hhead]

/-- A propagator out of the queue, without its flags. -/
def cleared (p : Propagator) : Propagator :=
  { p with inQueue := false, entailed := false, queueNext := none }

theorem clearNodes_eq (l : List ℕ) (c : Ctx) : l.foldl clearNode c =
    { c with props := fun r => if r ∈ l then cleared (c.props r) else c.props r } := by
  induction l generalizing c with
  | nil => simp
  | cons a l ih =>
    rw [List.foldl_cons,ih]
    simp only [clearNode,Ctx.setProp,List.mem_cons]
    congr 1
    funext r
    by_cases h : r = a
    · subst h
      simp [cleared]
    · simp [h]

theorem QueueOk.length_le (hq : QueueOk c q) (l : ℕ) : (q l).length ≤ c.poolTop := by
  have hsub : (q l).toFinset ⊆ Finset.range c.poolTop := fun r hr =>
    Finset.mem_range.mpr (hq.mem l r (List.mem_toFinset.mp hr)).2.2
  have h := Finset.card_le_card hsub
  rwa [List.toFinset_card_of_nodup (hq.nodup l),Finset.card_range] at h

def clearedBelow (c : Ctx) (n : ℕ) : Ctx :=
  { c with
    props := fun r =>
      if (c.props r).inQueue ∧ (c.props r).priority < n then cleared (c.props r) else c.props r
    queue := { c.queue with
      heads := fun l => if l < n then none else c.queue.heads l
      tails := fun l => if l < n then none else c.queue.tails l } }

theorem clearLevel_ok (hq : QueueOk c q) (n : ℕ) :
    clearLevel (clearedBelow c n) n = some (clearedBelow c (n+1)) := by
  have hin : ∀ r, r ∈ q n ↔ (c.props r).inQueue = true ∧ (c.props r).priority = n := by
    refine fun r => ⟨fun h => ?_,fun h => ?_⟩
    · exact ⟨(hq.mem n r h).1,(hq.mem n r h).2.1⟩
    · rw [← h.2]
      exact hq.queued r h.1
  have hpath : Path (fun r => ((clearedBelow c n).props r).queueNext) none
      ((clearedBelow c n).queue.heads n) (q n) := by
    have hh : (clearedBelow c n).queue.heads n = c.queue.heads n := by simp [clearedBelow]
    rw [hh]
    refine (hq.chain n).congr fun r hr => ?_
    have := (hin r).mp hr
    simp [clearedBelow,queueNextOf,this.2]
  have hwalk := walk_eq (s := clearedBelow c n) (fun h => h == none)
    (fun c r => decide (r < c.poolTop)) (fun c r => (c.props r).queueNext) clearNode (fun _ _ _ => rfl)
    (fun s a b hb => by simp [clearNode,Ctx.setProp,hb]) none rfl (fun _ _ => rfl)
    (hq.nodup n) (Nat.lt_succ_of_le (hq.length_le n))
    (fun a ha => decide_eq_true (hq.mem n a ha).2.2) hpath
  have htop : (clearedBelow c n).poolTop = c.poolTop := rfl
  unfold clearLevel
  rw [htop,hwalk,clearNodes_eq,Option.map_some]
  simp only [clearedBelow,Option.some.injEq]
  congr 1
  · funext r
    simp only [hin r]
    by_cases h1 : (c.props r).inQueue = true
    · rcases lt_trichotomy (c.props r).priority n with h2 | h2 | h2
      · simp [h1,h2,h2.ne,Nat.lt_succ_of_lt h2]
      · simp [h1,h2]
      · simp [h1,h2.ne',not_lt.mpr h2.le,show ¬(c.props r).priority < n+1 by omega]
    · simp [h1]
  · congr 1
    · funext l
      rcases lt_trichotomy l n with h | h | h
      · simp [h,h.ne,Nat.lt_succ_of_lt h]
      · simp [h]
      · simp [h.ne',not_lt.mpr h.le,show ¬l < n+1 by omega]
    · funext l
      rcases lt_trichotomy l n with h | h | h
      · simp [h,h.ne,Nat.lt_succ_of_lt h]
      · simp [h]
      · simp [h.ne',not_lt.mpr h.le,show ¬l < n+1 by omega]

theorem clearLevels_ok (hq : QueueOk c q) (n : ℕ) :
    (List.range n).foldlM clearLevel c = some (clearedBelow c n) := by
  induction n with
  | zero => simp [clearedBelow]
  | succ n ih =>
    rw [List.range_succ,List.foldlM_append,ih]
    simp [clearLevel_ok hq n]

/-- Emptying takes every queued propagator out and clears both its flags. -/
theorem clearQueue_ok (hq : QueueOk c q) :
    clearQueue c = some { c with
      props := fun r => if (c.props r).inQueue then cleared (c.props r) else c.props r
      queue := .empty } := by
  have hprio : ∀ r, (c.props r).inQueue = true → (c.props r).priority < nLevels := fun r hr => by
    by_contra h
    have := hq.queued r hr
    rw [hq.levels _ (by omega)] at this
    simp at this
  have hend : ∀ l, nLevels ≤ l → c.queue.heads l = none ∧ c.queue.tails l = none := fun l hl => by
    rw [hq.heads_eq,hq.tail,hq.levels l hl]
    exact ⟨rfl,rfl⟩
  unfold clearQueue
  rw [clearLevels_ok hq,Option.map_some]
  simp only [clearedBelow,PropQueue.empty,Option.some.injEq]
  congr 1
  · funext r
    by_cases h : (c.props r).inQueue = true
    · simp [h,hprio r h]
    · simp [h]
  · congr 1
    · funext l
      split_ifs with h
      · rfl
      · exact (hend l (by omega)).1
    · funext l
      split_ifs with h
      · rfl
      · exact (hend l (by omega)).2

theorem QueueOk.of_empty {c : Ctx} (hq : c.queue = .empty) (hin : ∀ r, (c.props r).inQueue = false) :
    QueueOk c fun _ => [] := by
  refine ⟨fun l => ?_,fun l => ?_,fun l => ?_,by simp,fun r hr => ?_,by simp,by simp⟩
  · rw [hq]
    rfl
  · rw [hq]
    rfl
  · simp [hq,PropQueue.empty]
  · simp [hin r] at hr

end Solver
end DvSolve
