import DvSolve.BuilderLists

/-! Cutting the lists of a problem at a mark, and putting them back. -/
namespace DvSolve
namespace Build

open Function ByteStore Linked
open List (mem_cons mem_cons_of_mem mem_cons_self not_mem_nil)

variable {pool pool' : Store} {head a : ℕ} {l rest : List ℕ}
variable {ks : List Kind} {s : Problem × Cut}

theorem Chain.follow (h : Chain pool head (l ++ a :: rest)) : follow pool l.length head = a := by
  induction l generalizing head with
  | nil => exact (chain_cons.mp h).1
  | cons x l ih =>
    obtain ⟨rfl,hl⟩ := chain_cons.mp h
    exact ih hl

theorem Chain.followKept (h : Chain pool head (l ++ a :: rest))
    (hnull : ∀ x ∈ l ++ [a], x ≠ exprNull) : followKept pool l.length head = some a := by
  induction l generalizing head with
  | nil =>
    obtain ⟨rfl,_⟩ := chain_cons.mp h
    exact if_neg (hnull head mem_cons_self)
  | cons x l ih =>
    obtain ⟨rfl,hl⟩ := chain_cons.mp h
    rw [List.length_cons,Build.followKept,if_neg (hnull head mem_cons_self)]
    exact ih hl fun y hy => hnull y (mem_cons_of_mem _ hy)

theorem Chain.cut (h : Chain pool head (l ++ a :: rest))
    (hl : ∀ x ∈ l, x-poolHeaderSz+4 ≤ a-poolHeaderSz ∨ a-poolHeaderSz+4 ≤ x-poolHeaderSz) :
    Chain (put pool (a-poolHeaderSz) (le 4 exprNull)) head (l ++ [a]) := by
  induction l generalizing head with
  | nil =>
    obtain ⟨rfl,_⟩ := chain_cons.mp h
    refine chain_cons.mpr ⟨rfl,chain_nil.mpr ?_⟩
    have hword := word_put (m := pool) (a := head-poolHeaderSz) (n := 4) exprNull []
    rw [List.append_nil] at hword
    rw [hword]
    decide
  | cons x l ih =>
    obtain ⟨rfl,htail⟩ := chain_cons.mp h
    refine chain_cons.mpr ⟨rfl,?_⟩
    rw [word_put_outside (by rw [le_length]; exact hl head mem_cons_self)]
    exact ih htail fun y hy => hl y (mem_cons_of_mem _ hy)

/-- The lists of a problem go through items that lie apart in its pool. -/
structure Listed (p : Problem) (items : Kind → List ℕ) : Prop where
  chain : ∀ k, Chain p.pool (p.head k) (items k)
  count : ∀ k, p.count k = (items k).length
  nodup : ∀ k, (items k).Nodup
  apart : ∀ k a k' a', a ∈ items k → a' ∈ items k' → (k = k' ∧ a = a') ∨ a+4 ≤ a' ∨ a'+4 ≤ a
  low : ∀ k, ∀ a ∈ items k, poolHeaderSz ≤ a ∧ a+4 ≤ poolHeaderSz+p.used
  small : p.used+poolHeaderSz < exprNull

variable {p f : Problem} {items : Kind → List ℕ} {m : Kind → ℕ} {k : Kind}

theorem Listed.ne_null (h : Listed p items) {k : Kind} {a : ℕ} (ha : a ∈ items k) :
    a ≠ exprNull := by
  have h1 := (h.low k a ha).2
  have h2 := h.small
  omega

theorem split_last {keep : ℕ} (l : List ℕ) (hpos : keep ≠ 0) (hle : keep ≤ l.length) :
    ∃ l1 a rest, l = l1 ++ a :: rest ∧ l1.length = keep-1 ∧ l.take keep = l1 ++ [a] := by
  have hlt : keep-1 < l.length := by omega
  have hdrop := List.drop_eq_getElem_cons hlt
  refine ⟨l.take (keep-1),l[keep-1],l.drop (keep-1+1),?_,by rw [List.length_take]; omega,?_⟩
  · rw [← hdrop,List.take_append_drop]
  · have htake := List.take_concat_get' l (keep-1) hlt
    rw [show keep-1+1 = keep by omega] at htake
    exact htake.symm

def cutItems (items : Kind → List ℕ) (m : Kind → ℕ) (k : Kind) : Kind → List ℕ :=
  Function.update items k ((items k).take ((items k).length-m k))

theorem Listed.shrink (h : Listed p items) {p' : Problem} {l : List ℕ} (hl : l.Sublist (items k))
    (hchain : Chain p'.pool (p'.head k) l) (hcount : p'.count k = l.length)
    (hhead : ∀ j, j ≠ k → p'.head j = p.head j) (hcount' : ∀ j, j ≠ k → p'.count j = p.count j)
    (hword : ∀ j, j ≠ k → ∀ a ∈ items j, word p'.pool 4 (a-poolHeaderSz) = word p.pool 4 (a-poolHeaderSz))
    (hused : p'.used = p.used) : Listed p' (Function.update items k l) := by
  have hsub : ∀ j, ∀ a ∈ Function.update items k l j, a ∈ items j := by
    intro j a ha
    by_cases hj : j = k
    · subst hj
      rw [update_self] at ha
      exact hl.subset ha
    · rw [update_of_ne hj] at ha
      exact ha
  refine ⟨fun j => ?_,fun j => ?_,fun j => ?_,fun j a j' a' ha ha' =>
    h.apart j a j' a' (hsub j a ha) (hsub j' a' ha'),fun j a ha => ?_,hused ▸ h.small⟩
  · by_cases hj : j = k
    · subst hj
      rw [update_self]
      exact hchain
    · rw [update_of_ne hj,hhead j hj]
      exact (h.chain j).congr (hword j hj)
  · by_cases hj : j = k
    · subst hj
      rw [update_self]
      exact hcount
    · rw [update_of_ne hj,hcount' j hj]
      exact h.count j
  · by_cases hj : j = k
    · subst hj
      rw [update_self]
      exact (h.nodup j).sublist hl
    · rw [update_of_ne hj]
      exact h.nodup j
  · rw [hused]
    exact h.low j a (hsub j a ha)

theorem emptied_listed (h : Listed p items) (h0 : (items k).length-m k = 0) :
    Listed (emptied p k) (cutItems items m k) := by
  rw [cutItems,h0,List.take_zero]
  exact h.shrink (List.nil_sublist _) (chain_nil.mpr (update_self _ _ _))
    (update_self _ _ _) (fun j hj => update_of_ne hj _ _)
    (fun j hj => update_of_ne hj _ _) (fun _ _ _ _ => rfl) rfl

theorem ended_listed (h : Listed p items) {l1 rest : List ℕ} {a : ℕ}
    (hsplit : items k = l1 ++ a :: rest)
    (htake : (items k).take ((items k).length-m k) = l1 ++ [a]) :
    Listed (ended p k ((items k).length-m k) a) (cutItems items m k) := by
  have hmem : a ∈ items k := by
    rw [hsplit]
    exact List.mem_append_right _ mem_cons_self
  have hlow := (h.low k a hmem).1
  have hlen : (le 4 exprNull).length = 4 := le_length 4 _
  have hchain := h.chain k
  have hnodup := h.nodup k
  rw [hsplit] at hchain hnodup
  rw [cutItems,htake]
  refine h.shrink (by rw [← htake]; exact List.take_sublist _ _) ?_ ?_ (fun _ _ => rfl)
    (fun j hj => update_of_ne hj _ _) (fun j hj x hx => ?_) rfl
  · refine hchain.cut fun x hx => ?_
    have hxk : x ∈ items k := by
      rw [hsplit]
      exact List.mem_append_left _ hx
    have hxlow := (h.low k x hxk).1
    have hne : x ≠ a := by
      rintro rfl
      exact (List.nodup_append.mp hnodup).2.2 x hx x mem_cons_self rfl
    obtain ⟨_,he⟩ | hap := h.apart k x k a hxk hmem
    · exact absurd he hne
    · omega
  · rw [← htake]
    exact (update_self _ _ _).trans (by rw [List.length_take]; omega)
  · refine word_put_outside ?_
    have hxlow := (h.low j x hx).1
    obtain ⟨he,_⟩ | hap := h.apart j x k a hx hmem
    · exact absurd he hj
    · omega

def cutLists (items : Kind → List ℕ) (m : Kind → ℕ) (ks : List Kind) (j : Kind) : List ℕ :=
  if j ∈ ks then (items j).take ((items j).length-m j) else items j

theorem cutLists_of_not_mem (hk : k ∉ ks) : cutLists items m ks k = items k :=
  if_neg hk

theorem cutLists_cons (hk : k ∉ ks) :
    cutItems (cutLists items m ks) m k = cutLists items m (k :: ks) := by
  funext j
  rw [cutItems,cutLists_of_not_mem hk]
  by_cases hj : j = k
  · subst hj
    rw [update_self,cutLists,if_pos mem_cons_self]
  · rw [update_of_ne hj]
    refine if_congr ⟨mem_cons_of_mem _,fun h => ?_⟩ rfl rfl
    exact (mem_cons.mp h).resolve_left hj

structure CutTo (p : Problem) (items : Kind → List ℕ) (m : Kind → ℕ) (ks : List Kind)
    (s : Problem × Cut) : Prop where
  listed : Listed s.1 (cutLists items m ks)
  used : s.1.used = p.used
  capacity : s.1.capacity = p.capacity
  room : s.1.room = p.room
  rest : ∀ j, j ∉ ks → s.1.head j = p.head j ∧ s.1.count j = p.count j
  saved : ∀ j ∈ ks, s.2.head j = p.head j ∧ s.2.count j = p.count j
  link : ∀ j ∈ ks, s.2.linkAt j ≠ exprNull → s.2.linkAt j ∈ items j ∧
    s.2.linkWas j = word p.pool 4 (s.2.linkAt j-poolHeaderSz)
  pool : ∀ off, s.1.pool off = p.pool off ∨ ∃ j ∈ ks, s.2.linkAt j ≠ exprNull ∧
    s.2.linkAt j-poolHeaderSz ≤ off ∧ off < s.2.linkAt j-poolHeaderSz+4

theorem cutTo_nil (h : Listed p items) (junk : Cut) : CutTo p items m [] (p,junk) := by
  refine ⟨?_,rfl,rfl,rfl,fun _ _ => ⟨rfl,rfl⟩,fun _ h => absurd h not_mem_nil,
    fun _ h => absurd h not_mem_nil,fun _ => .inl rfl⟩
  rw [show cutLists items m [] = items from funext fun _ => cutLists_of_not_mem not_mem_nil]
  exact h

theorem Cut.set_other {c : Cut} {j : Kind} (hj : j ≠ k) (h n a w : ℕ) :
    (c.set k h n a w).head j = c.head j ∧ (c.set k h n a w).count j = c.count j ∧
      (c.set k h n a w).linkAt j = c.linkAt j ∧ (c.set k h n a w).linkWas j = c.linkWas j :=
  ⟨update_of_ne hj _ _,update_of_ne hj _ _,update_of_ne hj _ _,update_of_ne hj _ _⟩

theorem Cut.set_self (c : Cut) (k : Kind) (h n a w : ℕ) :
    (c.set k h n a w).head k = h ∧ (c.set k h n a w).count k = n ∧
      (c.set k h n a w).linkAt k = a ∧ (c.set k h n a w).linkWas k = w :=
  ⟨update_self _ _ _,update_self _ _ _,update_self _ _ _,update_self _ _ _⟩

/-- The cut of one more list: `hp'` is what it does to the problem, `hlink` what is saved. -/
theorem CutTo.cons (h : CutTo p items m ks s) (hk : k ∉ ks) {p' : Problem} {a w : ℕ}
    (hlisted : Listed p' (cutItems (cutLists items m ks) m k)) (hused : p'.used = s.1.used)
    (hcap : p'.capacity = s.1.capacity) (hroom : p'.room = s.1.room)
    (hrest : ∀ j, j ≠ k → p'.head j = s.1.head j ∧ p'.count j = s.1.count j)
    (hlink : a ≠ exprNull → a ∈ items k ∧ w = word p.pool 4 (a-poolHeaderSz))
    (hpool : ∀ off, p'.pool off = s.1.pool off ∨
      a ≠ exprNull ∧ a-poolHeaderSz ≤ off ∧ off < a-poolHeaderSz+4) :
    CutTo p items m (k :: ks) (p',s.2.set k (s.1.head k) (s.1.count k) a w) := by
  have hself := Cut.set_self s.2 k (s.1.head k) (s.1.count k) a w
  have hother : ∀ {j}, j ≠ k → _ := fun {j} hj =>
    Cut.set_other (c := s.2) (k := k) (j := j) hj (s.1.head k) (s.1.count k) a w
  have hne : ∀ {j}, j ∈ ks → j ≠ k := fun {j} hj he => hk (he ▸ hj)
  refine ⟨?_,hused.trans h.used,hcap.trans h.capacity,hroom.trans h.room,fun j hj => ?_,
    fun j hj => ?_,fun j hj => ?_,fun off => ?_⟩
  · rw [← cutLists_cons hk]
    exact hlisted
  · obtain ⟨hjk,hjks⟩ := not_or.mp fun hor => hj (mem_cons.mpr hor)
    rw [(hrest j hjk).1,(hrest j hjk).2]
    exact h.rest j hjks
  · obtain rfl | hjks := mem_cons.mp hj
    · rw [hself.1,hself.2.1]
      exact h.rest j hk
    · rw [(hother (hne hjks)).1,(hother (hne hjks)).2.1]
      exact h.saved j hjks
  · obtain rfl | hjks := mem_cons.mp hj
    · rw [hself.2.2.1,hself.2.2.2]
      exact hlink
    · rw [(hother (hne hjks)).2.2.1,(hother (hne hjks)).2.2.2]
      exact h.link j hjks
  · obtain heq | hrange := hpool off
    · obtain hsame | ⟨j,hj,h1,h2⟩ := h.pool off
      · exact .inl (heq.trans hsame)
      · refine .inr ⟨j,mem_cons_of_mem _ hj,?_⟩
        rw [(hother (hne hj)).2.2.1]
        exact ⟨h1,h2⟩
    · refine .inr ⟨k,mem_cons_self,?_⟩
      rw [hself.2.2.1]
      exact hrange

theorem CutTo.word_eq (h : CutTo p items m ks s) (hp : Listed p items) (hk : k ∉ ks) {a : ℕ}
    (ha : a ∈ items k) :
    word s.1.pool 4 (a-poolHeaderSz) = word p.pool 4 (a-poolHeaderSz) := by
  refine word_congr fun off h1 h2 => ?_
  obtain hsame | ⟨j,hj,hnull,h3,h4⟩ := h.pool off
  · exact hsame
  · have hmem := (h.link j hj hnull).1
    have hlow := (hp.low j _ hmem).1
    have hlow' := (hp.low k a ha).1
    obtain ⟨rfl,_⟩ | hap := hp.apart j _ k a hmem ha
    · exact absurd hj hk
    · omega

theorem cutKind_cutTo (h : CutTo p items m ks s) (hp : Listed p items) (hk : k ∉ ks) :
    CutTo p items m (k :: ks) (cutKind m s k) := by
  have hitems : cutLists items m ks k = items k := cutLists_of_not_mem hk
  have hcount : s.1.count k = (items k).length := by
    rw [h.listed.count k,hitems]
  have hchain := h.listed.chain k
  rw [hitems] at hchain
  unfold cutKind
  by_cases h0 : (items k).length-m k = 0
  · simp only [hcount,if_pos h0]
    rw [← hcount]
    refine h.cons hk (emptied_listed h.listed ?_) rfl rfl rfl (fun j hj => ?_)
      (fun hn => absurd rfl hn) fun _ => .inl rfl
    · rw [hitems]
      exact h0
    · exact ⟨update_of_ne hj _ _,update_of_ne hj _ _⟩
  · simp only [hcount,if_neg h0]
    obtain ⟨l1,a,rest,hsplit,hlen,htake⟩ := split_last (items k) h0 (Nat.sub_le _ _)
    have hmem : a ∈ items k := by
      rw [hsplit]
      exact List.mem_append_right _ mem_cons_self
    have hfollow : follow s.1.pool ((items k).length-m k-1) (s.1.head k) = a := by
      rw [hsplit] at hchain
      rw [← hlen]
      exact hchain.follow
    rw [hfollow,← hcount]
    refine h.cons hk ?_ rfl rfl rfl (fun j hj => ⟨rfl,update_of_ne hj _ _⟩)
      (fun _ => ⟨hmem,h.word_eq hp hk hmem⟩) fun off => ?_
    · have htake' : (cutLists items m ks k).take ((cutLists items m ks k).length-m k) = l1 ++ [a] := by
        rw [hitems]
        exact htake
      have hl := ended_listed h.listed (hitems.trans hsplit) htake'
      rw [hitems,← hcount] at hl
      exact hl
    · by_cases hin : a-poolHeaderSz ≤ off ∧ off < a-poolHeaderSz+4
      · exact .inr ⟨hp.ne_null hmem,hin⟩
      · refine .inl (put_outside ?_)
        rw [le_length]
        omega

theorem cutKinds_cutTo (hp : Listed p items) (h : CutTo p items m ks s) (todo : List Kind)
    (hnd : todo.Nodup) (hdis : ∀ k ∈ todo, k ∉ ks) :
    ∃ ks', CutTo p items m ks' (todo.foldl (cutKind m) s) ∧ ∀ k, k ∈ ks ∨ k ∈ todo → k ∈ ks' := by
  induction todo generalizing ks s with
  | nil => exact ⟨ks,h,fun k hk => hk.resolve_right not_mem_nil⟩
  | cons k todo ih =>
    obtain ⟨hk,hnd⟩ := List.nodup_cons.mp hnd
    have hstep := cutKind_cutTo h hp (hdis k mem_cons_self)
    obtain ⟨ks',h1,h2⟩ := ih hstep hnd fun j hj hjk => by
      obtain rfl | hjks := mem_cons.mp hjk
      · exact hk hj
      · exact hdis j (mem_cons_of_mem _ hj) hjks
    refine ⟨ks',h1,fun j hj => h2 j ?_⟩
    obtain hjks | hj := hj
    · exact .inl (mem_cons_of_mem _ hjks)
    · obtain rfl | hj := mem_cons.mp hj
      · exact .inl mem_cons_self
      · exact .inr hj

/-- Putting back the lists `todo` leaves nothing changed. -/
theorem uncutKinds {save : Cut} (hhead : ∀ k, save.head k = p.head k)
    (hcount : ∀ k, save.count k = p.count k)
    (hlink : ∀ k, save.linkAt k ≠ exprNull → save.linkWas k = word p.pool 4 (save.linkAt k-poolHeaderSz))
    (todo : List Kind) {q : Problem} (hused : q.used = p.used) (hcap : q.capacity = p.capacity)
    (hroom : q.room = p.room)
    (hrest : ∀ k, k ∉ todo → q.head k = p.head k ∧ q.count k = p.count k)
    (hpool : ∀ off, q.pool off = p.pool off ∨ ∃ k ∈ todo, save.linkAt k ≠ exprNull ∧
      save.linkAt k-poolHeaderSz ≤ off ∧ off < save.linkAt k-poolHeaderSz+4) :
    todo.foldl (uncutKind save) q = p := by
  induction todo generalizing q with
  | nil =>
    obtain ⟨qh,qc,qu,qcap,qr,qp⟩ := q
    have h1 : qh = p.head := funext fun k => (hrest k not_mem_nil).1
    have h2 : qc = p.count := funext fun k => (hrest k not_mem_nil).2
    have h3 : qp = p.pool := funext fun off => (hpool off).resolve_right fun ⟨k,hk,_⟩ =>
      not_mem_nil hk
    subst h1 h2 h3
    obtain rfl : qu = p.used := hused
    obtain rfl : qcap = p.capacity := hcap
    obtain rfl : qr = p.room := hroom
    rfl
  | cons k todo ih =>
    refine ih hused hcap hroom (fun j hj => ?_) fun off => ?_
    · by_cases hjk : j = k
      · subst hjk
        exact ⟨(update_self _ _ _).trans (hhead j),(update_self _ _ _).trans (hcount j)⟩
      · have hrj := hrest j fun hmem => hj ((mem_cons.mp hmem).resolve_left hjk)
        exact ⟨(update_of_ne hjk _ _).trans hrj.1,(update_of_ne hjk _ _).trans hrj.2⟩
    · show (if save.linkAt k = exprNull then q.pool
        else put q.pool (save.linkAt k-poolHeaderSz) (le 4 (save.linkWas k))) off = _ ∨ _
      by_cases hnull : save.linkAt k = exprNull
      · rw [if_pos hnull]
        refine (hpool off).imp_right ?_
        rintro ⟨j,hj,hjn,hrange⟩
        obtain rfl | hj := mem_cons.mp hj
        · exact absurd hnull hjn
        · exact ⟨j,hj,hjn,hrange⟩
      · have hback : put p.pool (save.linkAt k-poolHeaderSz) (le 4 (save.linkWas k)) = p.pool := by
          rw [hlink k hnull,put_word]
        have hlen : (le 4 (save.linkWas k)).length = 4 := le_length 4 _
        rw [if_neg hnull]
        by_cases hin : save.linkAt k-poolHeaderSz ≤ off ∧ off < save.linkAt k-poolHeaderSz+4
        · refine .inl ?_
          have hat := congrFun hback off
          rw [put,if_pos (by omega)] at hat ⊢
          exact hat
        · rw [put_outside (by omega)]
          refine (hpool off).imp_right ?_
          rintro ⟨j,hj,hjn,hrange⟩
          obtain rfl | hj := mem_cons.mp hj
          · exact absurd hrange hin
          · exact ⟨j,hj,hjn,hrange⟩

/-- What is cut lists the newest items, and is put back as it was. -/
theorem cutSince_spec (hp : Listed p items) (hm : ∀ k, m k ≤ p.count k) (junk : Cut) :
    ∃ s, cutSince p m junk = some s ∧ Listed s.1 (cutLists items m Kind.all) ∧
      s.1.used = p.used ∧ uncut s.1 s.2 = p := by
  have hahead : ¬ ∃ k ∈ Kind.all, p.count k < m k := by
    rintro ⟨k,_,hk⟩
    exact absurd (hm k) (not_le.mpr hk)
  obtain ⟨ks,hcut,hks⟩ := cutKinds_cutTo hp (cutTo_nil (m := m) hp junk) Kind.all (by decide)
    fun k _ => not_mem_nil
  have hall : ∀ k, k ∈ ks := fun k => hks k (.inr (Kind.mem_all k))
  refine ⟨_,by rw [cutSince,if_neg hahead],?_,hcut.used,?_⟩
  · have hsame : cutLists items m ks = cutLists items m Kind.all := funext fun k =>
      if_congr (iff_of_true (hall k) (Kind.mem_all k)) rfl rfl
    rw [← hsame]
    exact hcut.listed
  · refine uncutKinds (fun k => (hcut.saved k (hall k)).1) (fun k => (hcut.saved k (hall k)).2)
      (fun k hn => (hcut.link k (hall k) hn).2) Kind.all hcut.used hcut.capacity hcut.room
      (fun k hk => absurd (Kind.mem_all k) hk) fun off => (hcut.pool off).imp_right ?_
    rintro ⟨k,_,h⟩
    exact ⟨k,Kind.mem_all k,h⟩

structure Same (p f : Problem) : Prop where
  head : f.head = p.head
  count : f.count = p.count
  used : f.used = p.used
  pool : ∀ off, off < p.used → f.pool off = p.pool off

theorem cutList_same (hp : Listed p items) (hf : Listed f items) (h : Same p f) (save : Cut)
    (k : Kind) : ∃ f', cutList f k (f.count k-m k) = some f' ∧ Same (cutKind m (p,save) k).1 f' ∧
      Listed f' (cutItems items m k) ∧ Listed (cutKind m (p,save) k).1 (cutItems items m k) := by
  have hpc := hp.count k
  have hfc := hf.count k
  unfold cutList cutKind
  rw [if_neg (by omega)]
  by_cases h0 : (items k).length-m k = 0
  · simp only [hpc,hfc,if_pos h0]
    refine ⟨_,rfl,⟨?_,?_,h.used,h.pool⟩,emptied_listed hf h0,emptied_listed hp h0⟩
    · exact congrArg (Function.update · k exprNull) h.head
    · exact congrArg (Function.update · k 0) h.count
  · simp only [hpc,hfc,if_neg h0]
    obtain ⟨l1,a,rest,hsplit,hlen,htake⟩ := split_last (items k) h0 (Nat.sub_le _ _)
    have hpch := hp.chain k
    have hfch := hf.chain k
    have hnull : ∀ x ∈ l1 ++ [a], x ≠ exprNull := fun x hx => hp.ne_null (k := k) (by
      rw [← htake] at hx
      exact List.mem_of_mem_take hx)
    rw [hsplit] at hpch hfch
    have hpa : follow p.pool ((items k).length-m k-1) (p.head k) = a := by
      rw [← hlen]
      exact hpch.follow
    have hfa : followKept f.pool ((items k).length-m k-1) (f.head k) = some a := by
      rw [← hlen]
      exact hfch.followKept hnull
    rw [hpa,hfa]
    refine ⟨_,rfl,⟨h.head,?_,h.used,fun off hoff => ?_⟩,ended_listed hf hsplit htake,
      ended_listed hp hsplit htake⟩
    · exact congrArg (Function.update · k ((items k).length-m k)) h.count
    · exact put_congr (h.pool off hoff)

theorem cutLists_same (hp : Listed p items) (hf : Listed f items) (h : Same p f) (save : Cut)
    (ks : List Kind) : ∃ f', ks.foldlM (fun f k => cutList f k (f.count k-m k)) f = some f' ∧
      Same (ks.foldl (cutKind m) (p,save)).1 f' := by
  induction ks generalizing p f items save with
  | nil => exact ⟨f,rfl,h⟩
  | cons k ks ih =>
    obtain ⟨f1,hf1,hsame,hl1,hl2⟩ := cutList_same hp hf h save k
    obtain ⟨f2,hf2,hsame2⟩ := ih hl2 hl1 hsame (cutKind m (p,save) k).2
    refine ⟨f2,?_,hsame2⟩
    rw [List.foldlM_cons,hf1]
    exact hf2

end Build
end DvSolve
