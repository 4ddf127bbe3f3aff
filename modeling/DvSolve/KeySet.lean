import DvSolve.OpenTable

/-! Open-addressed sets of numbers that only grow.
A slot holds a key plus one, or `0` when it is empty; at most half of the slots are taken,
and no search for a key passes an empty slot. -/
namespace DvSolve
namespace KeySet

open OpenTable

variable {hash : ℕ → ℕ}

/-- Whether slot content `s` ends the search for `k`: empty, or `k` itself. -/
def meets (k s : ℕ) : Bool := s = 0 || s = k+1

def has (hash : ℕ → ℕ) (slots : List ℕ) (k : ℕ) : Bool :=
  match probe slots (meets k) (hash k % slots.length) with
  | none => false
  | some i => slots.getD i 0 ≠ 0

def move (hash : ℕ → ℕ) (slots : List ℕ) (e : ℕ) : List ℕ :=
  if e = 0 then slots else place hash slots (e-1) (e-1)

def grow (hash : ℕ → ℕ) (slots : List ℕ) (cap : ℕ) : List ℕ :=
  slots.foldl (move hash) (List.replicate cap 0)

def room (hash : ℕ → ℕ) (slots : List ℕ) (n : ℕ) : List ℕ :=
  if 2 * (n+1) > slots.length then
    grow hash slots (if slots.length = 0 then 256 else 2 * slots.length)
  else slots

/-- No slot from `i` to `p` is empty, `p` left out. -/
def Run (slots : List ℕ) (i p : ℕ) : Prop :=
  ∃ m, (i+m) % slots.length = p ∧ ∀ l < m, slots.getD ((i+l) % slots.length) 0 ≠ 0

theorem probe_path {slots : List ℕ} {stop : ℕ → Bool} {i j : ℕ} (hi : i < slots.length)
    (h : probe slots stop i = some j) : ∃ m, (i+m) % slots.length = j ∧
      ∀ l < m, stop (slots.getD ((i+l) % slots.length) 0) = false := by
  have hgen : ∀ (f i : ℕ), i < slots.length → Loop.loop (fun i => if stop (slots.getD i 0) then .exit i
        else .again ((i+1) % slots.length)) f i = some j →
      ∃ m, (i+m) % slots.length = j ∧ ∀ l < m, stop (slots.getD ((i+l) % slots.length) 0) = false := by
    intro f
    induction f with
    | zero =>
      intro i _ h
      simp [Loop.loop] at h
    | succ f ih =>
      intro i hi h
      rw [Loop.loop] at h
      by_cases hs : stop (slots.getD i 0) = true
      · rw [if_pos hs] at h
        obtain rfl : i = j := by simpa using h
        exact ⟨0,by simp [Nat.mod_eq_of_lt hi],fun l hl => absurd hl (by omega)⟩
      · rw [if_neg hs] at h
        obtain ⟨m,hm,hpath⟩ := ih _ (Nat.mod_lt _ (by omega)) h
        refine ⟨m+1,?_,fun l hl => ?_⟩
        · rw [← hm,Nat.mod_add_mod]
          congr 1
          omega
        · cases l with
          | zero => simpa [Nat.mod_eq_of_lt hi] using hs
          | succ l =>
            have hl' := hpath l (by omega)
            rw [Nat.mod_add_mod] at hl'
            rw [← hl']
            congr 3
            omega
  exact hgen _ i hi h

/-- The search for a key that is there does not pass an empty slot. -/
def Linked (hash : ℕ → ℕ) (slots : List ℕ) : Prop :=
  ∀ p, slots.getD p 0 ≠ 0 → Run slots (hash (slots.getD p 0 - 1) % slots.length) p

theorem lt_of_getD_ne {slots : List ℕ} {p : ℕ} (h : slots.getD p 0 ≠ 0) : p < slots.length := by
  by_contra hp
  refine h ?_
  rw [List.getD_eq_getElem?_getD,List.getElem?_eq_none (by omega),Option.getD_none]

theorem getD_eq {slots : List ℕ} {p : ℕ} (h : p < slots.length) :
    slots.getD p 0 = slots[p] := by
  rw [List.getD_eq_getElem?_getD,List.getElem?_eq_getElem h,Option.getD_some]

theorem mem_of_getD {slots : List ℕ} {p k : ℕ} (h : slots.getD p 0 = k+1) : k+1 ∈ slots := by
  have hne : slots.getD p 0 ≠ 0 := by omega
  have hp := lt_of_getD_ne hne
  rw [← h,getD_eq hp]
  exact List.getElem_mem hp

theorem getD_of_mem {slots : List ℕ} {k : ℕ} (h : k+1 ∈ slots) :
    ∃ p < slots.length, slots.getD p 0 = k+1 := by
  obtain ⟨p,hp,hk⟩ := List.getElem_of_mem h
  exact ⟨p,hp,by rw [getD_eq hp,hk]⟩

theorem has_iff {slots : List ℕ} (h : Linked hash slots) (k : ℕ) :
    has hash slots k = true ↔ k+1 ∈ slots := by
  constructor
  · intro hh
    unfold has at hh
    cases hp : probe slots (meets k) (hash k % slots.length) with
    | none => simp [hp] at hh
    | some j =>
      rw [hp] at hh
      have hne : slots.getD j 0 ≠ 0 := by simpa using hh
      have hstop := stop_of_probe hp
      simp only [meets,Bool.or_eq_true,decide_eq_true_eq] at hstop
      exact mem_of_getD (hstop.resolve_left hne)
  · intro hk
    obtain ⟨p,hp,hpk⟩ := getD_of_mem hk
    have hi : hash k % slots.length < slots.length := Nat.mod_lt _ (by omega)
    obtain ⟨j,hj,_,_⟩ := probe_isSome (meets k) hp (by rw [hpk,meets]; simp) hi
    obtain ⟨m,hm,hpath⟩ := probe_path hi hj
    obtain ⟨m',hm',hrun⟩ := h p (by omega)
    rw [hpk,Nat.add_sub_cancel] at hm' hrun
    -- the search ends at `k`, or before it at a slot that is taken
    have hle : m ≤ m' := by
      by_contra hlt
      have hbad := hpath m' (by omega)
      rw [hm',hpk] at hbad
      simp [meets] at hbad
    have hne : slots.getD j 0 ≠ 0 := by
      rcases Nat.lt_or_eq_of_le hle with hlt | heq
      · rw [← hm]
        exact hrun m hlt
      · rw [← hm,heq,hm',hpk]
        omega
    simp only [has,hj]
    exact decide_eq_true hne

theorem place_eq {slots : List ℕ} (k e : ℕ) (h : taken slots < slots.length) :
    ∃ j < slots.length, slots.getD j 0 = 0 ∧ Run slots (hash k % slots.length) j ∧
      place hash slots k e = slots.set j (e+1) := by
  obtain ⟨z,hz,hz0⟩ := exists_empty h
  have hi : hash k % slots.length < slots.length := Nat.mod_lt _ (by omega)
  obtain ⟨j,hj,hjlt,hj0⟩ := probe_isSome (· = 0) hz (decide_eq_true hz0) hi
  obtain ⟨m,hm,hpath⟩ := probe_path hi hj
  exact ⟨j,hjlt,by simpa using hj0,⟨m,hm,fun l hl => by simpa using hpath l hl⟩, by simp [place,hj]⟩

structure Holds (hash : ℕ → ℕ) (slots : List ℕ) (n : ℕ) : Prop where
  linked : Linked hash slots
  taken_eq : taken slots = n

theorem Holds.place {slots : List ℕ} {n : ℕ} (h : Holds hash slots n) (k : ℕ)
    (hn : n < slots.length) :
    Holds hash (place hash slots k k) (n+1) ∧ (place hash slots k k).length = slots.length ∧
      ∀ x, x+1 ∈ place hash slots k k ↔ x+1 ∈ slots ∨ x = k := by
  have hlt : taken slots < slots.length := by rw [h.taken_eq]; exact hn
  have hcount := (place_spec hash k k hlt).2
  obtain ⟨j,hj,hj0,hrun,hset⟩ := @place_eq hash _ k k hlt
  rw [h.taken_eq] at hcount
  rw [hset] at hcount ⊢
  have hget : ∀ p, (slots.set j (k+1)).getD p 0 = if p = j then k+1 else slots.getD p 0 := by
    intro p
    by_cases hp : p = j
    · subst hp
      simp [List.getD_eq_getElem?_getD,hj]
    · simp [List.getD_eq_getElem?_getD,Ne.symm hp,hp]
  -- a run of taken slots stays one
  have hkeep : ∀ i p, Run slots i p → Run (slots.set j (k+1)) i p := by
    rintro i p ⟨m,hm,hpath⟩
    refine ⟨m,by rwa [List.length_set],fun l hl => ?_⟩
    rw [List.length_set,hget]
    split_ifs
    · omega
    · exact hpath l hl
  refine ⟨⟨fun p hp => ?_,hcount⟩,List.length_set,fun x => ?_⟩
  · rw [hget] at hp ⊢
    rw [List.length_set]
    split_ifs at hp ⊢ with hpj
    · subst hpj
      exact hkeep _ _ hrun
    · exact hkeep _ _ (h.linked p hp)
  · constructor
    · intro hx
      obtain ⟨p,hp,hpx⟩ := getD_of_mem hx
      rw [hget] at hpx
      split_ifs at hpx with hpj
      · exact .inr (by omega)
      · exact .inl (mem_of_getD hpx)
    · rintro (hx | rfl)
      · obtain ⟨p,hp,hpx⟩ := getD_of_mem hx
        have hpj : p ≠ j := by
          rintro rfl
          omega
        refine mem_of_getD (p := p) ?_
        rw [hget,if_neg hpj,hpx]
      · refine mem_of_getD (p := j) ?_
        rw [hget,if_pos rfl]

theorem holds_replicate (hash : ℕ → ℕ) (cap : ℕ) : Holds hash (List.replicate cap 0) 0 := by
  refine ⟨fun p hp => absurd ?_ hp,taken_replicate cap⟩
  simp [List.getD_eq_getElem?_getD,List.getElem?_replicate]
  split_ifs <;> rfl

theorem Holds.moves (es : List ℕ) {slots : List ℕ} {n : ℕ} (h : Holds hash slots n)
    (hn : n + taken es < slots.length) :
    Holds hash (es.foldl (move hash) slots) (n + taken es) ∧
      (es.foldl (move hash) slots).length = slots.length ∧
      ∀ x, x+1 ∈ es.foldl (move hash) slots ↔ x+1 ∈ slots ∨ x+1 ∈ es := by
  induction es generalizing slots n with
  | nil => exact ⟨by simpa [taken] using h,rfl,fun x => by simp⟩
  | cons e es ih =>
    rw [List.foldl_cons]
    by_cases he : e = 0
    · have ht : taken (e :: es) = taken es := by simp [taken,he]
      rw [ht] at hn ⊢
      rw [move,if_pos he]
      obtain ⟨h1,h2,h3⟩ := ih h hn
      refine ⟨h1,h2,fun x => ?_⟩
      rw [h3,he]
      simp
    · have ht : taken (e :: es) = taken es + 1 := by simp [taken,he]
      rw [ht] at hn ⊢
      rw [move,if_neg he]
      obtain ⟨h1,h2,h3⟩ := h.place (e-1) (by omega)
      obtain ⟨h4,h5,h6⟩ := ih h1 (by rw [h2]; omega)
      refine ⟨by rw [show n+(taken es+1) = n+1+taken es by omega]; exact h4,by rw [h5,h2],fun x => ?_⟩
      rw [h6,h3,List.mem_cons]
      have hx : x = e-1 ↔ x+1 = e := by omega
      rw [hx]
      tauto

structure Roomy (hash : ℕ → ℕ) (slots : List ℕ) (n : ℕ) : Prop extends Holds hash slots n where
  half : 2*n ≤ slots.length

theorem roomy_nil (hash : ℕ → ℕ) : Roomy hash [] 0 :=
  ⟨⟨fun p hp => absurd (by simp) hp,rfl⟩,by simp⟩

theorem Roomy.room {slots : List ℕ} {n : ℕ} (h : Roomy hash slots n) :
    Holds hash (room hash slots n) n ∧ 2*(n+1) ≤ (room hash slots n).length ∧
      ∀ x, x+1 ∈ room hash slots n ↔ x+1 ∈ slots := by
  unfold KeySet.room
  split_ifs with hfull h0
  · obtain ⟨h1,h2,h3⟩ := (holds_replicate hash 256).moves slots
      (by rw [List.length_replicate,h.taken_eq]; have := h.half; omega)
    rw [Nat.zero_add,h.taken_eq] at h1
    rw [List.length_replicate] at h2
    have hn := h.half
    refine ⟨h1,by rw [grow,h2]; omega,fun x => ?_⟩
    rw [grow,h3,List.mem_replicate]
    simp only [Nat.add_one_ne_zero,and_false,false_or]
  · have hn := h.half
    obtain ⟨h1,h2,h3⟩ := (holds_replicate hash (2*slots.length)).moves slots
      (by rw [List.length_replicate,h.taken_eq]; omega)
    rw [Nat.zero_add,h.taken_eq] at h1
    rw [List.length_replicate] at h2
    refine ⟨h1,by rw [grow,h2]; omega,fun x => ?_⟩
    rw [grow,h3,List.mem_replicate]
    simp only [Nat.add_one_ne_zero,and_false,false_or]
  · exact ⟨h.toHolds,by omega,fun x => Iff.rfl⟩

end KeySet
end DvSolve
