import DvSolve.Loop

/-! Open-addressing hash tables that only grow.
Entries stand in the order of their insertion; a slot holds the index of an entry
plus one, or `0` when it is empty. At most half of the slots are taken, so every
probe ends. -/
namespace DvSolve

variable {slots : List ℕ}

structure OpenTable (κ π : Type) where
  entries : List (κ × π)
  slots : List ℕ

namespace OpenTable

variable {κ π : Type}

def empty : OpenTable κ π := ⟨[],[]⟩

def probe (slots : List ℕ) (stop : ℕ → Bool) (i : ℕ) : Option ℕ :=
  Loop.loop (fun i => if stop (slots.getD i 0) then .exit i else .again ((i+1) % slots.length))
    slots.length i

def distance (n e i : ℕ) : ℕ := if i ≤ e then e - i else e + n - i

theorem probe_isSome (stop : ℕ → Bool) {e i : ℕ} (he : e < slots.length)
    (hstop : stop (slots.getD e 0) = true) (hi : i < slots.length) :
    ∃ j, probe slots stop i = some j ∧ j < slots.length ∧ stop (slots.getD j 0) = true := by
  have hround : ∀ i, i < slots.length → (if stop (slots.getD i 0) then Loop.Step.exit i
        else .again ((i+1) % slots.length)).Good (fun i => i < slots.length)
        (fun j => j < slots.length ∧ stop (slots.getD j 0) = true) (distance slots.length e) i := by
    intro i hi
    by_cases h : stop (slots.getD i 0) = true
    · rw [if_pos h]
      exact ⟨hi,h⟩
    · have hne : i ≠ e := fun hie => h (hie ▸ hstop)
      rw [if_neg h]
      refine ⟨Nat.mod_lt _ (by omega),?_⟩
      rcases Nat.lt_or_ge (i+1) slots.length with hlt | hge
      · rw [Nat.mod_eq_of_lt hlt]
        unfold distance
        split_ifs <;> omega
      · obtain hwrap : i+1 = slots.length := by omega
        rw [hwrap,Nat.mod_self]
        unfold distance
        split_ifs <;> omega
  refine Loop.loop_spec (distance slots.length e) hround _ i hi ?_
  unfold distance
  split_ifs <;> omega

theorem stop_of_probe {stop : ℕ → Bool} {i j : ℕ} (h : probe slots stop i = some j) :
    stop (slots.getD j 0) = true := by
  have hexit : ∀ i j, (if stop (slots.getD i 0) then Loop.Step.exit i
      else .again ((i+1) % slots.length)) = .exit j → stop (slots.getD j 0) = true := by
    intro i j hij
    by_cases hs : stop (slots.getD i 0) = true
    · rw [if_pos hs] at hij
      obtain rfl : i = j := by simpa using hij
      exact hs
    · rw [if_neg hs] at hij
      cases hij
  exact Loop.loop_exit_of hexit h

def ends [DecidableEq κ] (T : OpenTable κ π) (k : κ) (s : ℕ) : Bool :=
  s = 0 || (T.entries[s-1]?.map Prod.fst == some k)

def index [DecidableEq κ] (hash : κ → ℕ) (T : OpenTable κ π) (k : κ) : Option ℕ :=
  if T.slots.length = 0 then none
  else
    match probe T.slots (T.ends k) (hash k % T.slots.length) with
    | none => none
    | some i => if T.slots.getD i 0 = 0 then none else some (T.slots.getD i 0 - 1)

def find [DecidableEq κ] (hash : κ → ℕ) (T : OpenTable κ π) (k : κ) : Option π :=
  match T.index hash k with
  | none => none
  | some i => T.entries[i]?.map Prod.snd

/-- Put entry index `e` into the first empty slot from the one of `k` on. -/
def place (hash : κ → ℕ) (slots : List ℕ) (k : κ) (e : ℕ) : List ℕ :=
  match probe slots (· = 0) (hash k % slots.length) with
  | none => slots
  | some i => slots.set i (e+1)

/-- The slots of `entries`, the first of which has index `e`, placed in turn. -/
def rehash (hash : κ → ℕ) : List (κ × π) → ℕ → List ℕ → List ℕ
  | [], _, slots => slots
  | (k,_) :: es, e, slots => rehash hash es (e+1) (place hash slots k e)

/-- Append an entry, doubling the slots when more than half would be taken. -/
def add (hash : κ → ℕ) (T : OpenTable κ π) (k : κ) (p : π) : OpenTable κ π :=
  let n := T.entries.length
  let cap := if T.slots.length = 0 then 256 else 2 * T.slots.length
  let slots :=
    if 2 * (n+1) > T.slots.length then rehash hash T.entries 0 (List.replicate cap 0)
    else T.slots
  ⟨T.entries ++ [(k,p)],place hash slots k n⟩

/-- Change the payload of `k`, after adding `k` with payload `d` if it is new. -/
def upsert [DecidableEq κ] (hash : κ → ℕ) (T : OpenTable κ π) (k : κ) (d : π) (f : π → π) :
    OpenTable κ π :=
  match T.index hash k with
  | none => T.add hash k (f d)
  | some i => ⟨T.entries.modify i fun e => (e.1,f e.2),T.slots⟩

theorem key_of_index [DecidableEq κ] {hash : κ → ℕ} {T : OpenTable κ π} {k : κ} {i : ℕ}
    (h : T.index hash k = some i) : T.entries[i]?.map Prod.fst = some k := by
  unfold index at h
  split_ifs at h with h0
  cases hp : probe T.slots (T.ends k) (hash k % T.slots.length) with
  | none => simp [hp] at h
  | some j =>
    simp only [hp] at h
    split_ifs at h with hs
    obtain rfl : T.slots.getD j 0 - 1 = i := by simpa using h
    -- the probe left its loop at `j`, which is not empty
    have hend : T.ends k (T.slots.getD j 0) = true := stop_of_probe hp
    rw [ends,decide_eq_false hs,Bool.false_or] at hend
    exact eq_of_beq hend

theorem mem_of_find [DecidableEq κ] {hash : κ → ℕ} {T : OpenTable κ π} {k : κ} {p : π}
    (h : T.find hash k = some p) : (k,p) ∈ T.entries := by
  unfold find at h
  cases hi : T.index hash k with
  | none => simp [hi] at h
  | some i =>
    rw [hi] at h
    obtain ⟨e,he,rfl⟩ := Option.map_eq_some_iff.mp h
    have hk := key_of_index hi
    rw [he] at hk
    obtain rfl : e.1 = k := by simpa using hk
    exact List.mem_of_getElem? he

theorem mem_upsert [DecidableEq κ] {hash : κ → ℕ} {T : OpenTable κ π} {k : κ} {d : π}
    {f : π → π} {e : κ × π} (h : e ∈ (T.upsert hash k d f).entries) :
    e ∈ T.entries ∨ e = (k,f d) ∨ ∃ p, (k,p) ∈ T.entries ∧ e = (k,f p) := by
  unfold upsert at h
  cases hi : T.index hash k with
  | none =>
    rw [hi] at h
    simp only [add,List.mem_append,List.mem_singleton] at h
    exact h.imp_right .inl
  | some i =>
    rw [hi] at h
    obtain ⟨j,hj,rfl⟩ := List.getElem_of_mem h
    have hk := key_of_index hi
    simp only [List.getElem_modify]
    split_ifs with hij
    · subst hij
      have hlt : i < T.entries.length := by simpa using hj
      rw [List.getElem?_eq_getElem hlt] at hk
      obtain hkey : T.entries[i].1 = k := by simpa using hk
      refine .inr (.inr ⟨T.entries[i].2,?_,by rw [hkey]⟩)
      rw [← hkey]
      exact List.getElem_mem hlt
    · exact .inl (List.getElem_mem _)

@[simp] theorem mem_add {hash : κ → ℕ} {T : OpenTable κ π} {k : κ} {p : π} {e : κ × π} :
    e ∈ (T.add hash k p).entries ↔ e ∈ T.entries ∨ e = (k,p) := by
  simp [add]

def taken (slots : List ℕ) : ℕ := slots.countP (· ≠ 0)

theorem taken_replicate (n : ℕ) : taken (List.replicate n 0) = 0 := by
  rw [taken,List.countP_eq_zero]
  intro s hs
  simp [List.eq_of_mem_replicate hs]

theorem exists_empty (h : taken slots < slots.length) :
    ∃ e < slots.length, slots.getD e 0 = 0 := by
  by_contra hnone
  push Not at hnone
  refine absurd (List.countP_eq_length.mpr fun s hs => ?_) h.ne
  obtain ⟨i,hi,rfl⟩ := List.getElem_of_mem hs
  simpa [List.getD_eq_getElem?_getD,hi] using hnone i hi

theorem place_spec (hash : κ → ℕ) (k : κ) (e : ℕ) (h : taken slots < slots.length) :
    (place hash slots k e).length = slots.length ∧ taken (place hash slots k e) = taken slots + 1 := by
  obtain ⟨z,hz,hz0⟩ := exists_empty h
  have hi : hash k % slots.length < slots.length := Nat.mod_lt _ (by omega)
  obtain ⟨j,hj,hjlt,hj0⟩ := probe_isSome (· = 0) hz (decide_eq_true hz0) hi
  have hj0' : slots[j] = 0 := by
    simpa [List.getD_eq_getElem?_getD,hjlt] using hj0
  simp [place,hj,taken,List.countP_set hjlt,hj0']

theorem rehash_spec (hash : κ → ℕ) (es : List (κ × π)) (e : ℕ) (slots : List ℕ)
    (h : taken slots + es.length < slots.length) :
    (rehash hash es e slots).length = slots.length ∧
      taken (rehash hash es e slots) = taken slots + es.length := by
  induction es generalizing e slots with
  | nil => simp [rehash]
  | cons kp es ih =>
    obtain ⟨k,p⟩ := kp
    rw [List.length_cons] at h
    have hlt : taken slots < slots.length := by omega
    obtain ⟨hlen,htaken⟩ := place_spec hash k e hlt
    obtain ⟨hlen',htaken'⟩ := ih (e+1) (place hash slots k e) (by omega)
    rw [rehash,List.length_cons]
    omega

structure Roomy (T : OpenTable κ π) : Prop where
  taken_eq : taken T.slots = T.entries.length
  half : 2 * T.entries.length ≤ T.slots.length

theorem empty_roomy : (empty : OpenTable κ π).Roomy := ⟨rfl,le_rfl⟩

theorem Roomy.add {hash : κ → ℕ} {T : OpenTable κ π} (h : T.Roomy) (k : κ) (p : π) :
    (T.add hash k p).Roomy := by
  obtain ⟨htaken,hhalf⟩ := h
  -- the slots the new entry is placed in
  have hplace : ∀ slots : List ℕ, taken slots = T.entries.length →
      2 * (T.entries.length+1) ≤ slots.length →
      (⟨T.entries ++ [(k,p)],place hash slots k T.entries.length⟩ : OpenTable κ π).Roomy := by
    intro slots ht hl
    have hlt : taken slots < slots.length := by omega
    obtain ⟨hlen,hcount⟩ := place_spec hash k T.entries.length hlt
    exact ⟨by simp [hcount,ht],by simp [hlen]; omega⟩
  unfold OpenTable.add
  by_cases hfull : 2 * (T.entries.length+1) > T.slots.length
  · simp only [if_pos hfull]
    by_cases h0 : T.slots.length = 0
    · have hz := taken_replicate 256
      obtain ⟨hl,ht⟩ := rehash_spec hash T.entries 0 (List.replicate 256 0)
        (by simp only [hz,List.length_replicate]; omega)
      rw [List.length_replicate] at hl
      simp only [if_pos h0]
      exact hplace _ (by omega) (by omega)
    · have hz := taken_replicate (2 * T.slots.length)
      obtain ⟨hl,ht⟩ := rehash_spec hash T.entries 0
        (List.replicate (2 * T.slots.length) 0)
        (by simp only [hz,List.length_replicate]; omega)
      rw [List.length_replicate] at hl
      simp only [if_neg h0]
      exact hplace _ (by omega) (by omega)
  · simp only [if_neg hfull]
    exact hplace _ htaken (by omega)

theorem Roomy.upsert [DecidableEq κ] {hash : κ → ℕ} {T : OpenTable κ π} (h : T.Roomy) (k : κ)
    (d : π) (f : π → π) : (T.upsert hash k d f).Roomy := by
  unfold OpenTable.upsert
  cases T.index hash k with
  | none => exact h.add k (f d)
  | some i => exact ⟨by simpa using h.taken_eq,by simpa using h.half⟩

end OpenTable
end DvSolve
