import Mathlib.Tactic

/-! Singly linked lists in a store.
Nodes are addresses and the store gives each its successor. A path is what a chain of
links looks like from outside; a walk follows the links and may change the store
behind it. -/
namespace DvSolve
namespace Linked

variable {next : ℕ → Option ℕ} {h : Option ℕ} {l : List ℕ}

def Path (next : ℕ → Option ℕ) (stop : Option ℕ) : Option ℕ → List ℕ → Prop
  | h, [] => h = stop
  | h, a :: l => h = some a ∧ Path next stop (next a) l

theorem Path.congr {next' : ℕ → Option ℕ} {stop : Option ℕ} (hp : Path next stop h l)
    (heq : ∀ a ∈ l, next' a = next a) : Path next' stop h l := by
  induction l generalizing h with
  | nil => exact hp
  | cons a l ih =>
    refine ⟨hp.1,?_⟩
    rw [heq a (by simp)]
    exact ih hp.2 fun b hb => heq b (by simp [hb])

theorem Path.append {stop mid : Option ℕ} {l' : List ℕ} (hp : Path next mid h l)
    (hp' : Path next stop mid l') : Path next stop h (l ++ l') := by
  induction l generalizing h with
  | nil =>
    obtain rfl : h = mid := hp
    exact hp'
  | cons a l ih => exact ⟨hp.1,ih hp.2⟩

theorem Path.snoc {last a : ℕ} (hp : Path next none h (l ++ [last])) (hnew : a ∉ l ++ [last])
    (hnd : (l ++ [last]).Nodup) :
    Path (Function.update (Function.update next a none) last (some a)) none h
      (l ++ [last] ++ [a]) := by
  induction l generalizing h with
  | nil =>
    obtain ⟨rfl,_⟩ : h = some last ∧ _ := hp
    have hne : a ≠ last := by simpa using hnew
    refine ⟨rfl,?_,?_⟩
    · simp
    · simp [Path,Function.update_of_ne hne]
  | cons b l ih =>
    obtain ⟨hb,htail⟩ := hp
    have hne : b ≠ last := fun h => by simp [h] at hnd
    have hnea : b ≠ a := fun h => by simp [h] at hnew
    refine ⟨hb,?_⟩
    rw [Function.update_of_ne hne,Function.update_of_ne hnea]
    exact ih htail (fun h => hnew (List.mem_cons_of_mem _ h)) (List.nodup_cons.mp hnd).2

/-- Follow the links until `done`, changing the state by `f` at each node; `none` when
a link is followed that is null or names no live node, or the bound is reached. -/
def walk {σ : Type} (done : Option ℕ → Bool) (live : σ → ℕ → Bool) (next : σ → ℕ → Option ℕ)
    (f : σ → ℕ → σ) : ℕ → Option ℕ → σ → Option σ
  | 0, _, _ => none
  | n+1, h, s =>
    if done h then some s
    else
      match h with
      | none => none
      | some a => if live s a then walk done live next f n (next s a) (f s a) else none

theorem walk_keeps {σ : Type} {done : Option ℕ → Bool} {live : σ → ℕ → Bool}
    {next : σ → ℕ → Option ℕ} {f : σ → ℕ → σ} {P : σ → Prop} (hf : ∀ s a, P s → P (f s a)) {n : ℕ}
    {s s' : σ} (hs : P s) (hw : walk done live next f n h s = some s') : P s' := by
  induction n generalizing h s with
  | zero => simp [walk] at hw
  | succ n ih =>
    unfold walk at hw
    split at hw
    · exact Option.some.inj hw ▸ hs
    · split at hw
      · simp at hw
      · split at hw
        · exact ih (hf _ _ hs) hw
        · simp at hw

theorem walk_eq {σ : Type} (done : Option ℕ → Bool) (live : σ → ℕ → Bool) (next : σ → ℕ → Option ℕ)
    (f : σ → ℕ → σ) (hlive : ∀ s a b, live (f s a) b = live s b)
    (hf : ∀ s a b, b ≠ a → next (f s a) b = next s b) (stop : Option ℕ) (hstop : done stop = true)
    (hdone : ∀ a ∈ l, done (some a) = false) (hnd : l.Nodup) {n : ℕ} (hn : l.length < n) {s : σ}
    (hl : ∀ a ∈ l, live s a = true) (hp : Path (next s) stop h l) :
    walk done live next f n h s = some (l.foldl f s) := by
  induction l generalizing n h s with
  | nil =>
    obtain ⟨n,rfl⟩ : ∃ n', n = n'+1 := ⟨n-1,by simp at hn; omega⟩
    obtain rfl : h = stop := hp
    simp [walk,hstop]
  | cons a l ih =>
    obtain ⟨n,rfl⟩ : ∃ n', n = n'+1 := ⟨n-1,by simp at hn; omega⟩
    obtain ⟨rfl,htail⟩ := hp
    obtain ⟨ha,hnd'⟩ := List.nodup_cons.mp hnd
    rw [walk,hdone a (by simp),if_neg (by simp),List.foldl_cons]
    rw [if_pos (hl a (by simp))]
    refine ih (fun b hb => hdone b (by simp [hb])) hnd' (by simpa using hn)
      (fun b hb => by rw [hlive]; exact hl b (by simp [hb])) ?_
    exact htail.congr fun b hb => hf s a b fun he => ha (he ▸ hb)

end Linked
end DvSolve
