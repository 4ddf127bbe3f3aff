import Mathlib.Tactic

/-! Byte stores: ranges written and copied, numbers stored lowest byte first. -/
namespace DvSolve
namespace ByteStore

abbrev Byte := BitVec 8

abbrev Store := ℕ → Byte

def put (m : Store) (a : ℕ) (l : List Byte) : Store := fun i =>
  if a ≤ i ∧ i < a+l.length then l.getD (i-a) 0 else m i

/-- Addresses `[lo,hi)` from the store `src`. -/
def copy (m src : Store) (lo hi : ℕ) : Store := fun i => if lo ≤ i ∧ i < hi then src i else m i

def le : ℕ → ℕ → List Byte
  | 0, _ => []
  | n+1, v => BitVec.ofNat 8 v :: le n (v/256)

/-- The number in the `n` bytes from `a` on. -/
def word (m : Store) : ℕ → ℕ → ℕ
  | 0, _ => 0
  | n+1, a => (m a).toNat+256*word m n (a+1)

variable {m m' : Store} {a b n : ℕ} {l : List Byte}

theorem put_inside {i : ℕ} (h : i < l.length) : put m a l (a+i) = l.getD i 0 := by
  rw [put,if_pos ⟨Nat.le_add_right a i,by omega⟩,Nat.add_sub_cancel_left]

theorem put_outside {i : ℕ} (h : i < a ∨ a+l.length ≤ i) : put m a l i = m i :=
  if_neg (by omega)

theorem put_zeros (m : Store) {a n i : ℕ} (h1 : a ≤ i) (h2 : i < a+n) :
    put m a (List.replicate n 0) i = 0 := by
  rw [put,if_pos ⟨h1,by rw [List.length_replicate]; exact h2⟩]
  rw [List.getD_eq_getElem?_getD,List.getElem?_replicate,if_pos (by omega)]
  rfl

theorem put_congr {i : ℕ} (h : m i = m' i) : put m a l i = put m' a l i := by
  unfold put
  rw [h]

theorem le_length (n v : ℕ) : (le n v).length = n := by
  induction n generalizing v with
  | zero => rfl
  | succ n ih => rw [le,List.length_cons,ih]

theorem word_congr (h : ∀ i, a ≤ i → i < a+n → m i = m' i) : word m n a = word m' n a := by
  induction n generalizing a with
  | zero => rfl
  | succ n ih =>
    rw [word,word,h a le_rfl (by omega),ih fun i h1 h2 => h i (by omega) (by omega)]

theorem word_put_outside (h : a+n ≤ b ∨ b+l.length ≤ a) : word (put m b l) n a = word m n a :=
  word_congr fun i h1 h2 => put_outside (by omega)

theorem word_put (v : ℕ) (l : List Byte) : word (put m a (le n v ++ l)) n a = v % 256^n := by
  induction n generalizing a v m with
  | zero => rw [word,pow_zero,Nat.mod_one]
  | succ n ih =>
    have htail : word (put m a (le (n+1) v ++ l)) n (a+1) =
        word (put m (a+1) (le n (v/256) ++ l)) n (a+1) := by
      refine word_congr fun i h1 h2 => ?_
      have hlen : (le n (v/256) ++ l).length = n+l.length := by
        rw [List.length_append,le_length]
      obtain ⟨j,rfl⟩ : ∃ j, i = a+1+j := ⟨i-(a+1),by omega⟩
      rw [put_inside (by omega),show a+1+j = a+(j+1) by omega,le,List.cons_append,
        put_inside (by rw [List.length_cons]; omega),List.getD_cons_succ]
    have hhead : put m a (le (n+1) v ++ l) a = BitVec.ofNat 8 v := by
      have h := put_inside (m := m) (a := a) (l := le (n+1) v ++ l) (i := 0)
        (by rw [le,List.cons_append,List.length_cons]; omega)
      exact h
    have hpow : 256^(n+1) = 256*256^n := pow_succ' 256 n
    rw [word,htail,ih,hhead,BitVec.toNat_ofNat,hpow]
    exact (Nat.mod_mul (x := v) (a := 256) (b := 256^n)).symm

theorem put_cons_self (m : Store) (a : ℕ) (l : List Byte) : put m a (m a :: l) = put m (a+1) l := by
  funext i
  by_cases hi : i = a
  · subst hi
    rw [put_outside (a := i+1) (by omega)]
    exact put_inside (m := m) (a := i) (l := m i :: l) (i := 0) (Nat.zero_lt_succ _)
  · by_cases hin : a+1 ≤ i ∧ i < a+1+l.length
    · obtain ⟨j,rfl⟩ : ∃ j, i = a+1+j := ⟨i-(a+1),by omega⟩
      rw [put_inside (by omega),show a+1+j = a+(j+1) by omega,
        put_inside (by rw [List.length_cons]; omega),List.getD_cons_succ]
    · have hlen : (m a :: l).length = l.length+1 := rfl
      rw [put_outside (by omega),put_outside (by omega)]

theorem put_word (m : Store) (n a : ℕ) : put m a (le n (word m n a)) = m := by
  induction n generalizing a with
  | zero =>
    funext i
    exact put_outside (by rw [le_length]; omega)
  | succ n ih =>
    have hlow : BitVec.ofNat 8 (word m (n+1) a) = m a := by
      refine BitVec.eq_of_toNat_eq ?_
      rw [BitVec.toNat_ofNat,word]
      omega
    have hhigh : word m (n+1) a/256 = word m n (a+1) := by
      rw [word]
      omega
    rw [le,hlow,hhigh,put_cons_self,ih]

end ByteStore
end DvSolve
