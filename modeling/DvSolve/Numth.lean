import Mathlib.NumberTheory.ArithmeticFunction.Misc
import Mathlib.Data.List.Sort
import Mathlib.Tactic

/-! Divisors: `dvs_divisors` of `dvs_numth.c`, by trial division, Miller-Rabin and rho.
Rho may run forever, so the factorization has a bound on its rounds and is `none` when it
reaches it. Products of divisors of a number of 64 bits do not wrap. -/
namespace DvSolve
namespace Numth

open List (map_cons mem_cons pairwise_cons prod_cons)

variable {f divs : List ℕ}

def powmodLoop (m : ℕ) : ℕ → ℕ → ℕ → ℕ → ℕ
  | 0, r, _, _ => r
  | fuel+1, r, b, e =>
    if e = 0 then r
    else powmodLoop m fuel (if e % 2 = 1 then r*b % m else r) (b*b % m) (e/2)

def powmod (b e m : ℕ) : ℕ := powmodLoop m 64 (1 % m) (b % m) e

def oddPart : ℕ → ℕ → ℕ → ℕ × ℕ
  | 0, d, s => (d,s)
  | fuel+1, d, s => if d % 2 = 0 then oddPart fuel (d/2) (s+1) else (d,s)

def squaresTo (n : ℕ) : ℕ → ℕ → Bool
  | 0, _ => false
  | k+1, x => if x*x % n = n-1 then true else squaresTo n k (x*x % n)

def bases : List ℕ := [2,3,5,7,11,13,17,19,23,29,31,37]

def isPrime (n : ℕ) : Bool :=
  if n < 2 then false
  else
    match bases.find? (fun p => n % p = 0) with
    | some p => n = p
    | none =>
      let (d,s) := oddPart 64 (n-1) 0
      bases.all fun p =>
        let x := powmod p d n
        x = 1 || x = n-1 || squaresTo n (s-1) x

def rhoStep (y c n : ℕ) : ℕ :=
  let t := y*y % n
  if t ≥ n-c then t-(n-c) else t+c

def dist (x y : ℕ) : ℕ := if x > y then x-y else y-x

/-- `lim` steps, each multiplying its distance from `x` into `q`. -/
def rhoBatch (c n x : ℕ) : ℕ → ℕ → ℕ → ℕ × ℕ
  | 0, y, q => (y,q)
  | lim+1, y, q =>
    let y := rhoStep y c n
    rhoBatch c n x lim y (q * dist x y % n)

structure Rho where
  y : ℕ
  x : ℕ
  g : ℕ
  q : ℕ
  ys : ℕ
  r : ℕ

def rhoRound (c n : ℕ) : ℕ → ℕ → Rho → Rho
  | 0, _, s => s
  | fuel+1, k, s =>
    if k < s.r ∧ s.g = 1 then
      let (y,q) := rhoBatch c n s.x (if s.r-k < 128 then s.r-k else 128) s.y s.q
      rhoRound c n fuel (k+128) { s with ys := s.y, y := y, q := q, g := q.gcd n }
    else s

def rhoRounds (c n : ℕ) : ℕ → Rho → Option Rho
  | 0, _ => none
  | fuel+1, s =>
    if s.g = 1 then
      let s := { s with x := s.y, y := (rhoStep · c n)^[s.r] s.y }
      let s := rhoRound c n (s.r/128+1) 0 s
      rhoRounds c n fuel { s with r := 2*s.r }
    else some s

/-- The last batch again, one step at a time. -/
def rhoBack (c n x : ℕ) : ℕ → ℕ → Option ℕ
  | 0, _ => none
  | fuel+1, ys =>
    let ys := rhoStep ys c n
    let g := (dist x ys).gcd n
    if g = 1 then rhoBack c n x fuel ys else some g

def rhoTry (fuel c n : ℕ) : Option ℕ :=
  (rhoRounds c n fuel ⟨2,2,1,1,2,1⟩).bind fun s =>
    if s.g = n then rhoBack c n s.x fuel s.ys else some s.g

def rhoFrom (fuel n : ℕ) : ℕ → ℕ → Option ℕ
  | 0, _ => none
  | k+1, c => (rhoTry fuel c n).bind fun g => if g ≠ n then some g else rhoFrom fuel n k (c+1)

def rho (fuel n : ℕ) : Option ℕ := rhoFrom fuel n fuel 1

def factorLoop (bound : ℕ) : ℕ → List ℕ → List ℕ → Option (List ℕ)
  | 0, _, _ => none
  | _+1, [], f => some f
  | fuel+1, m :: todo, f =>
    if isPrime m then factorLoop bound fuel todo (f ++ [m])
    else (rho bound m).bind fun d => factorLoop bound fuel (m/d :: d :: todo) f

def trial (p : ℕ) : ℕ → ℕ × List ℕ → ℕ × List ℕ
  | 0, mf => mf
  | fuel+1, (m,f) => if m % p = 0 then trial p fuel (m/p,f ++ [p]) else (m,f)

def smallPrimes : List ℕ := [2,3,5,7,11,13,17,19,23,29,31,37,41,43,47]

def factors (bound n : ℕ) : Option (List ℕ) :=
  let (m,f) := smallPrimes.foldl (fun mf p => trial p 64 mf) (n,[])
  factorLoop bound bound (if m > 1 then [m] else []) f

/-- Runs of equal factors. -/
def powers : List ℕ → List (ℕ × ℕ)
  | [] => []
  | p :: f =>
    match powers f with
    | [] => [(p,1)]
    | (q,e) :: rest => if p = q then (q,e+1) :: rest else (p,1) :: (q,e) :: rest

/-- Each power of `p` times every divisor so far. -/
def expand (divs : List ℕ) (pe : ℕ × ℕ) : List ℕ :=
  divs ++ (List.range pe.2).flatMap fun k => divs.map (· * pe.1^(k+1))

structure Divisors where
  n : ℕ
  divs : List ℕ

def dvsDivisors (bound : ℕ) (d : Divisors) (n max : ℕ) : Option (Divisors × ℕ) :=
  if n = 0 then some (d,0)
  else if d.n = n ∧ d.divs.length ≠ 0 then some (d,d.divs.length)
  else
    (factors bound n).map fun f =>
      let ps := powers (f.insertionSort (· ≤ ·))
      if (ps.map fun pe => pe.2+1).prod > max then (⟨0,[]⟩,0)
      else
        let divs := (ps.foldl expand [1]).insertionSort (· ≤ ·)
        (⟨n,divs⟩,divs.length)

/-- The bisection of `dvs_divisors_lower` and `dvs_divisors_upper`. -/
def search (divs : List ℕ) (below : ℕ → Bool) : ℕ → ℕ → ℕ → ℕ
  | 0, lo, _ => lo
  | fuel+1, lo, hi =>
    if lo < hi then
      let mid := lo + (hi-lo)/2
      if below (divs.getD mid 0) then search divs below fuel (mid+1) hi
      else search divs below fuel lo mid
    else lo

def divisorsLower (d : Divisors) (x : ℕ) : ℕ :=
  search d.divs (· < x) d.divs.length 0 d.divs.length

def divisorsUpper (d : Divisors) (x : ℕ) : ℕ :=
  search d.divs (· ≤ x) d.divs.length 0 d.divs.length

variable {bound fuel c n m : ℕ}

theorem rhoRound_dvd (fuel k : ℕ) {s : Rho} (h : s.g ∣ n) : (rhoRound c n fuel k s).g ∣ n := by
  induction fuel generalizing k s with
  | zero => exact h
  | succ fuel ih =>
    rw [rhoRound]
    by_cases hk : k < s.r ∧ s.g = 1
    · rw [if_pos hk]
      exact ih _ (Nat.gcd_dvd_right _ _)
    · rw [if_neg hk]
      exact h

theorem rhoRounds_spec {s t : Rho} (hs : s.g ∣ n) (h : rhoRounds c n fuel s = some t) :
    t.g ∣ n ∧ t.g ≠ 1 := by
  induction fuel generalizing s with
  | zero => simp [rhoRounds] at h
  | succ fuel ih =>
    simp only [rhoRounds] at h
    split_ifs at h with hg
    · refine ih ?_ h
      exact rhoRound_dvd _ _ hs
    · obtain rfl : s = t := by simpa using h
      exact ⟨hs,hg⟩

theorem rhoBack_spec {x ys g : ℕ} (h : rhoBack c n x fuel ys = some g) : g ∣ n ∧ g ≠ 1 := by
  induction fuel generalizing ys with
  | zero => simp [rhoBack] at h
  | succ fuel ih =>
    simp only [rhoBack] at h
    split_ifs at h with hg
    · exact ih h
    · obtain rfl := by simpa using h
      exact ⟨Nat.gcd_dvd_right _ _,hg⟩

theorem rhoTry_spec {g : ℕ} (h : rhoTry fuel c n = some g) : g ∣ n ∧ g ≠ 1 := by
  obtain ⟨s,hs,hg⟩ := Option.bind_eq_some_iff.mp h
  obtain ⟨h1,h2⟩ := rhoRounds_spec (one_dvd n) hs
  split_ifs at hg with hn
  · exact rhoBack_spec hg
  · obtain rfl : s.g = g := by simpa using hg
    exact ⟨h1,h2⟩

theorem rhoFrom_spec (k : ℕ) {g : ℕ} (h : rhoFrom fuel n k c = some g) :
    g ∣ n ∧ g ≠ 1 ∧ g ≠ n := by
  induction k generalizing c with
  | zero => simp [rhoFrom] at h
  | succ k ih =>
    obtain ⟨g',hg',h⟩ := Option.bind_eq_some_iff.mp h
    split_ifs at h with hne
    · obtain rfl : g' = g := by simpa using h
      obtain ⟨h1,h2⟩ := rhoTry_spec hg'
      exact ⟨h1,h2,hne⟩
    · exact ih h

theorem rho_spec {g : ℕ} (h : rho fuel n = some g) : g ∣ n ∧ g ≠ 1 ∧ g ≠ n := rhoFrom_spec _ h

/-- The primality test is right about the divisors of `n`. -/
def Tested (n : ℕ) : Prop := ∀ m, m ∣ n → isPrime m = true → m.Prime

theorem tested_six : Tested 6 := by
  intro m hm hp
  have hle := Nat.le_of_dvd (by decide) hm
  interval_cases m
  · exact absurd hp (by decide)
  · exact absurd hp (by decide)
  · exact Nat.prime_two
  · exact Nat.prime_three
  · exact absurd hm (by decide)
  · exact absurd hm (by decide)
  · exact absurd hp (by decide)

theorem factorLoop_spec (ht : Tested n) {todo f' : List ℕ} (hf : ∀ p ∈ f, p.Prime)
    (hn : n = todo.prod * f.prod) (h : factorLoop bound fuel todo f = some f') :
    f'.prod = n ∧ ∀ p ∈ f', p.Prime := by
  induction fuel generalizing todo f with
  | zero => simp [factorLoop] at h
  | succ fuel ih =>
    cases todo with
    | nil =>
      obtain rfl : f = f' := by simpa [factorLoop] using h
      exact ⟨by simp [hn],hf⟩
    | cons m todo =>
      rw [factorLoop] at h
      split_ifs at h with hp
      · have hdvd : m ∣ n := hn ▸ ⟨todo.prod * f.prod,by rw [prod_cons,mul_assoc]⟩
        refine ih (fun p hpf => ?_) ?_ h
        · rcases List.mem_append.mp hpf with hpf | hpf
          · exact hf p hpf
          · rw [List.mem_singleton.mp hpf]
            exact ht m hdvd hp
        · rw [hn,List.prod_append,prod_cons,List.prod_singleton]
          ring
      · obtain ⟨d,hd,h⟩ := Option.bind_eq_some_iff.mp h
        refine ih hf ?_ h
        have hmul := Nat.div_mul_cancel (rho_spec hd).1
        rw [hn,prod_cons,prod_cons,prod_cons,← mul_assoc (m/d),hmul]

theorem trial_spec {p : ℕ} (hp : p.Prime) (fuel : ℕ) {mf : ℕ × List ℕ}
    (hf : ∀ q ∈ mf.2, q.Prime) (hn : n = mf.1 * mf.2.prod) :
    n = (trial p fuel mf).1 * (trial p fuel mf).2.prod ∧ ∀ q ∈ (trial p fuel mf).2, q.Prime := by
  induction fuel generalizing mf with
  | zero => exact ⟨hn,hf⟩
  | succ fuel ih =>
    obtain ⟨m,f⟩ := mf
    rw [trial]
    split_ifs with hm
    · refine ih (fun q hq => ?_) ?_
      · rcases List.mem_append.mp hq with hq | hq
        · exact hf q hq
        · rwa [List.mem_singleton.mp hq]
      · have hmul := Nat.div_mul_cancel (Nat.dvd_of_mod_eq_zero hm)
        simp only [List.prod_append,List.prod_singleton]
        rw [hn]
        calc m * f.prod = (m/p*p) * f.prod := by rw [hmul]
          _ = m/p * (f.prod * p) := by ring
    · exact ⟨hn,hf⟩

theorem smallPrimes_prime : ∀ p ∈ smallPrimes, p.Prime := by
  intro p hp
  simp only [smallPrimes,mem_cons,List.not_mem_nil,or_false] at hp
  rcases hp with rfl | rfl | rfl | rfl | rfl | rfl | rfl | rfl | rfl | rfl | rfl | rfl | rfl |
    rfl | rfl <;> norm_num

theorem trials_spec (ps : List ℕ) (hps : ∀ p ∈ ps, p.Prime) {mf : ℕ × List ℕ}
    (hf : ∀ q ∈ mf.2, q.Prime) (hn : n = mf.1 * mf.2.prod) :
    n = (ps.foldl (fun mf p => trial p 64 mf) mf).1 *
        (ps.foldl (fun mf p => trial p 64 mf) mf).2.prod ∧
      ∀ q ∈ (ps.foldl (fun mf p => trial p 64 mf) mf).2, q.Prime := by
  induction ps generalizing mf with
  | nil => exact ⟨hn,hf⟩
  | cons p ps ih =>
    obtain ⟨h1,h2⟩ := trial_spec (hps p (by simp)) 64 hf hn
    exact ih (fun q hq => hps q (by simp [hq])) h2 h1

theorem factors_spec (ht : Tested n) (hn : n ≠ 0) (h : factors bound n = some f) :
    f.prod = n ∧ ∀ p ∈ f, p.Prime := by
  simp only [factors] at h
  obtain ⟨h1,h2⟩ := @trials_spec n smallPrimes smallPrimes_prime (n,[])
    (by simp) (by simp)
  refine factorLoop_spec ht h2 ?_ h
  generalize smallPrimes.foldl (fun mf p => trial p 64 mf) (n,[]) = mf at h1
  split_ifs with hm
  · simpa using h1
  · have hm0 : mf.1 ≠ 0 := by
      rintro h0
      rw [h0,zero_mul] at h1
      exact hn h1
    obtain h1' : mf.1 = 1 := by omega
    rw [h1'] at h1
    simpa using h1

theorem mem_powers {pe : ℕ × ℕ} (h : pe ∈ powers f) : pe.1 ∈ f := by
  induction f generalizing pe with
  | nil => simp [powers] at h
  | cons p f ih =>
    rw [powers] at h
    cases hq : powers f with
    | nil =>
      rw [hq] at h
      obtain rfl : pe = (p,1) := by simpa using h
      simp
    | cons qe rest =>
      obtain ⟨q,e⟩ := qe
      rw [hq] at h ih
      simp only at h
      split_ifs at h with hpq
      · rcases mem_cons.mp h with rfl | h
        · simp [hpq]
        · exact List.mem_cons_of_mem p (ih (List.mem_cons_of_mem _ h))
      · rcases mem_cons.mp h with rfl | h
        · simp
        · exact List.mem_cons_of_mem p (ih h)

/-- The runs of a sorted list have bases that grow, and the product of the list. -/
theorem powers_spec (hs : f.Pairwise (· ≤ ·)) :
    (powers f).Pairwise (fun a b => a.1 < b.1) ∧ ((powers f).map fun pe => pe.1^pe.2).prod = f.prod := by
  induction f with
  | nil => simp [powers]
  | cons p f ih =>
    obtain ⟨hp,hs⟩ := pairwise_cons.mp hs
    obtain ⟨h1,h2⟩ := ih hs
    rw [powers]
    cases hq : powers f with
    | nil =>
      rw [hq] at h2
      have hf : f.prod = 1 := by simpa using h2.symm
      simp [hf]
    | cons qe rest =>
      obtain ⟨q,e⟩ := qe
      have hpq : p ≤ q := hp q (@mem_powers _ (q,e) (by rw [hq]; simp))
      rw [hq] at h1 h2
      obtain ⟨h1,h1'⟩ := pairwise_cons.mp h1
      simp only [map_cons,prod_cons] at h2
      simp only
      split_ifs with heq
      · refine ⟨pairwise_cons.mpr ⟨h1,h1'⟩,?_⟩
        rw [map_cons,prod_cons,prod_cons,← h2,heq,pow_succ]
        ring
      · have hlt : p < q := lt_of_le_of_ne hpq heq
        refine ⟨pairwise_cons.mpr ⟨fun b hb => ?_,pairwise_cons.mpr ⟨h1,h1'⟩⟩,?_⟩
        · rcases mem_cons.mp hb with rfl | hb
          · exact hlt
          · exact hlt.trans (h1 b hb)
        · rw [map_cons,prod_cons,map_cons,prod_cons,prod_cons,← h2,pow_one]

structure Lists (divs : List ℕ) (m : ℕ) : Prop where
  mem : ∀ d, d ∈ divs ↔ d ∣ m
  nodup : divs.Nodup

theorem Lists.length (h : Lists divs m) (hm : m ≠ 0) :
    divs.length = m.divisors.card := by
  rw [← List.toFinset_card_of_nodup h.nodup]
  congr 1
  ext d
  rw [List.mem_toFinset,h.mem,Nat.mem_divisors]
  exact ⟨fun hd => ⟨hd,hm⟩,fun hd => hd.1⟩

theorem lists_of_length (hm : m ≠ 0) (hmem : ∀ d, d ∈ divs ↔ d ∣ m)
    (hlen : divs.length = m.divisors.card) : Lists divs m := by
  refine ⟨hmem,?_⟩
  have hset : divs.toFinset = m.divisors := by
    ext d
    rw [List.mem_toFinset,hmem,Nat.mem_divisors]
    exact ⟨fun hd => ⟨hd,hm⟩,fun hd => hd.1⟩
  rw [← Multiset.coe_nodup,← Multiset.toFinset_card_eq_card_iff_nodup,Multiset.coe_card,hlen,← hset]
  rfl

theorem Lists.expand (h : Lists divs m) {p : ℕ} (hp : p.Prime) (hm : m ≠ 0) (hpm : ¬p ∣ m) (e : ℕ) :
    Lists (expand divs (p,e)) (m * p^e) := by
  have hpe : p^e ≠ 0 := pow_ne_zero e hp.ne_zero
  refine lists_of_length (mul_ne_zero hm hpe) (fun d => ?_) ?_
  · have hmem : d ∈ Numth.expand divs (p,e) ↔ ∃ k ≤ e, ∃ d' ∈ divs, d' * p^k = d := by
      simp only [Numth.expand,List.mem_append,List.mem_flatMap,List.mem_range,List.mem_map]
      constructor
      · rintro (hd | ⟨k,hk,d',hd',rfl⟩)
        · exact ⟨0,e.zero_le,d,hd,by simp⟩
        · exact ⟨k+1,hk,d',hd',rfl⟩
      · rintro ⟨k,hk,d',hd',rfl⟩
        cases k with
        | zero => exact .inl (by simpa using hd')
        | succ k => exact .inr ⟨k,hk,d',hd',rfl⟩
    rw [hmem,Nat.dvd_mul]
    constructor
    · rintro ⟨k,hk,d',hd',rfl⟩
      exact ⟨d',p^k,(h.mem d').mp hd',pow_dvd_pow p hk,rfl⟩
    · rintro ⟨d',q,hd',hq,rfl⟩
      obtain ⟨k,hk,rfl⟩ := (Nat.dvd_prime_pow hp).mp hq
      exact ⟨k,hk,d',(h.mem d').mpr hd',rfl⟩
  · have hcop : Nat.Coprime m (p^e) :=
      Nat.Coprime.pow_right e ((Nat.Prime.coprime_iff_not_dvd hp).mpr hpm).symm
    rw [hcop.card_divisors_mul,Nat.divisors_prime_pow hp,Finset.card_map,Finset.card_range,← h.length hm]
    simp only [Numth.expand,List.length_append,List.length_flatMap,List.length_map,List.map_const',
      List.sum_replicate,List.length_range,smul_eq_mul]
    ring

theorem lists_expands (ps : List (ℕ × ℕ)) (h : Lists divs m) (hm : m ≠ 0)
    (hp : ∀ pe ∈ ps, pe.1.Prime ∧ ¬pe.1 ∣ m) (hs : ps.Pairwise fun a b => a.1 < b.1) :
    Lists (ps.foldl Numth.expand divs) (m * (ps.map fun pe => pe.1^pe.2).prod) := by
  induction ps generalizing divs m with
  | nil => simpa using h
  | cons pe ps ih =>
    obtain ⟨hprime,hpm⟩ := hp pe (by simp)
    obtain ⟨hlt,hs⟩ := pairwise_cons.mp hs
    rw [List.foldl_cons,map_cons,prod_cons,← mul_assoc]
    refine ih (h.expand hprime hm hpm pe.2) (mul_ne_zero hm (pow_ne_zero _ hprime.ne_zero))
      (fun qe hqe => ?_) hs
    obtain ⟨hq,hqm⟩ := hp qe (by simp [hqe])
    refine ⟨hq,fun hdvd => ?_⟩
    rcases hq.dvd_mul.mp hdvd with hdvd | hdvd
    · exact hqm hdvd
    · have heq := (Nat.prime_dvd_prime_iff_eq hq hprime).mp (hq.dvd_of_dvd_pow hdvd)
      have hlt' := hlt qe hqe
      omega

structure Divisors.Ok (d : Divisors) : Prop where
  lists : d.divs ≠ [] → Lists d.divs d.n
  sorted : d.divs.Pairwise (· ≤ ·)

/-- The divisors of `n` are listed, or none when they are too many. -/
theorem dvsDivisors_spec {d d' : Divisors} {max k : ℕ} (hd : d.Ok) (ht : Tested n)
    (h : dvsDivisors bound d n max = some (d',k)) :
    d'.Ok ∧ (k ≠ 0 → Lists d'.divs n ∧ k = d'.divs.length) := by
  unfold dvsDivisors at h
  split_ifs at h with h0 hc
  · obtain ⟨rfl,rfl⟩ : d = d' ∧ 0 = k := by simpa using h
    exact ⟨hd,fun h => absurd rfl h⟩
  · obtain ⟨rfl,rfl⟩ : d = d' ∧ d.divs.length = k := by simpa using h
    refine ⟨hd,fun hk => ⟨?_,rfl⟩⟩
    rw [← hc.1]
    exact hd.lists fun hnil => hk (by rw [hnil]; rfl)
  · obtain ⟨f,hf,h⟩ := Option.map_eq_some_iff.mp h
    simp only at h
    split_ifs at h with hmax
    · obtain ⟨rfl,rfl⟩ : (⟨0,[]⟩ : Divisors) = d' ∧ 0 = k := by simpa using h
      exact ⟨⟨fun h => absurd rfl h,List.Pairwise.nil⟩,fun h => absurd rfl h⟩
    · obtain ⟨hprod,hprime⟩ := factors_spec ht h0 hf
      have hperm := List.perm_insertionSort (· ≤ ·) f
      obtain ⟨hgrow,hpow⟩ := powers_spec (List.pairwise_insertionSort (· ≤ ·) f)
      have hone : Lists [1] 1 := ⟨fun d => by simp,by simp⟩
      have hl := lists_expands (powers (f.insertionSort (· ≤ ·))) hone one_ne_zero
        (fun pe hpe => ?_) hgrow
      · rw [one_mul,hpow,hperm.prod_eq,hprod] at hl
        have hperm' := List.perm_insertionSort (· ≤ ·)
          ((powers (f.insertionSort (· ≤ ·))).foldl expand [1])
        have hl' : Lists (((powers (f.insertionSort (· ≤ ·))).foldl expand [1]).insertionSort
            (· ≤ ·)) n :=
          ⟨fun d => by rw [hperm'.mem_iff,hl.mem],hperm'.nodup_iff.mpr hl.nodup⟩
        simp only [Prod.mk.injEq] at h
        obtain ⟨rfl,rfl⟩ := h
        exact ⟨⟨fun _ => hl',List.pairwise_insertionSort (· ≤ ·) _⟩,fun _ => ⟨hl',rfl⟩⟩
      · have hpr := hprime pe.1 (hperm.mem_iff.mp (mem_powers hpe))
        exact ⟨hpr,fun h1 => hpr.one_lt.ne' (Nat.dvd_one.mp h1)⟩

/-- The bisection finds where a predicate that holds of a prefix ends. -/
theorem search_spec {below : ℕ → Bool}
    (hmono : ∀ i j, i ≤ j → j < divs.length → below (divs.getD j 0) = true →
      below (divs.getD i 0) = true) (fuel : ℕ) {lo hi : ℕ} (hfuel : hi-lo ≤ fuel) (hle : lo ≤ hi)
    (hhi : hi ≤ divs.length) (hlo : ∀ i < lo, below (divs.getD i 0) = true)
    (hge : ∀ i, hi ≤ i → i < divs.length → below (divs.getD i 0) = false) :
    search divs below fuel lo hi ≤ divs.length ∧
      ∀ i < divs.length, below (divs.getD i 0) = true ↔ i < search divs below fuel lo hi := by
  have hend : ∀ lo, lo ≤ divs.length → (∀ i < lo, below (divs.getD i 0) = true) →
      (∀ i, lo ≤ i → i < divs.length → below (divs.getD i 0) = false) →
      lo ≤ divs.length ∧ ∀ i < divs.length, below (divs.getD i 0) = true ↔ i < lo := by
    refine fun lo hlo h1 h2 => ⟨hlo,fun i hi => ⟨fun hb => ?_,h1 i⟩⟩
    by_contra hge'
    rw [h2 i (by omega) hi] at hb
    cases hb
  induction fuel generalizing lo hi with
  | zero =>
    obtain rfl : lo = hi := by omega
    exact hend lo hhi hlo hge
  | succ fuel ih =>
    rw [search]
    by_cases hlt : lo < hi
    · rw [if_pos hlt]
      by_cases hb : below (divs.getD (lo+(hi-lo)/2) 0) = true
      · rw [if_pos hb]
        exact ih (by omega) (by omega) hhi
          (fun i hi' => hmono i _ (by omega) (by omega) hb) hge
      · rw [if_neg hb]
        refine ih (by omega) (by omega) (by omega) hlo fun i hmid hi' => ?_
        by_contra hbi
        exact hb (hmono _ i hmid hi' (by simpa using hbi))
    · rw [if_neg hlt]
      obtain rfl : lo = hi := by omega
      exact hend lo hhi hlo hge

theorem mem_between {d : Divisors} (hs : d.divs.Pairwise (· ≤ ·)) (L U x : ℕ) :
    x ∈ (d.divs.take (divisorsUpper d U)).drop (divisorsLower d L) ↔ x ∈ d.divs ∧ L ≤ x ∧ x ≤ U := by
  have hsorted : ∀ i j, i ≤ j → j < d.divs.length → d.divs.getD i 0 ≤ d.divs.getD j 0 := by
    intro i j hij hj
    rw [List.getD_eq_getElem?_getD,List.getD_eq_getElem?_getD,List.getElem?_eq_getElem hj,
      List.getElem?_eq_getElem (by omega)]
    rcases Nat.lt_or_eq_of_le hij with hlt | rfl
    · exact List.pairwise_iff_getElem.mp hs i j (by omega) hj hlt
    · exact le_rfl
  obtain ⟨hl1,hl2⟩ := @search_spec d.divs (fun y => decide (y < L))
    (fun i j hij hj hb => by
      have := hsorted i j hij hj
      simp only [decide_eq_true_eq] at hb ⊢
      omega) d.divs.length 0 d.divs.length (by omega) (by omega) le_rfl
    (fun i hi => absurd hi (by omega)) (fun i h1 h2 => absurd h1 (by omega))
  obtain ⟨hu1,hu2⟩ := @search_spec d.divs (fun y => decide (y ≤ U))
    (fun i j hij hj hb => by
      have := hsorted i j hij hj
      simp only [decide_eq_true_eq] at hb ⊢
      omega) d.divs.length 0 d.divs.length (by omega) (by omega) le_rfl
    (fun i hi => absurd hi (by omega)) (fun i h1 h2 => absurd h1 (by omega))
  change divisorsLower d L ≤ _ at hl1
  change ∀ i < _, _ ↔ i < divisorsLower d L at hl2
  change divisorsUpper d U ≤ _ at hu1
  change ∀ i < _, _ ↔ i < divisorsUpper d U at hu2
  have hget : ∀ i (hi : i < d.divs.length), d.divs.getD i 0 = d.divs[i] := fun i hi => by
    rw [List.getD_eq_getElem?_getD,List.getElem?_eq_getElem hi,Option.getD_some]
  constructor
  · intro hx
    obtain ⟨i,hi,rfl⟩ := List.getElem_of_mem hx
    simp only [List.length_drop,List.length_take] at hi
    rw [List.getElem_drop,List.getElem_take]
    have hlt : divisorsLower d L + i < d.divs.length := by omega
    have h1 := mt (hl2 _ hlt).mp (by omega)
    have h2 := (hu2 _ hlt).mpr (by omega)
    rw [hget _ hlt,decide_eq_true_eq] at h1 h2
    exact ⟨List.getElem_mem hlt,by omega,h2⟩
  · rintro ⟨hx,hL,hU⟩
    obtain ⟨i,hi,rfl⟩ := List.getElem_of_mem hx
    have h1 : divisorsLower d L ≤ i := by
      by_contra hlt
      have hb := (hl2 i hi).mpr (by omega)
      rw [hget i hi,decide_eq_true_eq] at hb
      omega
    have h2 : i < divisorsUpper d U := (hu2 i hi).mp (by rw [hget i hi]; exact decide_eq_true hU)
    refine List.mem_iff_getElem.mpr ⟨i-divisorsLower d L,?_,?_⟩
    · rw [List.length_drop,List.length_take]
      omega
    · simp only [List.getElem_drop,List.getElem_take]
      congr 1
      omega

end Numth
end DvSolve
