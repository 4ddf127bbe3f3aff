import DvSolve.PickDist
import DvSolve.PickValue
import DvSolve.PropagateReach

/-! Value selection stays in the domain.
Whichever source a value comes from it lies in the domain of its variable, and the buckets
that are tried for it are taken back. -/
namespace DvSolve
namespace Pick

open Solver DvSolve.Dist
open BitVec (allOnes le_def ofNat toNat_ofNat)
open Nat (mod_eq_of_lt)
open Option (map_eq_some_iff)

variable {v : Variable} {lo hi x y a s : BitVec 64} {holes : List (BitVec 64)} {p : PickCtx} {id : ℕ}
variable {ds ds' : Numth.Divisors}

theorem moved_mem (c : BitVec 64) (h : lo ≤ x ∧ x ≤ hi) :
    lo ≤ (if lo ≤ c ∧ c ≤ hi then c else x) ∧ (if lo ≤ c ∧ c ≤ hi then c else x) ≤ hi := by
  split_ifs with hc
  · exact hc
  · exact h

theorem alignTo_mem (b t : BitVec 64) (h : lo ≤ x ∧ x ≤ hi) :
    lo ≤ alignTo x b lo hi t ∧ alignTo x b lo hi t ≤ hi := moved_mem _ h

theorem pickModLink_mem {vs : BitVec 64 × BitVec 64} {ml : ModLink} (h : lo ≤ vs.1 ∧ vs.1 ≤ hi) :
    lo ≤ (pickModLink p id lo hi vs ml).1 ∧ (pickModLink p id lo hi vs ml).1 ≤ hi := by
  obtain ⟨v,s⟩ := vs
  unfold pickModLink
  dsimp only
  split_ifs
  all_goals
    first
      | exact h
      | exact alignTo_mem _ _ h

theorem pickModAligned_mem (h0 : (p.vars id).signed = false → 0 ≤ rank (p.vars id) lo)
    (hle : rank (p.vars id) lo ≤ rank (p.vars id) hi) (h : Between (p.vars id) lo hi x) :
    Between (p.vars id) lo hi (pickModAligned p id x lo hi s).1 := by
  unfold pickModAligned
  cases hs : (p.vars id).signed with
  | true => exact h
  | false =>
    rw [if_neg (by simp)]
    rw [between_unsigned hs (h0 hs) hle] at h ⊢
    have hfold : ∀ (l : List ModLink) (vs : BitVec 64 × BitVec 64), lo ≤ vs.1 ∧ vs.1 ≤ hi →
        lo ≤ (l.foldl (pickModLink p id lo hi) vs).1 ∧ (l.foldl (pickModLink p id lo hi) vs).1 ≤ hi := by
      intro l
      induction l with
      | nil => exact fun vs h => h
      | cons ml l ih => exact fun vs h => ih _ (pickModLink_mem h)
    exact hfold p.modLinks (x,s) h

theorem cofactors_mem (K ylo yhi l u : ℕ) :
    l ≤ (cofactors K ylo yhi l u).1 ∧ (cofactors K ylo yhi l u).2 ≤ u := by
  unfold cofactors
  dsimp only
  constructor <;> split_ifs <;> omega

theorem dvsDivisors_sorted {bound n max k : ℕ} (hd : ds.divs.Pairwise (· ≤ ·))
    (h : Numth.dvsDivisors bound ds n max = some (ds',k)) :
    ds'.divs.Pairwise (· ≤ ·) := by
  unfold Numth.dvsDivisors at h
  split_ifs at h
  · obtain ⟨rfl,-⟩ := Prod.mk.inj (Option.some.inj h)
    exact hd
  · obtain ⟨rfl,-⟩ := Prod.mk.inj (Option.some.inj h)
    exact hd
  · obtain ⟨f,-,h⟩ := map_eq_some_iff.mp h
    dsimp only at h
    split_ifs at h
    · obtain ⟨rfl,-⟩ := Prod.mk.inj h
      exact List.Pairwise.nil
    · obtain ⟨rfl,-⟩ := Prod.mk.inj h
      exact List.pairwise_insertionSort _ _

theorem mulSide_mem {bound : ℕ} {ml : MulCount.MulLink} {side : Bool} {r : Option (List ℕ)}
    (hd : ds.divs.Pairwise (· ≤ ·)) (h : mulSide p bound id lo hi ds ml side = some (ds',r)) :
    ds'.divs.Pairwise (· ≤ ·) ∧ ∀ divs, r = some divs →
      divs ≠ [] ∧ ∀ d ∈ divs, lo.toNat ≤ d ∧ d ≤ hi.toNat := by
  have hstay : ∀ {ds' r}, (ds,(none : Option (List ℕ))) = (ds',r) →
      ds'.divs.Pairwise (· ≤ ·) ∧ ∀ divs, r = some divs →
        divs ≠ [] ∧ ∀ d ∈ divs, lo.toNat ≤ d ∧ d ≤ hi.toNat := by
    intro ds' r h
    obtain ⟨rfl,rfl⟩ := Prod.mk.inj h
    exact ⟨hd,fun divs h => by cases h⟩
  unfold mulSide at h
  dsimp only at h
  generalize (if side = true then ml.a else ml.b) = y at h
  generalize (if side = true then ml.b else ml.a) = x at h
  generalize (if ml.width ≥ 64 then 2^64-1 else 2^ml.width-1) = mask at h
  have hlu := cofactors_mem (varLo64 (p.vars ml.r)).toNat (varLo64 (p.vars y)).toNat
    (varHi64 (p.vars y)).toNat lo.toNat hi.toNat
  generalize cofactors _ _ _ _ _ = lu at h hlu
  split_ifs at h
  all_goals
    first
      | exact hstay (Option.some.inj h)
      | skip
  obtain ⟨⟨d,k⟩,hdiv,heq⟩ := map_eq_some_iff.mp h
  have hsort := dvsDivisors_sorted hd hdiv
  split at heq
  · obtain ⟨rfl,rfl⟩ := Prod.mk.inj heq
    exact ⟨hsort,fun divs h => by cases h⟩
  · obtain ⟨rfl,rfl⟩ := Prod.mk.inj heq
    refine ⟨hsort,fun divs hdivs => ?_⟩
    split at hdivs
    · cases hdivs
    · rename_i hne
      obtain rfl := Option.some.inj hdivs
      refine ⟨fun h0 => hne (by rw [h0]; rfl),fun x hx => ?_⟩
      obtain ⟨-,hL,hU⟩ := (Numth.mem_between hsort _ _ _).mp hx
      exact ⟨hlu.1.trans hL,hU.trans hlu.2⟩

theorem mulSides_mem {bound : ℕ} {ls : List (MulCount.MulLink × Bool)} {r : Option (List ℕ)}
    (hd : ds.divs.Pairwise (· ≤ ·)) (h : mulSides p bound id lo hi ls ds = some (ds',r)) :
    ∀ divs, r = some divs → divs ≠ [] ∧ ∀ d ∈ divs, lo.toNat ≤ d ∧ d ≤ hi.toNat := by
  induction ls generalizing ds with
  | nil =>
    obtain ⟨-,rfl⟩ := Prod.mk.inj (Option.some.inj h)
    exact fun divs h => by cases h
  | cons ml ls ih =>
    rw [mulSides] at h
    split at h
    · cases h
    · rename_i hside
      obtain ⟨-,rfl⟩ := Prod.mk.inj (Option.some.inj h)
      exact (mulSide_mem hd hside).2
    · rename_i hside
      exact ih (mulSide_mem hd hside).1 h

theorem drawDivisor_mem {divs : List ℕ} {isHole : BitVec 64 → Bool} (hne : divs ≠ [])
    (hd : ∀ d ∈ divs, lo.toNat ≤ d ∧ d ≤ hi.toNat) (hx : lo ≤ x ∧ x ≤ hi) (n : ℕ) (s : BitVec 64) :
    lo ≤ (drawDivisor isHole divs x n s).1 ∧ (drawDivisor isHole divs x n s).1 ≤ hi := by
  induction n generalizing s with
  | zero => exact hx
  | succ n ih =>
    rw [drawDivisor]
    dsimp only
    split_ifs
    · exact ih _
    · have hlt : (rand64 s).1.toNat % divs.length < divs.length :=
        Nat.mod_lt _ (List.length_pos_iff.mpr hne)
      rw [List.getD_eq_getElem?_getD,List.getElem?_eq_getElem hlt,Option.getD_some]
      obtain ⟨h1,h2⟩ := hd _ (List.getElem_mem hlt)
      rw [le_def,le_def,toNat_ofNat,mod_eq_of_lt (by omega)]
      exact ⟨h1,h2⟩

theorem pickMulDivisor_mem {bound : ℕ} {s' : BitVec 64} (hd : p.divisors.divs.Pairwise (· ≤ ·))
    (h0 : (p.vars id).signed = false → 0 ≤ rank (p.vars id) lo)
    (hle : rank (p.vars id) lo ≤ rank (p.vars id) hi) (hx : Between (p.vars id) lo hi x)
    (h : pickMulDivisor p bound id x lo hi s = some (y,s',ds)) : Between (p.vars id) lo hi y := by
  unfold pickMulDivisor at h
  split_ifs at h with hs
  · obtain ⟨rfl,-⟩ := Prod.mk.inj (Option.some.inj h)
    exact hx
  · have hs := Bool.eq_false_iff.mpr hs
    obtain ⟨⟨ds',divs⟩,hsides,heq⟩ := map_eq_some_iff.mp h
    cases divs with
    | none =>
      obtain ⟨rfl,-⟩ := Prod.mk.inj heq
      exact hx
    | some divs =>
      obtain ⟨rfl,-⟩ := Prod.mk.inj heq
      obtain ⟨hne,hmem⟩ := mulSides_mem hd hsides divs rfl
      rw [between_unsigned hs (h0 hs) hle] at hx ⊢
      exact drawDivisor_mem hne hmem hx 8 s

def bucketStart (S n k : ℕ) : ℕ := k*(S/n)+k*(S%n+1)/n

theorem bucketStart_lt {S n k : ℕ} (hn : 0 < n) (hle : n ≤ S+1) :
    bucketStart S n k < bucketStart S n (k+1) := by
  unfold bucketStart
  have hdiv : k*(S%n+1)/n ≤ (k+1)*(S%n+1)/n := Nat.div_le_div_right (Nat.mul_le_mul_right _ k.le_succ)
  by_cases hq : S/n = 0
  · have hS : S < n := (Nat.div_eq_zero_iff_lt hn).mp hq
    have hmod : S%n+1 = n := by rw [mod_eq_of_lt hS]; omega
    rw [hq,hmod,Nat.mul_div_cancel _ hn,Nat.mul_div_cancel _ hn]
    omega
  · have hpos := Nat.pos_of_ne_zero hq
    have : (k+1)*(S/n) = k*(S/n)+S/n := by ring
    omega

theorem bucketStart_last {S n : ℕ} (hn : 0 < n) : bucketStart S n n = S+1 := by
  unfold bucketStart
  rw [Nat.mul_div_cancel_left _ hn]
  have := Nat.div_add_mod S n
  omega

theorem bucketStart_unique {S n o : ℕ} (hn : 0 < n) (hle : n ≤ S+1) (ho : o ≤ S) :
    ∃! k, k < n ∧ bucketStart S n k ≤ o ∧ o < bucketStart S n (k+1) := by
  have hmono : StrictMono (bucketStart S n) := strictMono_nat_of_lt_succ fun k => bucketStart_lt hn hle
  have hlast := bucketStart_last (S:=S) hn
  have hex : ∃ k, o < bucketStart S n (k+1) :=
    ⟨n-1,by rw [Nat.sub_add_cancel hn,hlast]; omega⟩
  refine ⟨Nat.find hex,⟨?_,?_,Nat.find_spec hex⟩,?_⟩
  · by_contra hge
    have := Nat.find_min hex (m:=n-1) (by omega)
    rw [Nat.sub_add_cancel hn,hlast] at this
    omega
  · cases hk : Nat.find hex with
    | zero => simp [bucketStart]
    | succ k =>
      have := Nat.find_min hex (m:=k) (by omega)
      omega
  · rintro k ⟨-,h1,h2⟩
    refine le_antisymm ?_ (Nat.find_min' hex h2)
    by_contra hlt
    have hspec := Nat.find_spec hex
    have := hmono.monotone (show Nat.find hex+1 ≤ k by omega)
    omega

theorem nBuckets_spec (span : BitVec 64) :
    0 < nBuckets span ∧ nBuckets span ≤ 16 ∧ nBuckets span ≤ span.toNat+1 := by
  unfold nBuckets wpickBuckets
  split_ifs <;> omega

theorem start_toNat {span : BitVec 64} {k : ℕ} (hk : k < nBuckets span) :
    (ofNat 64 k*(span/ofNat 64 (nBuckets span))+ofNat 64 k*
      (span%ofNat 64 (nBuckets span)+1#64)/ofNat 64 (nBuckets span)).toNat =
      bucketStart span.toNat (nBuckets span) k := by
  obtain ⟨hn,h16,hle⟩ := nBuckets_spec span
  have hstart : bucketStart span.toNat (nBuckets span) k < span.toNat+1 := by
    rw [← bucketStart_last (S:=span.toNat) hn]
    have hmono : StrictMono (bucketStart span.toNat (nBuckets span)) :=
      strictMono_nat_of_lt_succ fun k => bucketStart_lt hn hle
    exact hmono hk
  generalize nBuckets span = n at *
  unfold bucketStart at hstart ⊢
  have hmod := Nat.mod_lt span.toNat hn
  have hnb : (ofNat 64 n).toNat = n := by
    rw [toNat_ofNat,mod_eq_of_lt (by omega)]
  have hkb : (ofNat 64 k).toNat = k := by
    rw [toNat_ofNat,mod_eq_of_lt (by omega)]
  have hr1 : (span%ofNat 64 n+1#64).toNat = span.toNat%n+1 := by
    rw [BitVec.toNat_add,BitVec.toNat_umod,hnb,toNat_ofNat,
      mod_eq_of_lt (show 1 < 2^64 by omega),mod_eq_of_lt (by omega)]
  have hprod : k*(span.toNat%n+1) ≤ 16*16 := Nat.mul_le_mul (by omega) (by omega)
  rw [BitVec.toNat_add,BitVec.toNat_mul,BitVec.toNat_udiv,BitVec.toNat_udiv,BitVec.toNat_mul,hr1,
    hnb,hkb,mod_eq_of_lt (show k*(span.toNat%n+1) < 2^64 by omega)]
  generalize k*(span.toNat%n+1)/n = c at *
  rw [mod_eq_of_lt (show k*(span.toNat/n) < 2^64 by omega),mod_eq_of_lt (by omega)]

theorem bucket_offsets {k : ℕ} (hk : k < nBuckets (hi-lo)) :
    ((bucket lo (hi-lo) k).1-lo).toNat = bucketStart (hi-lo).toNat (nBuckets (hi-lo)) k ∧
      ((bucket lo (hi-lo) k).2-lo).toNat+1 = bucketStart (hi-lo).toNat (nBuckets (hi-lo)) (k+1) := by
  have hsub : ∀ o : BitVec 64, lo+o-lo = o := fun o => by bv_omega
  obtain ⟨hn,-,hle⟩ := nBuckets_spec (hi-lo)
  unfold bucket
  rw [hsub,hsub]
  refine ⟨start_toNat hk,?_⟩
  split_ifs with hlast
  · rw [hlast,bucketStart_last hn]
  · have hstart := start_toNat (show k+1 < nBuckets (hi-lo) by omega)
    have hlt := bucketStart_lt (S:=(hi-lo).toNat) (k:=k) hn hle
    rw [show ofNat 64 k+1#64 = ofNat 64 (k+1) from (BitVec.ofNat_add k 1).symm]
    rw [BitVec.toNat_sub_of_le,hstart]
    · simp only [toNat_ofNat]
      omega
    · rw [le_def,hstart]
      simp only [toNat_ofNat]
      omega

theorem bucket_partition (hle : rank v lo ≤ rank v hi) (x : BitVec 64) :
    Between v lo hi x ↔ ∃! k, k < nBuckets (hi-lo) ∧
      Between v (bucket lo (hi-lo) k).1 (bucket lo (hi-lo) k).2 x := by
  obtain ⟨hn,-,hcount⟩ := nBuckets_spec (hi-lo)
  have hmono : StrictMono (bucketStart (hi-lo).toNat (nBuckets (hi-lo))) :=
    strictMono_nat_of_lt_succ fun k => bucketStart_lt hn hcount
  have hlast := bucketStart_last (S:=(hi-lo).toNat) hn
  have hends : ∀ k < nBuckets (hi-lo), Between v lo hi (bucket lo (hi-lo) k).1 ∧
      Between v lo hi (bucket lo (hi-lo) k).2 := by
    intro k hk
    obtain ⟨h1,h2⟩ := bucket_offsets hk
    have hlt := hmono (show k < k+1 by omega)
    have hend := hmono.monotone (show k+1 ≤ nBuckets (hi-lo) by omega)
    rw [between_iff hle,between_iff hle]
    omega
  have hin : ∀ k < nBuckets (hi-lo), Between v lo hi x →
      (Between v (bucket lo (hi-lo) k).1 (bucket lo (hi-lo) k).2 x ↔
        bucketStart (hi-lo).toNat (nBuckets (hi-lo)) k ≤ (x-lo).toNat ∧
          (x-lo).toNat < bucketStart (hi-lo).toNat (nBuckets (hi-lo)) (k+1)) := by
    intro k hk hx
    obtain ⟨h1,h2⟩ := bucket_offsets hk
    unfold Between
    rw [rank_eq_add (hends k hk).1.1,rank_eq_add (hends k hk).2.1,rank_eq_add hx.1]
    omega
  constructor
  · intro hx
    obtain ⟨k,⟨hk,hb⟩,huniq⟩ := bucketStart_unique hn hcount ((between_iff hle).mp hx)
    refine ⟨k,⟨hk,(hin k hk hx).mpr hb⟩,fun k' h => huniq k' ⟨h.1,(hin k' h.1 hx).mp h.2⟩⟩
  · rintro ⟨k,⟨hk,hb⟩,-⟩
    obtain ⟨⟨h1,-⟩,-,h2⟩ := hends k hk
    exact ⟨h1.trans hb.1,hb.2.trans h2⟩

def Probe.Fits (v : Variable) (b : Probe) : Prop :=
  rank v (varLo64 v) ≤ rank v b.lo ∧ rank v b.lo ≤ rank v b.hi ∧ rank v b.hi ≤ rank v (varHi64 v)

section Probes

variable {D : Doubles} {lim : Limits} {e e' : Engine} {b : BitVec 64 × BitVec 64}

theorem tryBucket_spec {pr : PropResult} (hok : e.ctx.Ok) (hv : ∀ v, (e.ctx.vars v).Ok)
    (hf : ∀ r, (e.ctx.props r).fire.Heeds e.ctx.vars) (h : tryBucket lim e id b = some (pr,e')) :
    Reached (trailPushLevel e.ctx) e'.ctx ∧ (pr = .ok → Shrinks e.ctx.vars e'.ctx.vars) := by
  have hpush : Reached (trailPushLevel e.ctx) (trailPushLevel e.ctx) := .refl (trailPushLevel_ok hok)
  unfold tryBucket at h
  dsimp only at h
  split at h
  · cases h
  · rename_i s₁ hlb
    have h₁ := ctxTightenNotify_reached (s:={ e with
      ctx := trailPushLevel e.ctx, conflictProp := none, conflictClause := none }) hpush hlb
    have hs₁ : Shrinks e.ctx.vars s₁.ctx.vars := ctxTightenNotify_heeded (s:={ e with
      ctx := trailPushLevel e.ctx, conflictProp := none, conflictClause := none }) (t:=.lb64) hv
      trivial hlb (by simp)
    split at h
    · cases h
    · rename_i s₂ hub
      have h₂ := ctxTightenNotify_reached h₁ hub
      have hs₂ := hs₁.trans (ctxTightenNotify_heeded (t:=.ub64) hs₁.ok trivial hub (by simp))
      exact ⟨(Reached.steady _).propagate h₂ h,fun hr =>
        hs₂.trans (dvsSolverPropagate_heeded hs₂.ok h₂ (fun r => (hf r).congr hs₂.same) h (by simp [hr]))⟩
    · rename_i s₂ hne hub
      obtain ⟨rfl,rfl⟩ := Prod.mk.inj (Option.some.inj h)
      exact ⟨ctxTightenNotify_reached h₁ hub,fun hr => absurd hr hne⟩
  · rename_i s₁ hne hlb
    obtain ⟨rfl,rfl⟩ := Prod.mk.inj (Option.some.inj h)
    exact ⟨ctxTightenNotify_reached (s:={ e with
      ctx := trailPushLevel e.ctx, conflictProp := none, conflictClause := none }) hpush hlb,
      fun hr => absurd hr hne⟩

theorem probeBucket_spec {got : Option Probe} (hok : e.ctx.Ok) (hv : ∀ v, (e.ctx.vars v).Ok)
    (hf : ∀ r, (e.ctx.props r).fire.Heeds e.ctx.vars) (hne : (e.ctx.vars id).least ≤ (e.ctx.vars id).most)
    (h : probeBucket D lim p e id b = some (got,e')) :
    Unwound e.ctx e'.ctx ∧ ∀ pb, got = some pb → pb.Fits (e.ctx.vars id) := by
  unfold probeBucket at h
  split at h
  · cases h
  · rename_i pr t htry
    obtain ⟨hreach,hshrink⟩ := tryBucket_spec hok hv hf htry
    obtain ⟨d,hd,hun⟩ := hreach.back hok
    rw [hd] at h
    obtain ⟨rfl,rfl⟩ := Prod.mk.inj (Option.some.inj h)
    refine ⟨hun,fun pb hpb => ?_⟩
    split_ifs at hpb with hpr
    obtain rfl := Option.some.inj hpb
    have hs := hshrink hpr.1
    have hsame : ∀ a, rank (e.ctx.vars id) a = varOrd (t.ctx.vars id) a := fun a =>
      ((hs.same id).varOrd a).symm
    refine ⟨?_,?_,?_⟩
    · rw [hsame (varLo64 (t.ctx.vars id))]
      exact hs.least id
    · rw [hsame,hsame]
      exact hs.live id hne
    · rw [hsame (varHi64 (t.ctx.vars id))]
      exact hs.most id

theorem probeBuckets_spec {span : BitVec 64} {ks : List ℕ} {probes : List (Option Probe)}
    (hok : e.ctx.Ok) (hv : ∀ v, (e.ctx.vars v).Ok) (hf : ∀ r, (e.ctx.props r).fire.Heeds e.ctx.vars)
    (hne : (e.ctx.vars id).least ≤ (e.ctx.vars id).most)
    (h : probeBuckets D lim p id lo span ks e = some (probes,e')) :
    Unwound e.ctx e'.ctx ∧ ∀ pb, some pb ∈ probes → pb.Fits (e.ctx.vars id) := by
  induction ks generalizing e probes with
  | nil =>
    obtain ⟨rfl,rfl⟩ := Prod.mk.inj (Option.some.inj h)
    exact ⟨.refl hok,fun pb h => by simp at h⟩
  | cons k ks ih =>
    rw [probeBuckets] at h
    split at h
    · cases h
    · rename_i got t hprobe
      obtain ⟨hun,hfit⟩ := probeBucket_spec hok hv hf hne hprobe
      split_ifs at h
      · obtain ⟨rfl,rfl⟩ := Prod.mk.inj (Option.some.inj h)
        exact ⟨hun,fun pb hpb => hfit pb (List.mem_singleton.mp hpb).symm⟩
      · obtain ⟨⟨rest,t'⟩,hrest,heq⟩ := map_eq_some_iff.mp h
        obtain ⟨rfl,rfl⟩ := Prod.mk.inj heq
        obtain ⟨hun',hfit'⟩ := ih hun.ok (by rwa [hun.vars]) (fun r => by
          rw [hun.fires,hun.vars]
          exact hf r)
          (by rwa [hun.vars]) hrest
        refine ⟨hun.trans hun',fun pb hpb => ?_⟩
        rcases List.mem_cons.mp hpb with rfl | hpb
        · exact hfit pb rfl
        · rw [← hun.vars]
          exact hfit' pb hpb

structure PickCtx.Ok (p : PickCtx) (x : ℕ) : Prop where
  ctx : p.engine.ctx.Ok
  vars : ∀ v, (p.vars v).Ok
  fires : ∀ r, (p.engine.ctx.props r).fire.Heeds p.vars
  holes : Sorted (p.holes x)
  divisors : p.divisors.divs.Pairwise (· ≤ ·)

/-- What a pick leaves: `x` and the rest of the state as they were but for the generator, the
probes, the divisors listed, the draw kept and the queue. -/
structure Picked (p p' : PickCtx) : Prop where
  unwound : Unwound p.engine.ctx p'.engine.ctx
  holes : p'.holes = p.holes
  divisors : p'.divisors = p.divisors

theorem Picked.ok {p' : PickCtx} (hp : Picked p p') (h : p.Ok id) : p'.Ok id := by
  refine ⟨hp.unwound.ok,fun v => ?_,fun r => ?_,?_,?_⟩
  · rw [PickCtx.vars,hp.unwound.vars]
    exact h.vars v
  · rw [hp.unwound.fires,PickCtx.vars,hp.unwound.vars]
    exact h.fires r
  · rw [hp.holes]
    exact h.holes
  · rw [hp.divisors]
    exact h.divisors

theorem pickValueWeighted_spec {r : Option (BitVec 64)} {p' : PickCtx} (h : p.Ok id)
    (hne : (p.vars id).least ≤ (p.vars id).most)
    (hr : pickValueWeighted D lim p id lo hi = some (r,p')) :
    Picked p p' ∧ ∀ a, r = some a →
      Between (p.vars id) (varLo64 (p.vars id)) (varHi64 (p.vars id)) a := by
  have hstay : Picked p p := ⟨.refl h.ctx,rfl,rfl⟩
  unfold pickValueWeighted at hr
  dsimp only at hr
  split at hr
  · obtain ⟨rfl,rfl⟩ := Prod.mk.inj (Option.some.inj hr)
    exact ⟨hstay,fun a ha => by cases ha⟩
  split at hr
  · obtain ⟨rfl,rfl⟩ := Prod.mk.inj (Option.some.inj hr)
    exact ⟨hstay,fun a ha => by cases ha⟩
  split at hr
  · obtain ⟨rfl,rfl⟩ := Prod.mk.inj (Option.some.inj hr)
    exact ⟨hstay,fun a ha => by cases ha⟩
  split at hr
  · cases hr
  · rename_i probes s hprobes
    obtain ⟨hun,hfit⟩ := probeBuckets_spec h.ctx h.vars h.fires hne hprobes
    split at hr
    · obtain ⟨rfl,rfl⟩ := Prod.mk.inj (Option.some.inj hr)
      exact ⟨⟨hun,rfl,rfl⟩,fun a ha => by cases ha⟩
    · split at hr
      · cases hr
      · rename_i k _
        split at hr
        · cases hr
        · rename_i b hb
          obtain ⟨rfl,rfl⟩ := Prod.mk.inj (Option.some.inj hr)
          refine ⟨⟨hun,rfl,rfl⟩,fun a ha => ?_⟩
          obtain rfl := Option.some.inj ha
          have hmem : some b ∈ probes := by
            rw [List.getD_eq_getElem?_getD] at hb
            cases hk : probes[k]? with
            | none =>
              rw [hk] at hb
              cases hb
            | some o =>
              rw [hk] at hb
              exact hb ▸ List.mem_of_getElem? hk
          obtain ⟨h1,h2,h3⟩ := hfit b hmem
          have hmem' := pickAvoidingHoles_mem h.holes h2
            (randRange64 (rand64 p.rngState).2 b.lo b.hi).2
            (randRange64_mem (rand64 p.rngState).2 h2)
          exact ⟨h1.trans hmem'.1,hmem'.2.trans h3⟩

end Probes

section Values

variable {D : Doubles} {lim : Limits} {p' : PickCtx} {opts : Option Opts}

theorem stillFits_mem (h : stillFits p id x = true) :
    Between (p.vars id) (varLo64 (p.vars id)) (varHi64 (p.vars id)) x := by
  unfold stillFits at h
  simp only [Bool.and_eq_true,Bool.not_eq_true'] at h
  exact ⟨varBLt_eq_false.mp h.1.1,varBGt_eq_false.mp h.1.2⟩

theorem rank_nonneg (hv : v.Ok) (hs : v.signed = false) : 0 ≤ rank v (varLo64 v) := by
  have := hv.bot
  simp only [Variable.bot,hs] at this
  exact this

theorem drawUniform_spec (h : p.Ok id) (hne : (p.vars id).least ≤ (p.vars id).most)
    (hr : drawUniform lim p id (varLo64 (p.vars id)) (varHi64 (p.vars id)) = some (x,p')) :
    Between (p.vars id) (varLo64 (p.vars id)) (varHi64 (p.vars id)) x ∧
      Unwound p.engine.ctx p'.engine.ctx ∧ p'.holes = p.holes := by
  unfold drawUniform at hr
  obtain ⟨⟨y,s,ds⟩,hdraw,heq⟩ := map_eq_some_iff.mp hr
  obtain ⟨rfl,rfl⟩ := Prod.mk.inj heq
  refine ⟨?_,.refl h.ctx,rfl⟩
  have h0 := rank_nonneg (h.vars id)
  exact pickMulDivisor_mem h.divisors h0 hne (pickModAligned_mem h0 hne (randRange64_mem _ hne)) hdraw

theorem drawValue_spec (h : p.Ok id) (hne : (p.vars id).least ≤ (p.vars id).most)
    (hr : drawValue D lim p opts id (varLo64 (p.vars id)) (varHi64 (p.vars id)) = some (x,p')) :
    Between (p.vars id) (varLo64 (p.vars id)) (varHi64 (p.vars id)) x ∧
      Unwound p.engine.ctx p'.engine.ctx ∧ p'.holes = p.holes := by
  unfold drawValue at hr
  split at hr
  · obtain ⟨rfl,rfl⟩ := Prod.mk.inj (Option.some.inj hr)
    exact ⟨pickValueDist_between _ _ hne,.refl h.ctx,rfl⟩
  · split_ifs at hr
    · split at hr
      · cases hr
      · rename_i hw
        obtain ⟨rfl,rfl⟩ := Prod.mk.inj (Option.some.inj hr)
        obtain ⟨hp,hmem⟩ := pickValueWeighted_spec h hne hw
        exact ⟨hmem _ rfl,hp.unwound,hp.holes⟩
      · rename_i q hw
        obtain ⟨hp,-⟩ := pickValueWeighted_spec h hne hw
        have hvars : q.vars = p.vars := hp.unwound.vars
        rw [← hvars] at hr hne ⊢
        obtain ⟨hx,hun,hh⟩ := drawUniform_spec (hp.ok h) hne hr
        exact ⟨hx,hp.unwound.trans hun,hh.trans hp.holes⟩
    · exact drawUniform_spec h hne hr

theorem pickValue_spec (h : p.Ok id) (hne : (p.vars id).least ≤ (p.vars id).most)
    (hr : pickValue D lim p opts id = some (x,p')) :
    Between (p.vars id) (varLo64 (p.vars id)) (varHi64 (p.vars id)) x ∧
      Unwound p.engine.ctx p'.engine.ctx := by
  unfold pickValue at hr
  dsimp only at hr
  split at hr
  · rename_i hs
    obtain ⟨rfl,rfl⟩ := Prod.mk.inj (Option.some.inj hr)
    refine ⟨?_,.refl h.ctx⟩
    unfold savedPhase at hs
    split at hs
    · split_ifs at hs with hfit
      obtain rfl := Option.some.inj hs
      exact stillFits_mem hfit.2.2
    · cases hs
  · split at hr
    · rename_i hk
      obtain ⟨rfl,rfl⟩ := Prod.mk.inj (Option.some.inj hr)
      refine ⟨?_,.refl h.ctx⟩
      unfold keptDraw at hk
      split_ifs at hk with hfit
      obtain rfl := Option.some.inj hk
      exact stillFits_mem hfit.2.2.2
    · obtain ⟨⟨y,q⟩,hdraw,heq⟩ := map_eq_some_iff.mp hr
      obtain ⟨hy,hun,hh⟩ := drawValue_spec h hne hdraw
      have hsorted : Sorted (q.holes id) := hh ▸ h.holes
      have hmem := pickAvoidingHoles_mem hsorted hne q.rngState hy
      split_ifs at heq
      · obtain ⟨rfl,rfl⟩ := Prod.mk.inj heq
        exact ⟨hmem,hun⟩
      · obtain ⟨rfl,rfl⟩ := Prod.mk.inj heq
        exact ⟨hmem,hun⟩

/-- A value picked lies in the domain of its variable, and bounds, level and trail are as
before; the buckets tried cut every domain into parts; and where the weights of a distribution
do not wrap around, uniform draws give the values in proportion to what its entries give. -/
theorem pickValue_draws (D : Doubles) :
    (∀ (lim : Limits) (p p' : PickCtx) (opts : Option Opts) (id : ℕ) (x : BitVec 64),
      p.Ok id → (p.vars id).least ≤ (p.vars id).most → pickValue D lim p opts id = some (x,p') →
      InDomain (p.vars id) x ∧ Unwound p.engine.ctx p'.engine.ctx) ∧
    (∀ (v : Variable) (lo hi x : BitVec 64), rank v lo ≤ rank v hi →
      (Between v lo hi x ↔ ∃! k, k < nBuckets (hi-lo) ∧
        Between v (bucket lo (hi-lo) k).1 (bucket lo (hi-lo) k).2 x)) ∧
    ∀ (v : Variable) (es : List Entry) (lo hi : BitVec 64), weightIn v lo hi es < 2^64 →
      (∀ x y, Between v lo hi x → Between v lo hi y →
        idealDist v es lo hi x*given v es lo hi y = idealDist v es lo hi y*given v es lo hi x) ∧
      ∀ x, Between v lo hi x → 0 < weightIn v lo hi es →
        idealDist v es lo hi x = given v es lo hi x/weightIn v lo hi es :=
  ⟨fun _ _ _ _ _ _ h hne hr => pickValue_spec h hne hr, fun _ _ _ x hle => bucket_partition hle x,
    fun _ _ _ _ hlt => ⟨fun _ _ hx hy => idealDist_proportional hlt hx hy,
      fun _ hx hpos => idealDist_apply hpos hlt hx⟩⟩

/-- Fixed-point numbers in the place of doubles, exact on small whole ones. -/
def fixedPoint : Doubles where
  one := 2^53
  ofSize d := (d.toNat+1)*2^53
  ofDraw r := r.toNat
  add := (· + ·)
  sub := (· - ·)
  mul a b := a*b/2^53
  div a b := a*2^53/b
  big m := m > 2^565
  scale m := m/2^512

/-- `x <= y` over `[0,7]` and `[0,3]`, nothing decided. -/
def twoOpen : PickCtx where
  engine :=
    { unqueuedTwo with
      ctx := twoProps (0#32,7#32) (0#32,3#32) (fireBoundsLe32 0 1) (.done .ok) fun v =>
        if v < 2 then [0] else [] }
  rngState := 1#64
  holes _ := [2#64]
  distOffsets _ := none
  phaseSave := none
  keepOn := false
  keepCap := 0
  keepState _ := .none
  keepVal _ := 0#64
  fairPick := true
  wpickOn := true
  wpickLeft := 1024
  maxDepth := 100
  varAlias i := i
  nDeclVars := 2
  varOrder := none
  boxSkip _ := false
  decTier _ := 1
  varNValues _ := 0#64
  eqGrp := []
  modLinks := []
  mulLinks := []
  extMemo := []
  divisors := ⟨0,[]⟩

theorem twoOpen_ok : twoOpen.Ok 1 := by
  have hvar : ∀ v, (twoOpen.vars v).Ok ∧ (twoOpen.vars v).tier1 = false := by
    intro v
    by_cases hv : v = 0
    · rw [hv]
      exact ⟨⟨by decide,by decide,rfl,fun _ => by decide,fun _ _ => by decide,by decide,by decide⟩,rfl⟩
    · have h1 : twoOpen.vars v = twoOpen.vars 1 := by
        simp [PickCtx.vars,twoOpen,twoProps,hv]
      rw [h1]
      exact ⟨⟨by decide,by decide,rfl,fun _ => by decide,fun _ _ => by decide,by decide,by decide⟩,rfl⟩
  refine ⟨?_,fun v => (hvar v).1,fun r => ?_,?_,List.Pairwise.nil⟩
  · have hq := unqueuedTwo_unqueued
    exact ⟨⟨_,QueueOk.of_empty rfl fun _ => rfl⟩,⟨by simp [twoOpen,twoProps],by simp [twoOpen,twoProps]⟩,
      hq.priority,hq.watchers,hq.refs⟩
  · have hwithin : (twoOpen.engine.ctx.props r).fire.Within fun _ => True := by
      simp only [twoOpen,twoProps]
      split_ifs
      · exact fireBoundsLe32_within trivial trivial
      · trivial
    exact hwithin.heeds fun v _ => (hvar v).2
  · exact List.pairwise_singleton _ _

def overlapping : List Entry := [⟨0#64,1#64,1#32,true⟩,⟨1#64,3#64,2#32,false⟩]

/-- `y` drawn by weight, with a probe spent on each of its four values, and the chance of a
value under two entries. -/
theorem pickValue_draws_weighted : (∃ x p', pickValue fixedPoint ⟨fun _ => false,8,8⟩ twoOpen
      (some ⟨1,false,false⟩) 1 = some (x,p') ∧ p'.wpickLeft = 1020 ∧ InDomain (twoOpen.vars 1) x ∧
      Unwound twoOpen.engine.ctx p'.engine.ctx) ∧
    (∃! k, k < nBuckets (3#64-0#64) ∧ Between (twoOpen.vars 1) (bucket 0#64 (3#64-0#64) k).1
      (bucket 0#64 (3#64-0#64) k).2 2#64) ∧
    idealDist (twoOpen.vars 1) overlapping 0#64 3#64 1#64 =
      given (twoOpen.vars 1) overlapping 0#64 3#64 1#64/
        weightIn (twoOpen.vars 1) 0#64 3#64 overlapping := by
  have hrun : (pickValue fixedPoint ⟨fun _ => false,8,8⟩ twoOpen (some ⟨1,false,false⟩) 1).map
      (fun r => r.2.wpickLeft) = some 1020 := by decide +kernel
  obtain ⟨⟨x,p'⟩,hr,hleft⟩ := map_eq_some_iff.mp hrun
  have hbetween : ∀ y : BitVec 64, y = 1#64 ∨ y = 2#64 → Between (twoOpen.vars 1) 0#64 3#64 y := by
    rintro y (rfl | rfl) <;> exact ⟨by decide,by decide⟩
  exact ⟨⟨x,p',hr,hleft,(pickValue_draws fixedPoint).1 _ _ _ _ _ _ twoOpen_ok (by decide) hr⟩,
    ((pickValue_draws fixedPoint).2.1 _ _ _ _ (by decide)).mp (hbetween _ (.inr rfl)),
    ((pickValue_draws fixedPoint).2.2 _ _ _ _ (by decide)).2 _ (hbetween _ (.inl rfl)) (by decide)⟩

/-- An unsigned variable of 64 bits with its full domain, every value with weight 1 and 5 with
one more. -/
def fullWide : Variable := wideVar 0#64 (allOnes 64) 64 false

def everyValue : List Entry := [⟨0#64,allOnes 64,1#32,true⟩,⟨5#64,5#64,1#32,true⟩]

theorem everyValue_total : totalWeight fullWide 0#64 (allOnes 64) everyValue = 1#64 := by
  decide

theorem everyValue_roll : rollEntry fullWide 0#64 (allOnes 64) 0#64 0#64 everyValue =
    some (5#64,5#64) := by decide

/-- The count of the full range wraps to 0: with every weight positive only 5 is drawn. -/
theorem pickValueDist_full_wraps :
    InDomain fullWide 5#64 ∧ InDomain fullWide 6#64 ∧
    (∀ s, (pickValueDist fullWide everyValue s 0#64 (allOnes 64)).1 = 5#64) ∧
    idealDist fullWide everyValue 0#64 (allOnes 64) 5#64*
        given fullWide everyValue 0#64 (allOnes 64) 6#64 ≠
      idealDist fullWide everyValue 0#64 (allOnes 64) 6#64*
        given fullWide everyValue 0#64 (allOnes 64) 5#64 := by
  have hideal : ∀ x, idealDist fullWide everyValue 0#64 (allOnes 64) x = uniformFrom 5#64 5#64 x := by
    intro x
    rw [idealDist_rolls (by rw [everyValue_total]; decide),everyValue_total]
    simp only [toNat_ofNat,Nat.reducePow,Nat.reduceMod,Nat.cast_one,inv_one,one_mul,Finset.sum_range_one]
    change selected _ _ (rollEntry fullWide 0#64 (allOnes 64) 0#64 0#64 everyValue) x = _
    rw [everyValue_roll]
    rfl
  refine ⟨by decide,by decide,fun s => ?_,?_⟩
  · rw [pickValueDist_of_roll (v:=fullWide) (r:=(5#64,5#64)) (by rw [everyValue_total]; decide)
      (fun x => by rw [everyValue_total,BitVec.umod_one,everyValue_roll]) s,randRange64_self]
  · have h6 : Entry.gives ⟨0#64,allOnes 64,1#32,true⟩ fullWide 0#64 (allOnes 64)
        6#64 = 1 := by
      unfold Entry.gives
      rw [if_pos (by decide)]
      simp
    rw [hideal,hideal,uniformFrom_apply,uniformFrom_apply,if_pos (by decide),if_neg (by decide),zero_mul]
    refine mul_ne_zero (by simp) ?_
    rw [given,everyValue,List.map_cons,List.sum_cons,h6]
    simp

end Values

end Pick
end DvSolve
