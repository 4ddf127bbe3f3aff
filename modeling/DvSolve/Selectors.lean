import DvSolve.AigCnfSem

/-! Clauses in frames, switched by selector variables.
A clause of a frame carries the negation of the frame's selector; a live selector is
assumed, a retired one is asserted false. Under the assumptions the guarded clauses
are satisfiable exactly when the clauses of the live frames are. -/
namespace DvSolve
namespace Selectors

open Cnf
open List (mem_append mem_append_left mem_append_right mem_cons mem_cons_of_mem mem_cons_self mem_singleton)

variable {v : ℕ → Bool} {s : ℕ}

def ModelOf (v : ℕ → Bool) (cs : List (List ℤ)) (assumps : List ℤ) : Prop :=
  Satisfies v cs ∧ ∀ l ∈ assumps, litValue v l = true

def Satisfiable (cs : List (List ℤ)) (assumps : List ℤ) : Prop := ∃ v, ModelOf v cs assumps

def Avoids (c : List ℤ) (S : List ℕ) : Prop := ∀ l ∈ c, l.natAbs ∉ S

/-- `K` guards the frames `live`, each a selector and its clauses, and the clauses
`base` outside them; selectors of `retired` have been given up. Empty clauses are not
guarded. -/
structure Guards (K base : List (List ℤ)) (live : List (ℕ × List (List ℤ)))
    (retired : List ℕ) : Prop where
  sound : ∀ c ∈ K, c ∈ base ∨ (c = [] ∧ ∃ f ∈ live, [] ∈ f.2) ∨
    (∃ f ∈ live, ∃ d ∈ f.2, c = d ++ [-(f.1 : ℤ)]) ∨ ∃ s ∈ retired, -(s : ℤ) ∈ c
  base_mem : ∀ c ∈ base, c ∈ K
  live_mem : ∀ f ∈ live, ∀ c ∈ f.2, (c = [] ∧ c ∈ K) ∨ c ++ [-(f.1 : ℤ)] ∈ K
  live_pos : ∀ f ∈ live, 0 < f.1
  retired_pos : ∀ s ∈ retired, 0 < s
  nodup : (live.map Prod.fst).Nodup
  fresh : ∀ f ∈ live, f.1 ∉ retired
  base_avoids : ∀ c ∈ base, Avoids c (live.map Prod.fst ++ retired)
  live_avoids : ∀ f ∈ live, ∀ c ∈ f.2, Avoids c (live.map Prod.fst ++ retired)

def inForce (base : List (List ℤ)) (live : List (ℕ × List (List ℤ))) : List (List ℤ) :=
  base ++ live.flatMap Prod.snd

/-- A valuation with the live selectors true and the retired ones false. -/
def switch (v : ℕ → Bool) (live retired : List ℕ) (x : ℕ) : Bool :=
  if x ∈ live then true else if x ∈ retired then false else v x

theorem litValue_switch {live retired : List ℕ} {l : ℤ} (h : l.natAbs ∉ live ++ retired) :
    litValue (switch v live retired) l = litValue v l := by
  rw [mem_append,not_or] at h
  simp [litValue,switch,h.1,h.2]

theorem litValue_selector {live retired : List ℕ} (hs : s ∈ live) :
    litValue (switch v live retired) s = true := by
  simp [litValue,switch,hs]

theorem litValue_retired {live retired : List ℕ} (hpos : 0 < s) (hl : s ∉ live) (hs : s ∈ retired) :
    litValue (switch v live retired) (-(s : ℤ)) = true := by
  simp [litValue,switch,hl,hs,hpos]

theorem Guards.satisfiable_iff {K base : List (List ℤ)} {live : List (ℕ × List (List ℤ))}
    {retired : List ℕ} (h : Guards K base live retired) {assumps sels : List ℤ}
    (hsels : ∀ l, l ∈ sels ↔ ∃ f ∈ live, l = (f.1 : ℤ))
    (ha : Avoids assumps (live.map Prod.fst ++ retired)) :
    Satisfiable K (assumps ++ sels) ↔ Satisfiable (inForce base live) assumps := by
  constructor
  · rintro ⟨v,hK,hasm⟩
    refine ⟨v,fun c hc => ?_,fun l hl => hasm l (mem_append_left _ hl)⟩
    rcases mem_append.mp hc with hc | hc
    · exact hK c (h.base_mem c hc)
    · obtain ⟨f,hf,hcf⟩ := List.mem_flatMap.mp hc
      rcases h.live_mem f hf c hcf with ⟨_,hcK⟩ | hcK
      · exact hK c hcK
      · obtain ⟨l,hl,hv⟩ := hK _ hcK
        rcases mem_append.mp hl with hl | hl
        · exact ⟨l,hl,hv⟩
        · -- the guard is false: its selector is assumed
          have hsel : litValue v (f.1 : ℤ) = true :=
            hasm _ (mem_append_right _ ((hsels _).mpr ⟨f,hf,rfl⟩))
          have hpos := h.live_pos f hf
          rw [mem_singleton.mp hl,litValue_neg v (by omega),hsel] at hv
          exact absurd hv (by simp)
  · rintro ⟨v,hforce,hasm⟩
    have hlive : ∀ c ∈ inForce base live, Avoids c (live.map Prod.fst ++ retired) →
        ∃ l ∈ c, litValue (switch v (live.map Prod.fst) retired) l = true := by
      intro c hc hav
      obtain ⟨l,hl,hv⟩ := hforce c hc
      exact ⟨l,hl,by rw [litValue_switch (hav l hl),hv]⟩
    refine ⟨switch v (live.map Prod.fst) retired,fun c hc => ?_,fun l hl => ?_⟩
    · rcases h.sound c hc with hb | ⟨rfl,f,hf,hd⟩ | ⟨f,hf,d,hd,rfl⟩ | ⟨s,hs,hmem⟩
      · exact hlive c (mem_append_left _ hb) (h.base_avoids c hb)
      · exact hlive [] (mem_append_right _ (List.mem_flatMap.mpr ⟨f,hf,hd⟩))
          (h.live_avoids f hf _ hd)
      · obtain ⟨l,hl,hv⟩ := hlive d
          (mem_append_right _ (List.mem_flatMap.mpr ⟨f,hf,hd⟩)) (h.live_avoids f hf d hd)
        exact ⟨l,mem_append_left _ hl,hv⟩
      · refine ⟨_,hmem,litValue_retired (h.retired_pos s hs) (fun hin => ?_) hs⟩
        obtain ⟨f,hf,rfl⟩ := List.mem_map.mp hin
        exact h.fresh f hf hs
    · rcases mem_append.mp hl with hl | hl
      · rw [litValue_switch (ha l hl)]
        exact hasm l hl
      · obtain ⟨f,hf,rfl⟩ := (hsels l).mp hl
        exact litValue_selector (List.mem_map_of_mem hf)

variable {K base : List (List ℤ)} {live : List (ℕ × List (List ℤ))} {retired : List ℕ}

theorem guards_nil : Guards [] [] [] [] where
  sound c hc := by simp at hc
  base_mem c hc := by simp at hc
  live_mem f hf := by simp at hf
  live_pos f hf := by simp at hf
  retired_pos s hs := by simp at hs
  nodup := List.nodup_nil
  fresh f hf := by simp at hf
  base_avoids c hc := by simp at hc
  live_avoids f hf := by simp at hf

theorem Guards.addBase (h : Guards K base [] retired) {c : List ℤ} (hc : Avoids c retired) :
    Guards (K ++ [c]) (base ++ [c]) [] retired where
  sound d hd := by
    rcases mem_append.mp hd with hd | hd
    · rcases h.sound d hd with hb | ⟨_,f,hf,_⟩ | ⟨f,hf,_⟩ | hs
      · exact .inl (mem_append_left _ hb)
      · simp at hf
      · simp at hf
      · exact .inr (.inr (.inr hs))
    · exact .inl (mem_append_right _ hd)
  base_mem d hd := by
    rcases mem_append.mp hd with hd | hd
    · exact mem_append_left _ (h.base_mem d hd)
    · exact mem_append_right _ hd
  live_mem f hf := by simp at hf
  live_pos f hf := by simp at hf
  retired_pos := h.retired_pos
  nodup := h.nodup
  fresh f hf := by simp at hf
  base_avoids d hd := by
    rcases mem_append.mp hd with hd | hd
    · exact h.base_avoids d hd
    · rw [mem_singleton.mp hd]
      exact hc
  live_avoids f hf := by simp at hf

def guardWith (s : ℕ) (c : List ℤ) : List ℤ := if c = [] then [] else c ++ [-(s : ℤ)]

theorem Guards.addLive {cs : List (List ℤ)} (h : Guards K base ((s,cs) :: live) retired)
    {c : List ℤ} (hc : Avoids c (s :: live.map Prod.fst ++ retired)) :
    Guards (K ++ [guardWith s c]) base ((s,cs ++ [c]) :: live) retired where
  sound d hd := by
    rcases mem_append.mp hd with hd | hd
    · rcases h.sound d hd with hb | ⟨rfl,f,hf,hcf⟩ | ⟨f,hf,e,he,rfl⟩ | hs
      · exact .inl hb
      · rcases mem_cons.mp hf with rfl | hf
        · exact .inr (.inl ⟨rfl,_,mem_cons_self,mem_append_left _ hcf⟩)
        · exact .inr (.inl ⟨rfl,f,mem_cons_of_mem _ hf,hcf⟩)
      · rcases mem_cons.mp hf with rfl | hf
        · exact .inr (.inr (.inl ⟨_,mem_cons_self,e,mem_append_left _ he,rfl⟩))
        · exact .inr (.inr (.inl ⟨f,mem_cons_of_mem _ hf,e,he,rfl⟩))
      · exact .inr (.inr (.inr hs))
    · have hmem : c ∈ cs ++ [c] := mem_append_right _ (List.mem_singleton_self c)
      rw [mem_singleton.mp hd,guardWith]
      split_ifs with hnil
      · subst hnil
        exact .inr (.inl ⟨rfl,_,mem_cons_self,hmem⟩)
      · exact .inr (.inr (.inl ⟨_,mem_cons_self,c,hmem,rfl⟩))
  base_mem d hd := mem_append_left _ (h.base_mem d hd)
  live_mem f hf d hd := by
    have hold : ∀ g ∈ (s,cs) :: live, d ∈ g.2 → (d = [] ∧ d ∈ K ++ [guardWith s c]) ∨
        d ++ [-(g.1 : ℤ)] ∈ K ++ [guardWith s c] := fun g hg hdg => by
      rcases h.live_mem g hg d hdg with ⟨hnil,hK⟩ | hK
      · exact .inl ⟨hnil,mem_append_left _ hK⟩
      · exact .inr (mem_append_left _ hK)
    rcases mem_cons.mp hf with rfl | hf
    · rcases mem_append.mp hd with hd | hd
      · exact hold (s,cs) mem_cons_self hd
      · rw [mem_singleton.mp hd]
        by_cases hnil : c = []
        · exact .inl ⟨hnil,by simp [guardWith,hnil]⟩
        · exact .inr (by simp [guardWith,hnil])
    · exact hold f (mem_cons_of_mem _ hf) hd
  live_pos f hf := by
    rcases mem_cons.mp hf with rfl | hf
    · exact h.live_pos (s,cs) mem_cons_self
    · exact h.live_pos f (mem_cons_of_mem _ hf)
  retired_pos := h.retired_pos
  nodup := h.nodup
  fresh f hf := by
    rcases mem_cons.mp hf with rfl | hf
    · exact h.fresh (s,cs) mem_cons_self
    · exact h.fresh f (mem_cons_of_mem _ hf)
  base_avoids := h.base_avoids
  live_avoids f hf d hd := by
    rcases mem_cons.mp hf with rfl | hf
    · rcases mem_append.mp hd with hd | hd
      · exact h.live_avoids (s,cs) mem_cons_self d hd
      · rw [mem_singleton.mp hd]
        exact hc
    · exact h.live_avoids f (mem_cons_of_mem _ hf) d hd

theorem Guards.push (h : Guards K base live retired) (hpos : 0 < s) (hlive : s ∉ live.map Prod.fst)
    (hret : s ∉ retired) (hnew : ∀ c ∈ inForce base live, Avoids c [s]) :
    Guards K base ((s,[]) :: live) retired := by
  have hcons : ∀ c ∈ inForce base live, Avoids c (live.map Prod.fst ++ retired) →
      Avoids c (((s,[]) :: live).map Prod.fst ++ retired) := by
    intro c hc hav l hl hin
    rcases mem_cons.mp hin with heq | hin
    · exact hnew c hc l hl (mem_singleton.mpr heq)
    · exact hav l hl hin
  exact {
    sound := fun d hd => by
      rcases h.sound d hd with hb | ⟨rfl,f,hf,hcf⟩ | ⟨f,hf,e⟩ | hs
      · exact .inl hb
      · exact .inr (.inl ⟨rfl,f,mem_cons_of_mem _ hf,hcf⟩)
      · exact .inr (.inr (.inl ⟨f,mem_cons_of_mem _ hf,e⟩))
      · exact .inr (.inr (.inr hs))
    base_mem := h.base_mem
    live_mem := fun f hf d hd => by
      rcases mem_cons.mp hf with rfl | hf
      · simp at hd
      · exact h.live_mem f hf d hd
    live_pos := fun f hf => by
      rcases mem_cons.mp hf with rfl | hf
      · exact hpos
      · exact h.live_pos f hf
    retired_pos := h.retired_pos
    nodup := List.nodup_cons.mpr ⟨hlive,h.nodup⟩
    fresh := fun f hf => by
      rcases mem_cons.mp hf with rfl | hf
      · exact hret
      · exact h.fresh f hf
    base_avoids := fun c hc =>
      hcons c (mem_append_left _ hc) (h.base_avoids c hc)
    live_avoids := fun f hf c hc => by
      rcases mem_cons.mp hf with rfl | hf
      · simp at hc
      · exact hcons c (mem_append_right _ (List.mem_flatMap.mpr ⟨f,hf,hc⟩))
          (h.live_avoids f hf c hc) }

theorem Guards.pop {cs : List (List ℤ)} (h : Guards K base ((s,cs) :: live) retired)
    (hempty : [] ∉ cs) : Guards (K ++ [[-(s : ℤ)]]) base live (s :: retired) := by
  have hperm : ∀ c, Avoids c (((s,cs) :: live).map Prod.fst ++ retired) →
      Avoids c (live.map Prod.fst ++ s :: retired) := by
    intro c hav l hl hin
    apply hav l hl
    simp only [List.map_cons,mem_append,mem_cons] at hin ⊢
    tauto
  have hnodup := List.nodup_cons.mp h.nodup
  exact {
    sound := fun d hd => by
      rcases mem_append.mp hd with hd | hd
      · rcases h.sound d hd with hb | ⟨rfl,f,hf,hcf⟩ | ⟨f,hf,e,he,rfl⟩ | ⟨t,ht,hmem⟩
        · exact .inl hb
        · rcases mem_cons.mp hf with rfl | hf
          · exact absurd hcf hempty
          · exact .inr (.inl ⟨rfl,f,hf,hcf⟩)
        · rcases mem_cons.mp hf with rfl | hf
          · exact .inr (.inr (.inr ⟨s,mem_cons_self,by simp⟩))
          · exact .inr (.inr (.inl ⟨f,hf,e,he,rfl⟩))
        · exact .inr (.inr (.inr ⟨t,mem_cons_of_mem _ ht,hmem⟩))
      · exact .inr (.inr (.inr ⟨s,mem_cons_self,by rw [mem_singleton.mp hd]; simp⟩))
    base_mem := fun d hd => mem_append_left _ (h.base_mem d hd)
    live_mem := fun f hf d hd => by
      rcases h.live_mem f (mem_cons_of_mem _ hf) d hd with ⟨hnil,hK⟩ | hK
      · exact .inl ⟨hnil,mem_append_left _ hK⟩
      · exact .inr (mem_append_left _ hK)
    live_pos := fun f hf => h.live_pos f (mem_cons_of_mem _ hf)
    retired_pos := fun t ht => by
      rcases mem_cons.mp ht with rfl | ht
      · exact h.live_pos (t,cs) mem_cons_self
      · exact h.retired_pos t ht
    nodup := hnodup.2
    fresh := fun f hf hin => by
      rcases mem_cons.mp hin with heq | hin
      · have hmem : f.1 ∈ live.map Prod.fst := List.mem_map_of_mem hf
        rw [heq] at hmem
        exact hnodup.1 hmem
      · exact h.fresh f (mem_cons_of_mem _ hf) hin
    base_avoids := fun c hc => hperm c (h.base_avoids c hc)
    live_avoids := fun f hf c hc => hperm c (h.live_avoids f (mem_cons_of_mem _ hf) c hc) }

end Selectors
end DvSolve
