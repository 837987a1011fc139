import Mathlib.Data.List.Forall2

namespace Montage.Library
open List

variable {α β ε : Type}

/-- A fold that can fail succeeds, with an invariant over the part of the list it has
seen, when every one of its steps does. -/
theorem foldlM_total (f : β → α → Except ε β) (I : List α → β → Prop) (l seen : List α) (b : β)
    (hb : I seen b)
    (step : ∀ seen b, ∀ a ∈ l, I seen b → ∃ b', f b a = .ok b' ∧ I (seen ++ [a]) b') :
    ∃ r, l.foldlM f b = .ok r ∧ I (seen ++ l) r := by
  induction l generalizing seen b with
  | nil => exact ⟨b,rfl,by simpa using hb⟩
  | cons a l ih =>
    obtain ⟨b',hs,hI⟩ := step seen b a (by simp) hb
    obtain ⟨r,hr,hIr⟩ := ih _ b' hI fun seen b a ha => step seen b a (by simp [ha])
    refine ⟨r,?_,by simpa using hIr⟩
    rw [foldlM_cons,hs]
    exact hr

theorem foldlM_cons_ok {f : β → α → Except ε β} {a : α} {l : List α} {b r : β}
    (h : (a :: l).foldlM f b = .ok r) : ∃ b', f b a = .ok b' ∧ l.foldlM f b' = .ok r := by
  rw [foldlM_cons] at h
  cases hs : f b a with
  | error => rw [hs] at h; cases h
  | ok b' =>
    rw [hs] at h
    exact ⟨b',rfl,h⟩

theorem foldlM_step_of_mem {f : β → α → Except ε β} {a : α} {l : List α} {b r : β}
    (h : l.foldlM f b = .ok r) (ha : a ∈ l) : ∃ b b', f b a = .ok b' := by
  induction l generalizing b with
  | nil => cases ha
  | cons c l ih =>
    obtain ⟨b',hs,h⟩ := foldlM_cons_ok h
    rcases mem_cons.mp ha with rfl | ha
    · exact ⟨b,b',hs⟩
    · exact ih h ha

theorem foldlM_invariant (f : β → α → Except ε β) (I : β → Prop) (l : List α) (b r : β) (hb : I b)
    (step : ∀ b b', ∀ a ∈ l, I b → f b a = .ok b' → I b') (h : l.foldlM f b = .ok r) : I r := by
  induction l generalizing b with
  | nil => cases h; exact hb
  | cons a l ih =>
    obtain ⟨b',hs,h⟩ := foldlM_cons_ok h
    exact ih b' (step b b' a (by simp) hb hs) (fun b b' a ha => step b b' a (by simp [ha])) h

theorem foldlM_eq_foldl (f : β → α → Except ε β) (g : β → α → β) (l : List α) (b r : β)
    (step : ∀ b a b', f b a = .ok b' → b' = g b a) (h : l.foldlM f b = .ok r) :
    r = l.foldl g b := by
  induction l generalizing b with
  | nil => cases h; rfl
  | cons a l ih =>
    obtain ⟨b',hs,h⟩ := foldlM_cons_ok h
    rw [foldl_cons,← step b a b' hs]
    exact ih b' h

theorem mapM_total (f : α → Except ε β) (P : α → β → Prop) (l : List α)
    (h : ∀ a ∈ l, ∃ b, f a = .ok b ∧ P a b) :
    ∃ bs, l.mapM f = .ok bs ∧ Forall₂ P l bs := by
  induction l with
  | nil => exact ⟨[],rfl,.nil⟩
  | cons a l ih =>
    obtain ⟨b,hb,hP⟩ := h a (by simp)
    obtain ⟨bs,hbs,hPs⟩ := ih fun a ha => h a (by simp [ha])
    refine ⟨b :: bs,?_,.cons hP hPs⟩
    rw [mapM_cons,hb]
    simp only [bind,Except.bind,hbs]
    rfl

theorem mapM_forall₂ (f : α → Except ε β) (l : List α) (bs : List β) (h : l.mapM f = .ok bs) :
    Forall₂ (fun a b => f a = .ok b) l bs := by
  induction l generalizing bs with
  | nil => cases h; exact .nil
  | cons a l ih =>
    rw [mapM_cons] at h
    cases hb : f a with
    | error => rw [hb] at h; cases h
    | ok =>
      cases hbs : l.mapM f with
      | error => rw [hb,hbs] at h; cases h
      | ok bs' =>
        rw [hb,hbs] at h
        cases h
        exact .cons hb (ih bs' hbs)

theorem mapM_congr (f g : α → Except ε β) (l : List α) (h : ∀ a ∈ l, f a = g a) :
    l.mapM f = l.mapM g := by
  induction l with
  | nil => rfl
  | cons a l ih =>
    rw [mapM_cons,mapM_cons,h a (by simp),ih fun a ha => h a (by simp [ha])]

theorem mapM_zipIdx (f : α × Nat → Except ε β) (g : α → Except ε β) (l : List α)
    (h : ∀ p ∈ l.zipIdx, f p = g p.1) : l.zipIdx.mapM f = l.mapM g := by
  have hl : l.mapM g = (l.zipIdx.map Prod.fst).mapM g := by rw [zipIdx_map_fst]
  rw [hl,mapM_map]
  exact mapM_congr f _ _ h

theorem exists_of_mem_forall₂ {R : α → β → Prop} {l : List α} {bs : List β} {b : β}
    (h : Forall₂ R l bs) (hb : b ∈ bs) : ∃ a ∈ l, R a b := by
  induction h with
  | nil => simp at hb
  | cons hab _ ih =>
    rcases mem_cons.mp hb with heq | hb
    · exact ⟨_,by simp,heq ▸ hab⟩
    · obtain ⟨a,ha,hR⟩ := ih hb
      exact ⟨a,by simp [ha],hR⟩

theorem exists_mem_forall₂ {R : α → β → Prop} {P : α → Prop} {Q : β → Prop} {l : List α}
    {bs : List β} (h : Forall₂ R l bs) (hPQ : ∀ a b, R a b → (P a ↔ Q b)) :
    (∃ b ∈ bs, Q b) ↔ ∃ a ∈ l, P a := by
  induction h with
  | nil => simp
  | cons hab _ ih => simp [ih,hPQ _ _ hab]

end Montage.Library
