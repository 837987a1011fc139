import Mathlib.Data.List.Nodup
import Mathlib.Data.List.Perm.Basic

namespace Montage.Library
open List

/-- A map that holds at most one entry per key, and the entries that gave way. -/
structure Kept (β : Type) where
  kept : List β
  passed : List β

variable {β κ : Type} [DecidableEq κ] (key : β → κ) (rank : β → Nat)

def Kept.find? (s : Kept β) (k : κ) : Option β := s.kept.find? fun y => key y = k

def Kept.pass (s : Kept β) (x : β) : Kept β := ⟨s.kept,s.passed ++ [x]⟩

def Kept.insert (s : Kept β) (x : β) : Kept β := ⟨s.kept ++ [x],s.passed⟩

/-- Overwrites the entry `y` of the key of `x`. -/
def Kept.supersede (s : Kept β) (y x : β) : Kept β :=
  ⟨s.kept.map fun z => if key z = key x then x else z,s.passed ++ [y]⟩

def keepNewest (s : Kept β) (x : β) : Kept β :=
  match s.find? key (key x) with
  | none => s.insert x
  | some y => if rank y < rank x then s.supersede key y x else s.pass x

def keepFirst (s : Kept β) (x : β) : Kept β :=
  match s.find? key (key x) with
  | none => s.insert x
  | some _ => s.pass x

/-- One entry is kept for every key that was seen. -/
structure Keeps (s : Kept β) (seen : List β) : Prop where
  subset : s.kept ⊆ seen
  unique : (s.kept.map key).Nodup
  covers : ∀ x ∈ seen, ∃ y ∈ s.kept, key y = key x

/-- Every entry of `seen` was kept or passed on, what is kept is newest for its key, and
the entries of `rest` were passed on unseen. -/
structure Newest (s : Kept β) (seen rest : List β) : Prop extends Keeps key s seen where
  perm : (s.kept ++ s.passed).Perm (seen ++ rest)
  newest : ∀ x ∈ seen, ∃ y ∈ s.kept, key y = key x ∧ rank x ≤ rank y

variable {key rank} {s : Kept β} {seen rest : List β} {x y : β}

theorem Kept.find?_some (h : s.find? key k = some y) : y ∈ s.kept ∧ key y = k := by
  have hy := List.find?_some h
  exact ⟨mem_of_find?_eq_some h,by simpa using hy⟩

theorem Kept.find?_none (h : s.find? key k = none) : ∀ y ∈ s.kept, key y ≠ k := by
  simpa [Kept.find?,find?_eq_none] using h

theorem Kept.find?_iff (hu : (s.kept.map key).Nodup) :
    s.find? key k = some y ↔ y ∈ s.kept ∧ key y = k := by
  constructor
  · exact Kept.find?_some
  · intro h
    obtain ⟨hy,hk⟩ := h
    cases hf : s.find? key k with
    | none => exact absurd hk (Kept.find?_none hf y hy)
    | some =>
      obtain ⟨hz,hzk⟩ := Kept.find?_some hf
      rw [inj_on_of_nodup_map hu hz hy (hzk.trans hk.symm)]

theorem mem_keep_newest (h : y ∈ (keepNewest key rank s x).kept) : y = x ∨ y ∈ s.kept := by
  unfold keepNewest at h
  split at h
  · simpa [Kept.insert,or_comm] using h
  · split at h
    · obtain ⟨z,hz,heq⟩ := mem_map.mp h
      by_cases hk : key z = key x
      · rw [if_pos hk] at heq
        exact .inl heq.symm
      · rw [if_neg hk] at heq
        exact .inr (heq ▸ hz)
    · exact .inr h

theorem mem_keep_first (h : y ∈ (keepFirst key s x).kept) : y = x ∨ y ∈ s.kept := by
  unfold keepFirst at h
  split at h
  · simpa [Kept.insert,or_comm] using h
  · exact .inr h

theorem mem_foldl_keep_newest (xs : List β) (h : y ∈ (xs.foldl (keepNewest key rank) s).kept) :
    y ∈ xs ∨ y ∈ s.kept := by
  induction xs generalizing s with
  | nil => exact .inr h
  | cons x _ ih =>
    rcases ih h with hy | hy
    · exact .inl (mem_cons_of_mem x hy)
    · rcases mem_keep_newest hy with hy | hy
      · exact .inl (by simp [hy])
      · exact .inr hy

omit [DecidableEq κ] in
theorem nil_keeps (l : List β) : Keeps key ⟨[],l⟩ [] := ⟨by simp,.nil,by simp⟩

omit [DecidableEq κ] in
theorem nil_newest : Newest key rank ⟨[],[]⟩ [] [] := ⟨nil_keeps [],.nil,by simp⟩

theorem supersede_map_eq (l : List β) (h : ∀ z ∈ l, key z ≠ key x) :
    (l.map fun z => if key z = key x then x else z) = l := by
  conv_rhs => rw [← map_id l]
  apply map_congr_left
  intro z hz
  simp [h z hz]

theorem supersede_perm (l : List β) (hu : (l.map key).Nodup) (hy : y ∈ l)
    (hk : key y = key x) :
    ((l.map fun z => if key z = key x then x else z) ++ [y]).Perm (x :: l) := by
  induction l with
  | nil => simp at hy
  | cons z l ih =>
    rw [map_cons,nodup_cons] at hu
    rcases mem_cons.mp hy with heq | hy
    · subst z
      have hrest : ∀ z ∈ l, key z ≠ key x := by
        intro z hz heq
        exact hu.1 (mem_map.mpr ⟨z,hz,heq.trans hk.symm⟩)
      rw [map_cons,supersede_map_eq l hrest,if_pos hk,cons_append]
      exact (perm_append_singleton y l).cons x
    · have hz : key z ≠ key x := by
        intro heq
        exact hu.1 (mem_map.mpr ⟨y,hy,hk.trans heq.symm⟩)
      rw [map_cons,if_neg hz,cons_append]
      exact ((ih hu.2 hy).cons z).trans (List.Perm.swap x z l)

theorem supersede_keys (l : List β) :
    ((l.map fun z => if key z = key x then x else z).map key) = l.map key := by
  rw [map_map]
  apply map_congr_left
  intro z _
  by_cases hz : key z = key x
  · simp [hz]
  · simp [hz]

theorem insert_perm :
    ((s.insert x).kept ++ (s.insert x).passed).Perm (x :: (s.kept ++ s.passed)) := by
  rw [Kept.insert,append_assoc]
  exact perm_middle

theorem pass_perm : ((s.pass x).kept ++ (s.pass x).passed).Perm (x :: (s.kept ++ s.passed)) := by
  rw [Kept.pass,← append_assoc]
  exact perm_append_singleton x _

theorem replace_perm (hu : (s.kept.map key).Nodup) (hy : y ∈ s.kept) (hk : key y = key x) :
    ((s.supersede key y x).kept ++ (s.supersede key y x).passed).Perm
      (x :: (s.kept ++ s.passed)) := by
  have hmove := (supersede_perm s.kept hu hy hk).append_right s.passed
  refine List.Perm.trans ?_ hmove
  simp only [Kept.supersede,append_assoc]
  exact (perm_append_comm).append_left _

section
variable (h : Keeps key s seen)
include h

omit [DecidableEq κ] in
theorem Keeps.insert (hx : ∀ y ∈ s.kept, key y ≠ key x) : Keeps key (s.insert x) (seen ++ [x]) := by
  refine ⟨?_,?_,?_⟩
  · intro y hy
    rcases mem_append.mp hy with hy | hy
    · exact mem_append_left _ (h.subset hy)
    · exact mem_append_right _ hy
  · simp only [Kept.insert,map_append,map_cons,map_nil]
    refine nodup_append.mpr ⟨h.unique,by simp,?_⟩
    intro a ha b hb heq
    obtain ⟨y,hy,hya⟩ := mem_map.mp ha
    exact hx y hy (hya.trans (heq.trans (mem_singleton.mp hb)))
  · intro z hz
    rcases mem_append.mp hz with hz | hz
    · obtain ⟨y,hy,hk⟩ := h.covers z hz
      exact ⟨y,mem_append_left _ hy,hk⟩
    · exact ⟨x,by simp [Kept.insert],by rw [mem_singleton.mp hz]⟩

omit [DecidableEq κ] in
theorem Keeps.pass (hy : y ∈ s.kept) (hk : key y = key x) : Keeps key (s.pass x) (seen ++ [x]) := by
  refine ⟨fun z hz => mem_append_left _ (h.subset hz),h.unique,?_⟩
  intro z hz
  rcases mem_append.mp hz with hz | hz
  · exact h.covers z hz
  · exact ⟨y,hy,by rw [mem_singleton.mp hz,hk]⟩

theorem Keeps.supersede (hy : y ∈ s.kept) (hk : key y = key x) :
    Keeps key (s.supersede key y x) (seen ++ [x]) := by
  have hx : x ∈ (s.supersede key y x).kept := mem_map.mpr ⟨y,hy,by rw [if_pos hk]⟩
  refine ⟨?_,?_,?_⟩
  · intro z hz
    obtain ⟨w,hw,heq⟩ := mem_map.mp hz
    split at heq
    next => simp [← heq]
    next => exact mem_append_left _ (h.subset (heq ▸ hw))
  · simp only [Kept.supersede,supersede_keys]
    exact h.unique
  · intro z hz
    rcases mem_append.mp hz with hz | hz
    · obtain ⟨w,hw,hwk⟩ := h.covers z hz
      by_cases hkey : key w = key x
      · exact ⟨x,hx,hkey.symm.trans hwk⟩
      · exact ⟨w,mem_map.mpr ⟨w,hw,by rw [if_neg hkey]⟩,hwk⟩
    · exact ⟨x,hx,by rw [mem_singleton.mp hz]⟩

end

section
variable (h : Newest key rank s seen rest)
include h

section
omit [DecidableEq κ]

/-- One more entry has been seen, in a map that still covers the ones before. -/
theorem Newest.snoc {s' : Kept β} (hkeeps : Keeps key s' (seen ++ [x]))
    (hperm : (s'.kept ++ s'.passed).Perm (x :: (s.kept ++ s.passed)))
    (hold : ∀ w ∈ s.kept, ∃ y ∈ s'.kept, key y = key w ∧ rank w ≤ rank y)
    (hx : ∃ y ∈ s'.kept, key y = key x ∧ rank x ≤ rank y) :
    Newest key rank s' (seen ++ [x]) rest := by
  refine ⟨hkeeps,?_,?_⟩
  · rw [append_assoc]
    exact (hperm.trans (h.perm.cons x)).trans perm_middle.symm
  · intro z hz
    rcases mem_append.mp hz with hz | hz
    · obtain ⟨w,hw,hwk,hwr⟩ := h.newest z hz
      obtain ⟨y,hy,hyk,hyr⟩ := hold w hw
      exact ⟨y,hy,hyk.trans hwk,Nat.le_trans hwr hyr⟩
    · rw [mem_singleton.mp hz]
      exact hx

theorem Newest.insert (hx : ∀ y ∈ s.kept, key y ≠ key x) :
    Newest key rank (s.insert x) (seen ++ [x]) rest := by
  refine h.snoc (h.toKeeps.insert hx) insert_perm ?_ ⟨x,by simp [Kept.insert],rfl,Nat.le_refl _⟩
  exact fun w hw => ⟨w,mem_append_left _ hw,rfl,Nat.le_refl _⟩

theorem Newest.pass (hy : y ∈ s.kept) (hk : key y = key x)
    (hr : rank x ≤ rank y) : Newest key rank (s.pass x) (seen ++ [x]) rest :=
  h.snoc (h.toKeeps.pass hy hk) pass_perm (fun w hw => ⟨w,hw,rfl,Nat.le_refl _⟩) ⟨y,hy,hk,hr⟩

theorem Newest.drop (x : β) : Newest key rank (s.pass x) seen (rest ++ [x]) where
  toKeeps := ⟨h.subset,h.unique,h.covers⟩
  perm := by
    rw [Kept.pass,← append_assoc,← append_assoc]
    exact h.perm.append_right _
  newest := h.newest

end

theorem Newest.supersede (hy : y ∈ s.kept) (hk : key y = key x) (hr : rank y < rank x) :
    Newest key rank (s.supersede key y x) (seen ++ [x]) rest := by
  have hx : x ∈ (s.supersede key y x).kept :=
    mem_map.mpr ⟨y,hy,by rw [if_pos hk]⟩
  refine h.snoc (h.toKeeps.supersede hy hk) (replace_perm h.unique hy hk) ?_
    ⟨x,hx,rfl,Nat.le_refl _⟩
  intro w hw
  by_cases hkey : key w = key x
  · have hwy : w = y := inj_on_of_nodup_map h.unique hw hy (hkey.trans hk.symm)
    exact ⟨x,hx,hkey.symm,hwy ▸ Nat.le_of_lt hr⟩
  · exact ⟨w,mem_map.mpr ⟨w,hw,by rw [if_neg hkey]⟩,rfl,Nat.le_refl _⟩

theorem keep_newest_newest (x : β) :
    Newest key rank (keepNewest key rank s x) (seen ++ [x]) rest := by
  unfold keepNewest
  split
  next hf => exact h.insert (Kept.find?_none hf)
  next hf =>
    obtain ⟨hy,hk⟩ := Kept.find?_some hf
    split
    next hlt => exact h.supersede hy hk hlt
    next hge => exact h.pass hy hk (Nat.le_of_not_lt hge)

/-- Where no entry of its key is older, `x` may give way without a comparison. -/
theorem keep_first_newest (x : β) (hx : ∀ y ∈ seen, key y = key x → rank x ≤ rank y) :
    Newest key rank (keepFirst key s x) (seen ++ [x]) rest := by
  unfold keepFirst
  split
  next hf => exact h.insert (Kept.find?_none hf)
  next y hf =>
    obtain ⟨hy,hk⟩ := Kept.find?_some hf
    exact h.pass hy hk (hx y (h.subset hy) hk)

omit [DecidableEq κ] in
theorem Newest.reorder (hs : seen.Perm seen')
    (hr : rest.Perm rest') : Newest key rank s seen' rest' where
  perm := h.perm.trans (hs.append hr)
  subset := fun _ hx => hs.subset (h.subset hx)
  unique := h.unique
  covers := fun x hx => h.covers x (hs.symm.subset hx)
  newest := fun x hx => h.newest x (hs.symm.subset hx)

theorem foldl_keep_newest (xs : List β) :
    Newest key rank (xs.foldl (keepNewest key rank) s) (seen ++ xs) rest := by
  induction xs generalizing s seen with
  | nil => simpa using h
  | cons x _ ih => simpa using ih (keep_newest_newest h x)

theorem Newest.merge (hl : Newest key rank l lseen lrest) {xs : List β} (hxs : xs.Perm l.kept) :
    Newest key rank (xs.foldl (keepNewest key rank) ⟨s.kept,s.passed ++ l.passed⟩)
      (seen ++ lseen) (rest ++ lrest) := by
  have hstart : Newest key rank ⟨s.kept,s.passed ++ l.passed⟩ seen (rest ++ l.passed) := by
    refine ⟨⟨h.subset,h.unique,h.covers⟩,?_,h.newest⟩
    rw [← append_assoc,← append_assoc]
    exact h.perm.append_right _
  have hfold := foldl_keep_newest hstart xs
  have hnewest : ∀ x ∈ seen ++ lseen, ∃ y ∈ (xs.foldl (keepNewest key rank)
      ⟨s.kept,s.passed ++ l.passed⟩).kept, key y = key x ∧ rank x ≤ rank y := by
    intro x hx
    rcases mem_append.mp hx with hx | hx
    · exact hfold.newest x (mem_append_left _ hx)
    · obtain ⟨y,hy,hk,hr⟩ := hl.newest x hx
      obtain ⟨z,hz,hzk,hzr⟩ := hfold.newest y (mem_append_right _ (hxs.symm.subset hy))
      exact ⟨z,hz,hzk.trans hk,Nat.le_trans hr hzr⟩
  refine ⟨⟨?_,hfold.unique,fun x hx => ?_⟩,?_,hnewest⟩
  · intro y hy
    rcases mem_append.mp (hfold.subset hy) with hy | hy
    · exact mem_append_left _ hy
    · exact mem_append_right _ (hl.subset (hxs.subset hy))
  · obtain ⟨y,hy,hk,-⟩ := hnewest x hx
    exact ⟨y,hy,hk⟩
  · have hlocal : (xs ++ l.passed).Perm (lseen ++ lrest) := (hxs.append_right _).trans hl.perm
    have hshuffle : ∀ a b c d : List β, (a ++ b ++ (c ++ d)).Perm (a ++ c ++ (b ++ d)) := by
      intro a b c d
      simp only [append_assoc]
      refine Perm.append_left a ?_
      rw [← append_assoc,← append_assoc]
      exact perm_append_comm.append_right d
    exact (hfold.perm.trans (hshuffle ..)).trans ((hlocal.append_left _).trans (hshuffle ..))

omit [DecidableEq κ] in
theorem Newest.mem_iff (hinj : ∀ x ∈ seen, ∀ y ∈ seen, key x = key y → rank x = rank y → x = y) :
    y ∈ s.kept ↔ y ∈ seen ∧ ∀ x ∈ seen, key x = key y → rank x ≤ rank y := by
  constructor
  · intro hy
    refine ⟨h.subset hy,?_⟩
    intro x hx hk
    obtain ⟨z,hz,hzk,hr⟩ := h.newest x hx
    have hzy : z = y := inj_on_of_nodup_map h.unique hz hy (hzk.trans hk)
    exact hzy ▸ hr
  · intro hy
    obtain ⟨hmem,hmax⟩ := hy
    obtain ⟨z,hz,hzk,hr⟩ := h.newest y hmem
    have hzy : z = y := hinj z (h.subset hz) y hmem hzk
      (Nat.le_antisymm (hmax z (h.subset hz) hzk) hr)
    exact hzy ▸ hz

end

theorem keep_first_of_mem (hy : y ∈ s.kept) (x : β) : y ∈ (keepFirst key s x).kept := by
  unfold keepFirst
  split
  · exact mem_append_left _ hy
  · exact hy

theorem keep_first_of_new (h : ∀ y ∈ s.kept, key y ≠ key x) : x ∈ (keepFirst key s x).kept := by
  unfold keepFirst
  split
  next => simp [Kept.insert]
  next y hf =>
    obtain ⟨hy,hk⟩ := Kept.find?_some hf
    exact absurd hk (h y hy)

theorem keep_first_passes (hy : y ∈ s.kept) (hk : key y = key x) :
    (keepFirst key s x).kept = s.kept := by
  unfold keepFirst
  split
  next hf => exact absurd hk (Kept.find?_none hf y hy)
  next => rfl

theorem keep_newest_of_mem (hu : (s.kept.map key).Nodup) (hy : y ∈ s.kept)
    (hr : key x = key y → rank x ≤ rank y) : y ∈ (keepNewest key rank s x).kept := by
  unfold keepNewest
  split
  next => exact mem_append_left _ hy
  next z hf =>
    obtain ⟨hz,hzk⟩ := Kept.find?_some hf
    split
    next hlt =>
      have hne : key y ≠ key x := by
        intro hk
        have hzy : z = y := inj_on_of_nodup_map hu hz hy (hzk.trans hk.symm)
        have := hr hk.symm
        rw [hzy] at hlt
        omega
      exact mem_map.mpr ⟨y,hy,by rw [if_neg hne]⟩
    next => exact hy

theorem keep_newest_of_new (h : ∀ y ∈ s.kept, key y = key x → rank y < rank x) :
    x ∈ (keepNewest key rank s x).kept := by
  unfold keepNewest
  split
  next => simp [Kept.insert]
  next z hf =>
    obtain ⟨hz,hzk⟩ := Kept.find?_some hf
    rw [if_pos (h z hz hzk)]
    exact mem_map.mpr ⟨z,hz,by rw [if_pos hzk]⟩

theorem keep_first_perm : ((keepFirst key s x).kept ++ (keepFirst key s x).passed).Perm
    (x :: (s.kept ++ s.passed)) := by
  unfold keepFirst
  split
  · exact insert_perm
  · exact pass_perm

theorem keep_newest_perm (hu : (s.kept.map key).Nodup) :
    ((keepNewest key rank s x).kept ++ (keepNewest key rank s x).passed).Perm
      (x :: (s.kept ++ s.passed)) := by
  unfold keepNewest
  split
  next => exact insert_perm
  next hf =>
    obtain ⟨hy,hk⟩ := Kept.find?_some hf
    split
    next => exact replace_perm hu hy hk
    next => exact pass_perm

section
variable (h : Keeps key s seen)
include h

theorem Keeps.find_eq (h' : Keeps key s' seen)
    (hw : ∀ x ∈ seen, ∃ w, key w = key x ∧ w ∈ s.kept ∧ w ∈ s'.kept) (k : κ) :
    s.find? key k = s'.find? key k := by
  cases hf : s.find? key k with
  | some y =>
    obtain ⟨hy,hk⟩ := Kept.find?_some hf
    obtain ⟨w,hwk,hws,hws'⟩ := hw y (h.subset hy)
    rw [inj_on_of_nodup_map h.unique hws hy hwk] at hws'
    exact ((Kept.find?_iff h'.unique).mpr ⟨hws',hk⟩).symm
  | none =>
    cases hf' : s'.find? key k with
    | none => rfl
    | some z =>
      obtain ⟨hz,hk⟩ := Kept.find?_some hf'
      obtain ⟨w,hwk,hws,-⟩ := hw z (h'.subset hz)
      exact absurd (hwk.trans hk) (Kept.find?_none hf w hws)

theorem keep_first_keeps (x : β) : Keeps key (keepFirst key s x) (seen ++ [x]) := by
  unfold keepFirst
  split
  next hf => exact h.insert (Kept.find?_none hf)
  next hf =>
    obtain ⟨hy,hk⟩ := Kept.find?_some hf
    exact h.pass hy hk

theorem keep_newest_keeps (x : β) : Keeps key (keepNewest key rank s x) (seen ++ [x]) := by
  unfold keepNewest
  split
  next hf => exact h.insert (Kept.find?_none hf)
  next hf =>
    obtain ⟨hy,hk⟩ := Kept.find?_some hf
    split
    next => exact h.supersede hy hk
    next => exact h.pass hy hk

theorem foldl_keep_newest_keeps (xs : List β) :
    Keeps key (xs.foldl (keepNewest key rank) s) (seen ++ xs) := by
  induction xs generalizing s seen with
  | nil => simpa using h
  | cons x _ ih => simpa using ih (keep_newest_keeps h x)

/-- An entry that outranks all others of its key is kept by a comparison, whenever it
comes. -/
theorem foldl_keep_newest_wins (xs : List β) (hy : y ∈ s.kept ∨ y ∈ xs)
    (hold : ∀ x ∈ seen, key x = key y → x = y ∨ rank x < rank y)
    (hnew : ∀ x ∈ xs, key x = key y → x = y ∨ rank x < rank y) :
    y ∈ (xs.foldl (keepNewest key rank) s).kept := by
  induction xs generalizing s seen with
  | nil => simpa using hy
  | cons x _ ih =>
    apply ih (keep_newest_keeps h x)
    · by_cases hmem : y ∈ s.kept
      · apply Or.inl (keep_newest_of_mem h.unique hmem _)
        intro hk
        rcases hnew x (by simp) hk with heq | hlt
        · exact Nat.le_of_eq (congrArg rank heq)
        · omega
      · rcases mem_cons.mp (hy.resolve_left hmem) with heq | hxs
        · subst heq
          left
          apply keep_newest_of_new
          intro z hz hk
          rcases hold z (h.subset hz) hk with heq | hlt
          · exact absurd (heq ▸ hz) hmem
          · exact hlt
        · exact .inr hxs
    · intro z hz
      rcases mem_append.mp hz with hz | hz
      · exact hold z hz
      · exact hnew z (by simp [mem_singleton.mp hz])
    · exact fun z hz => hnew z (by simp [hz])

theorem foldl_keep_newest_perm (xs : List β) :
    ((xs.foldl (keepNewest key rank) s).kept ++ (xs.foldl (keepNewest key rank) s).passed).Perm
      (xs ++ (s.kept ++ s.passed)) := by
  induction xs generalizing s seen with
  | nil => exact .refl _
  | cons x xs ih =>
    have hkeeps : Keeps key (keepNewest key rank s x) (seen ++ [x]) := keep_newest_keeps h x
    have hnext := ih hkeeps
    exact (hnext.trans ((keep_newest_perm h.unique).append_left xs)).trans perm_middle

end

end Montage.Library
