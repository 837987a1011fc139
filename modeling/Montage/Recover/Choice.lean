import Montage.Library.Folds
import Montage.Recover.Image

namespace Montage.Recover
open Library
open List hiding iter

/-- What the `switch` of the second pass does with a version that is in use: an `ALLOC`
block never replaces another version, an `UPDATE` block replaces older ones. -/
def choose (s : Kept Block) (b : Block) : Kept Block :=
  if b.blktype = .alloc then keepFirst Block.id s b else keepNewest Block.id Block.epoch s b

def Chooses (live : Block → Bool) (f : Kept Block → Block → Except Fault (Kept Block)) : Prop :=
  ∀ s b s', f s b = .ok s' →
    live b = true ∧ s' = choose s b ∨ live b = false ∧ s'.kept = s.kept

/-- The block wins against the versions `vs` in whatever order they come. -/
def Beats (w : Block) (vs : List Block) : Prop :=
  ∀ y ∈ vs, y.id = w.id → y = w ∨ y.epoch < w.epoch ∧ w.blktype = .update

instance (w : Block) (vs : List Block) : Decidable (Beats w vs) :=
  inferInstanceAs (Decidable (∀ y ∈ vs, y.id = w.id → _))

variable {live : Block → Bool} {f : Kept Block → Block → Except Fault (Kept Block)}
  {s s' : Kept Block} {b w y : Block} {seen part : List Block}

theorem choose_keeps (h : Keeps Block.id s seen) (b : Block) :
    Keeps Block.id (choose s b) (seen ++ [b]) := by
  unfold choose
  split
  · exact keep_first_keeps h b
  · exact keep_newest_keeps h b

theorem mem_choose (h : y ∈ (choose s b).kept) : y = b ∨ y ∈ s.kept := by
  unfold choose at h
  split at h
  · exact mem_keep_first h
  · exact mem_keep_newest h

theorem choose_of_mem (hu : (s.kept.map Block.id).Nodup) (hy : y ∈ s.kept)
    (hr : b.blktype ≠ .alloc → b.id = y.id → b.epoch ≤ y.epoch) : y ∈ (choose s b).kept := by
  unfold choose
  split
  next => exact keep_first_of_mem hy b
  next hupdate => exact keep_newest_of_mem hu hy (hr hupdate)

theorem Beats.choose_of_mem (hw : Beats w vs) (hb : b ∈ vs) (hu : (s.kept.map Block.id).Nodup)
    (hmem : w ∈ s.kept) : w ∈ (choose s b).kept := by
  apply Recover.choose_of_mem hu hmem
  intro _ hk
  rcases hw b hb hk with heq | hlt
  · exact le_of_eq (congrArg Block.epoch heq)
  · exact le_of_lt hlt.1

theorem Beats.choose_self (hw : Beats w seen) (h : Keeps Block.id s seen) :
    w ∈ (choose s w).kept := by
  by_cases hmem : w ∈ s.kept
  · exact Recover.choose_of_mem h.unique hmem fun _ _ => le_rfl
  · have hlt : ∀ z ∈ s.kept, z.id = w.id → z.epoch < w.epoch ∧ w.blktype = .update := by
      intro z hz hk
      rcases hw z (h.subset hz) hk with heq | hlt
      · exact absurd (heq ▸ hz) hmem
      · exact hlt
    unfold choose
    split
    next halloc =>
      apply keep_first_of_new
      intro z hz hk
      have hupdate := (hlt z hz hk).2
      rw [halloc] at hupdate
      cases hupdate
    next => exact keep_newest_of_new fun z hz hk => (hlt z hz hk).1

theorem discardable_of_payload (h : b.isPayload = true) : b.discardable = true := by
  simp only [Block.isPayload,Bool.or_eq_true,decide_eq_true_eq] at h
  rcases h with h | h <;> simp [Block.discardable,h]

section
variable (h : settle clean descs s b = .ok s')
include h

theorem settle_choose (hp : b.isPayload = true) : s' = choose s b := by
  simp only [Block.isPayload,Bool.or_eq_true,decide_eq_true_eq] at hp
  rcases hp with hp | hp
  · simp only [settle,hp] at h
    split at h <;> cases h
    simp [choose,hp]
  · simp only [settle,hp] at h
    split at h <;> cases h
    simp [choose,hp]

theorem settle_spared (hp : b.isPayload = false) : s'.kept = s.kept := by
  cases hτ : b.blktype with
  | alloc | update => simp [Block.isPayload,hτ] at hp
  | owned | init | reclaimed => simp only [settle,hτ] at h; cases h
  | delete | epoch => simp only [settle,hτ] at h; cases h; rfl
  | desc =>
    simp only [settle,hτ] at h
    cases h
    split <;> rfl

theorem settle_payload (hd : b.discardable = true) : b.isPayload = true := by
  cases hτ : b.blktype with
  | alloc | update => simp [Block.isPayload,hτ]
  | delete | epoch | desc => simp [Block.discardable,hτ] at hd
  | owned | init | reclaimed =>
    simp only [settle,hτ] at h
    cases h

end

theorem settle_dirty (s : Kept Block) (h : b.discardable = true → b.isPayload = true) :
    ∃ s', settle false descs s b = .ok s' := by
  cases hτ : b.blktype with
  | alloc | update | delete | epoch | desc => exact ⟨_,by simp [settle,hτ]; rfl⟩
  | owned | init | reclaimed =>
    have hp := h (by simp [Block.discardable,hτ])
    simp [Block.isPayload,hτ] at hp

section
variable (hf : Chooses live f)
include hf

theorem Chooses.keeps_from (h : Keeps Block.id s seen)
    (hs : part.foldlM f s = .ok s') : Keeps Block.id s' (seen ++ part.filter live) := by
  induction part generalizing s seen with
  | nil => cases hs; simpa using h
  | cons b _ ih =>
    obtain ⟨r,hb,hs⟩ := foldlM_cons_ok hs
    rcases hf s b r hb with ⟨hlive,rfl⟩ | ⟨hlive,hr⟩
    · rw [filter_cons_of_pos hlive]
      simpa using ih (choose_keeps h b) hs
    · rw [filter_cons_of_neg (by simp [hlive])]
      exact ih ⟨hr ▸ h.subset,hr ▸ h.unique,hr ▸ h.covers⟩ hs

theorem Chooses.keeps (hs : part.foldlM f ⟨[],[]⟩ = .ok s) :
    Keeps Block.id s (part.filter live) := by
  simpa using hf.keeps_from (nil_keeps []) hs

theorem Chooses.wins_from (h : Keeps Block.id s seen)
    (hs : part.foldlM f s = .ok s') (hw : w ∈ s.kept ∨ w ∈ part.filter live)
    (hold : Beats w seen) (hnew : Beats w (part.filter live)) : w ∈ s'.kept := by
  induction part generalizing s seen with
  | nil => cases hs; simpa using hw
  | cons b _ ih =>
    obtain ⟨r,hb,hs⟩ := foldlM_cons_ok hs
    rcases hf s b r hb with ⟨hlive,rfl⟩ | ⟨hlive,hr⟩
    · rw [filter_cons_of_pos hlive] at hw hnew
      refine ih (choose_keeps h b) hs ?_ ?_ ?_
      · by_cases hmem : w ∈ s.kept
        · exact .inl (hnew.choose_of_mem (by simp) h.unique hmem)
        · rcases mem_cons.mp (hw.resolve_left hmem) with heq | hw
          · subst heq
            exact .inl (hold.choose_self h)
          · exact .inr hw
      · intro z hz
        rcases mem_append.mp hz with hz | hz
        · exact hold z hz
        · exact hnew z (by simp [mem_singleton.mp hz])
      · exact fun z hz => hnew z (mem_cons_of_mem b hz)
    · rw [filter_cons_of_neg (by simp [hlive])] at hw hnew
      exact ih ⟨hr ▸ h.subset,hr ▸ h.unique,hr ▸ h.covers⟩ hs (hr ▸ hw) hold hnew

theorem Chooses.wins (hs : part.foldlM f ⟨[],[]⟩ = .ok s)
    (hw : w ∈ part.filter live) (hb : Beats w (part.filter live)) : w ∈ s.kept :=
  hf.wins_from (nil_keeps []) hs (.inr hw) (fun _ hy => by simp at hy) hb

theorem Chooses.start (hs : (y :: part).foldlM f ⟨[],[]⟩ = .ok s) (hlive : live y = true) :
    part.foldlM f (choose ⟨[],[]⟩ y) = .ok s ∧ y ∈ (choose ⟨[],[]⟩ y).kept := by
  obtain ⟨r,hy,hs⟩ := foldlM_cons_ok hs
  have hbeats : Beats y [] := fun _ hz => by simp at hz
  rcases hf _ y r hy with ⟨-,rfl⟩ | ⟨hdead,-⟩
  · exact ⟨hs,hbeats.choose_self (nil_keeps [])⟩
  · rw [hlive] at hdead
    cases hdead

theorem Chooses.first (hs : (y :: part).foldlM f ⟨[],[]⟩ = .ok s) (hlive : live y = true)
    (hnew : ∀ x ∈ part, live x = true → x.id = y.id → x.epoch ≤ y.epoch) : y ∈ s.kept := by
  obtain ⟨hs,hmem⟩ := hf.start hs hlive
  refine (foldlM_invariant f (fun s : Kept Block => (∃ seen, Keeps Block.id s seen) ∧ y ∈ s.kept)
    part _ s ⟨⟨_,choose_keeps (nil_keeps []) y⟩,hmem⟩ ?_ hs).2
  intro u u' b hb hu hstep
  obtain ⟨⟨seen,hkeeps⟩,hmem⟩ := hu
  rcases hf u b u' hstep with ⟨hblive,rfl⟩ | ⟨-,hu'⟩
  · refine ⟨⟨_,choose_keeps hkeeps b⟩,choose_of_mem hkeeps.unique hmem ?_⟩
    exact fun _ hk => hnew b hb hblive hk
  · exact ⟨⟨seen,hu' ▸ hkeeps.subset,hu' ▸ hkeeps.unique,hu' ▸ hkeeps.covers⟩,hu' ▸ hmem⟩

/-- An `ALLOC` block that comes after another live version of its id is not kept. -/
theorem Chooses.second (hs : (y :: w :: part).foldlM f ⟨[],[]⟩ = .ok s)
    (hlive : live y = true) (halloc : w.blktype = .alloc) (hid : w.id = y.id) (hne : w ≠ y)
    (hout : w ∉ part) : w ∉ s.kept := by
  obtain ⟨hs,hmem⟩ := hf.start hs hlive
  have hwr : w ∉ (choose ⟨[],[]⟩ y).kept := by
    intro hw
    rcases mem_choose hw with heq | hw
    · exact hne heq
    · simp at hw
  obtain ⟨u,hw,hs⟩ := foldlM_cons_ok hs
  have hwu : w ∉ u.kept := by
    rcases hf _ w u hw with ⟨-,rfl⟩ | ⟨-,hu⟩
    · rw [choose,if_pos halloc,keep_first_passes hmem hid.symm]
      exact hwr
    · rw [hu]
      exact hwr
  refine foldlM_invariant f (fun s : Kept Block => w ∉ s.kept) part u s hwu ?_ hs
  intro v v' b hb hv hstep hwv
  rcases hf v b v' hstep with ⟨-,rfl⟩ | ⟨-,hv'⟩
  · rcases mem_choose hwv with heq | hwv
    · exact hout (heq ▸ hb)
    · exact hv hwv
  · exact hv (hv' ▸ hwv)

end

theorem merge_keeps (hiter : ∀ l, (iter l).Perm l) {passes : List (Kept Block)}
    {vs : List (List Block)} (hpasses : Forall₂ (fun v s => Keeps Block.id s v) vs passes)
    (h : Keeps Block.id s seen) :
    Keeps Block.id (passes.foldl (merge iter) s) (seen ++ vs.flatten) := by
  induction hpasses generalizing s seen with
  | nil => simpa using h
  | @cons v l vs passes hl _ ih =>
    have hstart : Keeps Block.id ⟨s.kept,s.passed ++ l.passed⟩ seen := ⟨h.subset,h.unique,h.covers⟩
    have hfold : Keeps Block.id (merge iter s l) (seen ++ iter l.kept) :=
      foldl_keep_newest_keeps hstart (iter l.kept)
    have hnext : Keeps Block.id (merge iter s l) (seen ++ v) := by
      refine ⟨?_,hfold.unique,?_⟩
      · intro y hy
        rcases mem_append.mp (hfold.subset hy) with hy | hy
        · exact mem_append_left _ hy
        · exact mem_append_right _ (hl.subset ((hiter _).subset hy))
      · intro x hx
        rcases mem_append.mp hx with hx | hx
        · exact hfold.covers x (mem_append_left _ hx)
        · obtain ⟨y,hy,hk⟩ := hl.covers x hx
          obtain ⟨z,hz,hzk⟩ := hfold.covers y
            (mem_append_right _ ((hiter _).symm.subset hy))
          exact ⟨z,hz,hzk.trans hk⟩
    simpa using ih hnext

theorem merge_wins (hiter : ∀ l, (iter l).Perm l) {passes : List (Kept Block)}
    {vs : List (List Block)} (hpasses : Forall₂ (fun v s => Keeps Block.id s v) vs passes)
    (h : Keeps Block.id s seen) (hw : w ∈ s.kept ∨ ∃ l ∈ passes, w ∈ l.kept)
    (hold : Beats w seen) (hnew : Beats w vs.flatten) :
    w ∈ (passes.foldl (merge iter) s).kept := by
  induction hpasses generalizing s seen with
  | nil => simpa using hw
  | @cons v l vs passes hl hrest ih =>
    have hstart : Keeps Block.id ⟨s.kept,s.passed ++ l.passed⟩ seen := ⟨h.subset,h.unique,h.covers⟩
    have hnext := merge_keeps hiter (.cons hl .nil) h
    have hlast : Beats w (seen ++ v) := by
      intro y hy
      rcases mem_append.mp hy with hy | hy
      · exact hold y hy
      · exact hnew y (by simp [hy])
    refine ih (s := merge iter s l) (by simpa using hnext) ?_ hlast ?_
    · by_cases hhere : w ∈ s.kept ∨ w ∈ iter l.kept
      · left
        apply foldl_keep_newest_wins hstart (iter l.kept) hhere
        · exact fun x hx hk => (hold x hx hk).imp_right And.left
        · intro x hx hk
          exact (hnew x (by simp [hl.subset ((hiter _).subset hx)]) hk).imp_right And.left
      · rw [not_or] at hhere
        right
        obtain ⟨l',hl',hwl⟩ := hw.resolve_left hhere.1
        rcases mem_cons.mp hl' with heq | hl'
        · exact absurd ((hiter _).symm.subset (heq ▸ hwl)) hhere.2
        · exact ⟨l',hl',hwl⟩
    · exact fun y hy => hnew y (by
        rw [flatten_cons]
        exact mem_append_right _ hy)

theorem merge_single (hiter : ∀ l, (iter l).Perm l) (h : Keeps Block.id s seen) :
    y ∈ (merge iter ⟨[],[]⟩ s).kept ↔ y ∈ s.kept := by
  constructor
  · intro hy
    rcases mem_foldl_keep_newest _ hy with hy | hy
    · exact (hiter _).subset hy
    · simp at hy
  · intro hy
    apply foldl_keep_newest_wins (nil_keeps _) (iter s.kept) (.inr ((hiter _).symm.subset hy))
    · simp
    · intro x hx hk
      exact .inl (inj_on_of_nodup_map h.unique ((hiter _).subset hx) hy hk)

/-- The passes of the recovery threads, merged: one live version for every id that has
one, and the one that beats the others if there is such a version. -/
theorem Chooses.merged (hf : Chooses live f) (hiter : ∀ l, (iter l).Perm l)
    (h : parts.flatten.Perm blocks)
    (hpasses : Forall₂ (fun part s => part.foldlM f ⟨[],[]⟩ = .ok s) parts passes) :
    Keeps Block.id (passes.foldl (merge iter) ⟨[],[]⟩) (blocks.filter live) ∧
    ∀ w ∈ blocks.filter live, Beats w (blocks.filter live) →
      w ∈ (passes.foldl (merge iter) ⟨[],[]⟩).kept := by
  have hlive : ∀ b, b ∈ (parts.map (List.filter live)).flatten ↔ b ∈ blocks.filter live := by
    intro b
    rw [← filter_flatten]
    exact (h.filter _).mem_iff
  have hkeeps : Forall₂ (fun v s => Keeps Block.id s v) (parts.map (List.filter live)) passes :=
    forall₂_map_left_iff.mpr (hpasses.imp fun _ _ hs => hf.keeps hs)
  have hmerge := merge_keeps hiter hkeeps (nil_keeps [])
  rw [nil_append] at hmerge
  refine ⟨⟨fun b hb => (hlive b).mp (hmerge.subset hb),hmerge.unique,
    fun b hb => hmerge.covers b ((hlive b).mpr hb)⟩,?_⟩
  intro w hw hbeats
  refine merge_wins hiter hkeeps (nil_keeps []) ?_ (fun y hy => by simp at hy)
    fun y hy => hbeats y ((hlive y).mp hy)
  obtain ⟨hwb,hwl⟩ := mem_filter.mp hw
  obtain ⟨part,hpart,hwp⟩ := mem_flatten.mp (h.symm.subset hwb)
  obtain ⟨s,hsmem,hs⟩ := exists_of_mem_forall₂ hpasses.flip hpart
  refine .inr ⟨s,hsmem,hf.wins hs (mem_filter.mpr ⟨hwp,hwl⟩) ?_⟩
  intro y hy
  obtain ⟨hyp,hyl⟩ := mem_filter.mp hy
  exact hbeats y (mem_filter.mpr
    ⟨h.subset (mem_flatten.mpr ⟨part,hpart,hyp⟩),hyl⟩)

end Montage.Recover
