import Montage.Recover.Choice
import Montage.Recover.Nonblocking
import Mathlib.Data.Finset.Max

namespace Montage.Recover.Nonblocking
open Library List

variable (blocks : List Block)

/-- A heap image with one epoch container, and a descriptor for every thread that occurs. -/
structure Described : Prop extends Image blocks where
  nodup : blocks.Nodup
  container : (blocks.filter fun b => b.blktype = .epoch).length = 1
  described : ∀ b ∈ blocks, b.blktype ≠ .epoch →
    ∃ d ∈ blocks, d.blktype = .desc ∧ d.tid = b.tid

/-- In addition no id has two anti-nodes, or two versions of one epoch. -/
structure Distinct : Prop extends Described blocks where
  antiNodes : ∀ d ∈ blocks, ∀ d' ∈ blocks, d.blktype = .delete → d'.blktype = .delete →
    d.id = d'.id → d = d'
  versions : ∀ b ∈ blocks, ∀ b' ∈ blocks, b.isPayload → b'.isPayload → b.epoch ≠ nullEpoch →
    b.id = b'.id → b.epoch = b'.epoch → b = b'

def candidate (deletedIds : Finset Nat) (cap : Nat) (b : Block) : Bool :=
  b.discardable && b.epoch ≠ nullEpoch && b.epoch ≤ cap && b.id ∉ deletedIds &&
    Registered blocks b

def live (deletedIds : Finset Nat) (cap : Nat) (b : Block) : Bool :=
  candidate blocks deletedIds cap b && b.isPayload

/-- The ids whose deletion is durable and belongs to a committed transaction. -/
def deletions : Finset Nat :=
  ((blocks.map Block.id).filter fun i => Deleted blocks i).toFinset

def Live (b : Block) : Prop := Mature blocks b ∧ ¬ Deleted blocks b.id

instance (b : Block) : Decidable (Live blocks b) :=
  inferInstanceAs (Decidable (_ ∧ _))

def Acceptable : Prop :=
  ∀ b ∈ blocks, candidate blocks (deletions blocks) (sub64 (maxEpoch blocks) 2) b = true →
    b.isPayload = true

/-- Of several versions of an id that are in use the newest is no `ALLOC` block. -/
def NewestUpdates : Prop :=
  ∀ w y, Live blocks w → Live blocks y → y.id = w.id → y.epoch < w.epoch → w.blktype = .alloc →
    ∃ z, Live blocks z ∧ z.id = w.id ∧ w.epoch < z.epoch

/-- Recovery does not depend on how the blocks were handed out and when the threads ran:
all of them filter with the cut-off of the whole heap, and the map is the one that a
single thread computes. -/
structure Independent (iter : List Block → List Block) (seen : Nat → Nat)
    (parts₁ parts₂ : List (List Block)) : Prop where
  cutOff : ∀ r < parts₁.length,
    epochCap seen (parts₁.map firstPass) r = sub64 (maxEpoch blocks) 2
  returns : ∀ iter' seen' l1 l2, (∀ l, (iter' l).Perm l) → l1.Perm blocks → l2.Perm blocks →
    ((∃ out, recover false iter seen parts₁ parts₂ = .ok out) ↔
      ∃ out', recover false iter' seen' [l1] [l2] = .ok out')
  same : ∀ iter' seen' l1 l2 out out', (∀ l, (iter' l).Perm l) → l1.Perm blocks →
    l2.Perm blocks → recover false iter seen parts₁ parts₂ = .ok out →
    recover false iter' seen' [l1] [l2] = .ok out' →
    ∀ i, out.inUse.find? Block.id i = out'.inUse.find? Block.id i

variable {blocks part : List Block} {descs : Nat → Option Block} {deletedIds : Finset Nat}
  {cap : Nat} {b n : Block} {s s' : Kept Block} {clean : Bool}

theorem candidate_iff : candidate blocks deletedIds cap b = true ↔
    b.discardable = true ∧ b.epoch ≠ nullEpoch ∧ b.epoch ≤ cap ∧ b.id ∉ deletedIds ∧
      Registered blocks b := by
  simp [candidate,and_assoc]

theorem live_iff : live blocks deletedIds cap b = true ↔
    b.isPayload = true ∧ b.epoch ≠ nullEpoch ∧ b.epoch ≤ cap ∧ b.id ∉ deletedIds ∧
      Registered blocks b := by
  rw [live,Bool.and_eq_true,candidate_iff]
  constructor
  · intro h
    exact ⟨h.2,h.1.2⟩
  · intro h
    exact ⟨⟨discardable_of_payload h.1,h.2⟩,h.1⟩

theorem mem_deletions : i ∈ deletions blocks ↔ Deleted blocks i := by
  simp only [deletions,mem_toFinset,mem_filter,decide_eq_true_eq,
    and_iff_right_iff_imp]
  intro h
  obtain ⟨d,hd,-,hid,-⟩ := h
  exact mem_map.mpr ⟨d,hd,hid⟩

theorem mem_live : b ∈ blocks.filter (live blocks (deletions blocks) (sub64 (maxEpoch blocks) 2)) ↔
    Live blocks b := by
  rw [mem_filter,live_iff,mem_deletions]
  constructor
  · intro h
    obtain ⟨hb,hp,he,hcap,hid,hreg⟩ := h
    exact ⟨⟨hb,hp,he,hcap,hreg⟩,hid⟩
  · intro h
    obtain ⟨⟨hb,hp,he,hcap,hreg⟩,hid⟩ := h
    exact ⟨hb,hp,he,hcap,hid,hreg⟩

section SecondPass
variable (hi : Image blocks)
  (hdescs : ∀ t d, descs t = some d ↔ d ∈ blocks ∧ d.blktype = .desc ∧ d.tid = t)
include hi hdescs

theorem second_step_ok (h : secondStep clean deletedIds cap descs s b = .ok s') :
    b.discardable = true ∧ candidate blocks deletedIds cap b = false ∧ s' = s.pass b ∨
    (b.discardable = true → candidate blocks deletedIds cap b = true) ∧
      settle clean false s b = .ok s' := by
  unfold secondStep at h
  split at h
  next hd =>
    split at h
    next hout =>
      cases h
      refine .inl ⟨hd,?_,rfl⟩
      rw [← Bool.not_eq_true,candidate_iff]
      intro hc
      simp only [Bool.or_eq_true,decide_eq_true_eq] at hout
      rcases hout with (hnull | hlate) | hdel
      · exact hc.2.1 hnull
      · exact not_le.mpr hlate hc.2.2.1
      · exact hc.2.2.2.1 hdel
    next hin =>
      simp only [Bool.or_eq_true,decide_eq_true_eq,not_or,not_lt] at hin
      cases hr : unregistered descs b with
      | error => simp only [hr,bind,Except.bind] at h; cases h
      | ok =>
        have hreg := unregistered_iff hi hdescs hr
        simp only [hr,bind,Except.bind] at h
        split at h
        next hun =>
          cases h
          refine .inl ⟨hd,?_,rfl⟩
          rw [← Bool.not_eq_true,candidate_iff]
          exact fun hc => hreg.mp hun hc.2.2.2.2
        next hun =>
          refine .inr ⟨fun _ => candidate_iff.mpr ⟨hd,hin.1.1,hin.1.2,hin.2,?_⟩,h⟩
          by_contra hnot
          exact hun (hreg.mpr hnot)
  next hd => exact .inr ⟨fun hd' => absurd hd' hd,h⟩

theorem second_step_chooses : Chooses (live blocks deletedIds cap)
    (secondStep clean deletedIds cap descs) := by
  intro s b s' h
  rcases second_step_ok hi hdescs h with ⟨-,hc,rfl⟩ | ⟨hc,hs⟩
  · exact .inr ⟨by simp [live,hc],rfl⟩
  · cases hp : b.isPayload with
    | true =>
      exact .inl ⟨by simp [live,hp,hc (discardable_of_payload hp)],settle_choose hs hp⟩
    | false => exact .inr ⟨by simp [live,hp],settle_spared hs hp⟩

theorem second_pass_payload (h : secondPass clean deletedIds cap descs part = .ok s)
    (hb : b ∈ part) (hc : candidate blocks deletedIds cap b = true) : b.isPayload = true := by
  obtain ⟨_,_,hs⟩ := foldlM_step_of_mem h hb
  rcases second_step_ok hi hdescs hs with ⟨-,hnot,-⟩ | ⟨-,hs⟩
  · rw [hc] at hnot
    cases hnot
  · exact settle_payload hs (candidate_iff.mp hc).1

end SecondPass

section Total
variable (hd : Described blocks)
  (hdescs : ∀ t d, descs t = some d ↔ d ∈ blocks ∧ d.blktype = .desc ∧ d.tid = t)
include hd hdescs

theorem unregistered_total (hb : b ∈ blocks) (hne : b.blktype ≠ .epoch) :
    ∃ r, unregistered descs b = .ok r := by
  obtain ⟨d,hmem,hdesc,ht⟩ := hd.described b hb hne
  have hsome := (hdescs b.tid d).mpr ⟨hmem,hdesc,ht⟩
  exact ⟨_,by rw [unregistered,hsome]⟩

theorem remove_premature_total (l : FirstPass)
    (hl : ∀ n ∈ l.scan.antiNodesLocal, n ∈ blocks ∧ n.blktype = .delete) :
    ∃ ids, removePremature cap descs l = .ok ids := by
  obtain ⟨ids,hids,-⟩ := foldlM_total (fun (ids : Finset Nat) n => do
    if ← premature cap descs n then return ids.erase n.id else return ids) (fun _ _ => True)
    l.scan.antiNodesLocal [] l.scan.deletedIdsLocal trivial (by
      intro _ ids n hn _
      have hr : ∃ r, premature cap descs n = .ok r := by
        unfold premature
        split
        · exact ⟨_,rfl⟩
        · exact unregistered_total hd hdescs (hl n hn).1 (by simp [(hl n hn).2])
      obtain ⟨r,hr⟩ := hr
      simp only [hr,bind,Except.bind]
      cases r <;> exact ⟨_,rfl,trivial⟩)
  exact ⟨ids,hids⟩

theorem second_pass_dirty (hpart : part ⊆ blocks)
    (hc : ∀ b ∈ part, candidate blocks deletedIds cap b = true → b.isPayload = true) :
    ∃ s, secondPass false deletedIds cap descs part = .ok s := by
  obtain ⟨s,hs,-⟩ := foldlM_total (secondStep false deletedIds cap descs) (fun _ _ => True) part []
    ⟨[],[]⟩ trivial (by
      intro _ s b hb _
      unfold secondStep
      split
      next hdis =>
        split
        next => exact ⟨_,rfl,trivial⟩
        next hin =>
          have hne : b.blktype ≠ .epoch := by
            intro hepoch
            simp [Block.discardable,hepoch] at hdis
          obtain ⟨r,hr⟩ := unregistered_total hd hdescs (hpart hb) hne
          have hreg := unregistered_iff hd.toImage hdescs hr
          simp only [hr,bind,Except.bind]
          split
          next => exact ⟨_,rfl,trivial⟩
          next hun =>
            simp only [Bool.or_eq_true,decide_eq_true_eq,not_or,not_lt] at hin
            have hcand : candidate blocks deletedIds cap b = true :=
              candidate_iff.mpr ⟨hdis,hin.1.1,hin.1.2,hin.2,by
                by_contra hnot
                exact hun (hreg.mpr hnot)⟩
            obtain ⟨s',hs'⟩ := settle_dirty s fun _ => hc b hb hcand
            exact ⟨s',hs',trivial⟩
      next hdis =>
        obtain ⟨s',hs'⟩ := settle_dirty s fun hd' => absurd hd' hdis
        exact ⟨s',hs',trivial⟩)
  exact ⟨s,hs⟩

end Total

variable {parts₁ parts₂ : List (List Block)} {seen : Nat → Nat} {iter : List Block → List Block}

theorem antinodes_local (hpart : part ⊆ blocks) :
    ∀ n ∈ (firstPass part).scan.antiNodesLocal, n ∈ blocks ∧ n.blktype = .delete := by
  intro n hn
  rw [(first_pass_scan part).antiNodes] at hn
  obtain ⟨hmem,hdel⟩ := mem_filter.mp hn
  exact ⟨hpart hmem,by simpa using hdel⟩

theorem sets_total (hd : Described blocks) (h₁ : parts₁.flatten.Perm blocks) (seen : Nat → Nat) :
    ∃ sets, (parts₁.map firstPass).zipIdx.mapM (fun l => removePremature
      (epochCap seen (parts₁.map firstPass) l.2) (mergedDescs (parts₁.map firstPass)) l.1) =
      .ok sets := by
  have hsub : ∀ part ∈ parts₁, part ⊆ blocks := fun part hpart b hb =>
    h₁.subset (mem_flatten.mpr ⟨part,hpart,hb⟩)
  obtain ⟨sets,hsets,-⟩ := mapM_total (fun l : FirstPass × Nat => removePremature
      (epochCap seen (parts₁.map firstPass) l.2) (mergedDescs (parts₁.map firstPass)) l.1)
      (fun _ _ => True) (parts₁.map firstPass).zipIdx (by
    intro l hl
    obtain ⟨part,hpart,heq⟩ := mem_map.mp (fst_mem_of_mem_zipIdx hl)
    obtain ⟨ids,hids⟩ := remove_premature_total hd (fun t d => merged_descs_iff hd.toImage h₁) l.1
      (heq ▸ antinodes_local (hsub part hpart))
    exact ⟨ids,hids,trivial⟩)
  exact ⟨sets,hsets⟩

theorem recover_of_passes (hd : Described blocks) (h₁ : parts₁.flatten.Perm blocks)
    (hsets : (parts₁.map firstPass).zipIdx.mapM (fun l => removePremature
      (epochCap seen (parts₁.map firstPass) l.2) (mergedDescs (parts₁.map firstPass)) l.1) =
      .ok sets)
    (hpasses : (parts₂.zipIdx.mapM fun part => secondPass clean (sets.foldl (· ∪ ·) ∅)
      (epochCap seen (parts₁.map firstPass) part.2) (mergedDescs (parts₁.map firstPass)) part.1) =
      .ok passes) :
    ∃ out, recover clean iter seen parts₁ parts₂ = .ok out := by
  obtain ⟨c,hc⟩ := length_eq_one_iff.mp hd.container
  obtain ⟨hmem,hepoch⟩ := mem_filter.mp (hc ▸ mem_singleton_self c)
  obtain ⟨part,hpart,hcp⟩ := mem_flatten.mp (h₁.symm.subset hmem)
  have hcont : ((parts₁.map firstPass).any fun l => l.scan.container) = true := by
    rw [any_eq_true]
    exact ⟨_,mem_map_of_mem hpart,
      (first_pass_scan part).container.mpr ⟨c,hcp,by simpa using hepoch⟩⟩
  simp only [recover,hcont,if_true,hsets,hpasses,bind,Except.bind]
  exact ⟨_,rfl⟩

section Capped
variable (hd : Distinct blocks) (hiter : ∀ l, (iter l).Perm l) (h₁ : parts₁.flatten.Perm blocks)
  (h₂ : parts₂.flatten.Perm blocks) (hlen : parts₂.length = parts₁.length)
  (hcap : ∀ r < parts₁.length,
    epochCap seen (parts₁.map firstPass) r = sub64 (maxEpoch blocks) 2)

include hcap

include hlen in
theorem passes_capped (hids : deletedIds = deletions blocks) :
    (parts₂.zipIdx.mapM fun part => secondPass clean deletedIds
      (epochCap seen (parts₁.map firstPass) part.2) (mergedDescs (parts₁.map firstPass)) part.1) =
    parts₂.mapM (secondPass clean (deletions blocks) (sub64 (maxEpoch blocks) 2)
      (mergedDescs (parts₁.map firstPass))) := by
  apply mapM_zipIdx
  intro p hp
  obtain ⟨hr,-⟩ := mem_zipIdx' hp
  rw [hids,hcap p.2 (by omega)]

include hd h₁

/-- At the cut-off of the whole heap the only anti-node of an id decides. -/
theorem witnessed_iff (i : Nat) : Witnessed blocks seen parts₁ i ↔ Deleted blocks i := by
  constructor
  · intro h
    obtain ⟨⟨p,r⟩,hp,⟨d,hdp,hdel,hnull,hid⟩,hnone⟩ := h
    obtain ⟨hr,hget⟩ := mem_zipIdx' hp
    have hpart : p ∈ parts₁ := by rw [hget]; exact getElem_mem _
    have hkeep := hnone d hdp hdel hid
    simp only [← epoch_cap_eq,hcap r hr,Premature,not_or,not_not,not_lt] at hkeep
    exact ⟨d,h₁.subset (mem_flatten.mpr ⟨p,hpart,hdp⟩),hdel,hid,hnull,hkeep⟩
  · intro h
    obtain ⟨d,hmem,hdel,hid,hnull,hkeep⟩ := h
    obtain ⟨p,hpart,hdp⟩ := mem_flatten.mp (h₁.symm.subset hmem)
    obtain ⟨r,hr,hget⟩ := mem_iff_getElem.mp hpart
    refine ⟨⟨p,r⟩,mk_mem_zipIdx_iff_getElem?.mpr (by simp [hr,hget]),
      ⟨d,hdp,hdel,hnull,hid⟩,?_⟩
    intro n hn hndel hnid
    have hn := h₁.subset (mem_flatten.mpr ⟨p,hpart,hn⟩)
    rw [hd.antiNodes n hn d hmem hndel hdel (hnid.trans hid.symm)]
    simp only [← epoch_cap_eq,hcap r hr,Premature,not_or,not_not,not_lt]
    exact hkeep

include hlen

theorem recover_passes (h : recover clean iter seen parts₁ parts₂ = .ok out) :
    ∃ passes, Forall₂ (fun part s => part.foldlM (secondStep clean (deletions blocks)
        (sub64 (maxEpoch blocks) 2) (mergedDescs (parts₁.map firstPass))) ⟨[],[]⟩ = .ok s)
        parts₂ passes ∧
      out.inUse = passes.foldl (merge iter) ⟨[],[]⟩ := by
  obtain ⟨sets,passes,-,-,hpasses,hinUse⟩ := recover_ok h
  have hids : out.deletedIds = deletions blocks := by
    ext i
    rw [deleted_iff_witnessed hd.toImage h₁ h,witnessed_iff hd h₁ hcap,mem_deletions]
  rw [passes_capped hlen hcap hids] at hpasses
  exact ⟨passes,mapM_forall₂ _ _ _ hpasses,hinUse⟩

include h₂

theorem recover_returns_iff :
    (∃ out, recover false iter seen parts₁ parts₂ = .ok out) ↔ Acceptable blocks := by
  have hdescs : ∀ t d, mergedDescs (parts₁.map firstPass) t = some d ↔
      d ∈ blocks ∧ d.blktype = .desc ∧ d.tid = t := fun t d => merged_descs_iff hd.toImage h₁
  constructor
  · intro h b hb hc
    obtain ⟨out,h⟩ := h
    obtain ⟨passes,hpasses,-⟩ := recover_passes hd h₁ hlen hcap h
    obtain ⟨part,hpart,hbp⟩ := mem_flatten.mp (h₂.symm.subset hb)
    obtain ⟨s,-,hs⟩ := exists_of_mem_forall₂ hpasses.flip hpart
    exact second_pass_payload hd.toImage hdescs hs hbp hc
  · intro hacc
    obtain ⟨sets,hsets⟩ := sets_total hd.toDescribed h₁ seen
    have hids : sets.foldl (· ∪ ·) ∅ = deletions blocks := by
      ext i
      rw [merged_iff_witnessed hd.toImage h₁ hsets,witnessed_iff hd h₁ hcap,mem_deletions]
    obtain ⟨passes,hpasses,-⟩ := mapM_total (secondPass false (deletions blocks)
        (sub64 (maxEpoch blocks) 2) (mergedDescs (parts₁.map firstPass))) (fun _ _ => True)
        parts₂ (by
      intro part hpart
      have hpb : part ⊆ blocks := fun b hb => h₂.subset (mem_flatten.mpr ⟨part,hpart,hb⟩)
      obtain ⟨s,hs⟩ := second_pass_dirty hd.toDescribed hdescs hpb fun b hb => hacc b (hpb hb)
      exact ⟨s,hs,trivial⟩)
    rw [← passes_capped hlen hcap hids] at hpasses
    exact recover_of_passes hd.toDescribed h₁ hsets hpasses

include hiter

theorem recover_keeps (h : recover clean iter seen parts₁ parts₂ = .ok out) :
    Keeps Block.id out.inUse
      (blocks.filter (live blocks (deletions blocks) (sub64 (maxEpoch blocks) 2))) ∧
    ∀ w, Live blocks w →
      Beats w (blocks.filter (live blocks (deletions blocks) (sub64 (maxEpoch blocks) 2))) →
      w ∈ out.inUse.kept := by
  obtain ⟨passes,hpasses,hinUse⟩ := recover_passes hd h₁ hlen hcap h
  have hmerged := (second_step_chooses hd.toImage fun t d => merged_descs_iff hd.toImage h₁).merged
    hiter h₂ hpasses
  rw [hinUse]
  exact ⟨hmerged.1,fun w hw => hmerged.2 w (mem_live.mpr hw)⟩

end Capped

theorem Distinct.eq_of_live (hd : Distinct blocks) (hw : Live blocks w) (hy : Live blocks y)
    (hid : y.id = w.id) (he : y.epoch = w.epoch) : y = w :=
  hd.versions y hy.1.1 w hw.1.1 hy.1.2.1 hw.1.2.1 hy.1.2.2.1 hid he

theorem exists_newest (hb : Live blocks b) :
    ∃ w, Live blocks w ∧ w.id = b.id ∧ ∀ y, Live blocks y → y.id = b.id → y.epoch ≤ w.epoch := by
  have hmem : ∀ y, y ∈ (blocks.filter fun y => Live blocks y ∧ y.id = b.id).toFinset ↔
      Live blocks y ∧ y.id = b.id := by
    intro y
    simp only [mem_toFinset,mem_filter,decide_eq_true_eq,and_iff_right_iff_imp]
    exact fun h => h.1.1.1
  obtain ⟨w,hw,hmax⟩ := Finset.exists_max_image _ Block.epoch ⟨b,(hmem b).mpr ⟨hb,rfl⟩⟩
  obtain ⟨hlive,hid⟩ := (hmem w).mp hw
  exact ⟨w,hlive,hid,fun y hy hyid => hmax y ((hmem y).mpr ⟨hy,hyid⟩)⟩

/-- If it is no `ALLOC` block, the newest version wins in whatever order they come. -/
theorem NewestUpdates.beats (hn : NewestUpdates blocks) (hd : Distinct blocks)
    (hb : Live blocks b) : ∃ w, Live blocks w ∧ w.id = b.id ∧
      Beats w (blocks.filter (live blocks (deletions blocks) (sub64 (maxEpoch blocks) 2))) := by
  obtain ⟨w,hw,hid,hmax⟩ := exists_newest hb
  refine ⟨w,hw,hid,?_⟩
  intro y hy hyid
  have hy := mem_live.mp hy
  have hle := hmax y hy (hyid.trans hid)
  rcases lt_or_eq_of_le hle with hlt | heq
  · right
    have hp := hw.1.2.1
    simp only [Block.isPayload,Bool.or_eq_true,decide_eq_true_eq] at hp
    refine ⟨hlt,hp.resolve_left ?_⟩
    intro halloc
    obtain ⟨z,hz,hzid,hlt⟩ := hn w y hw hy hyid hlt halloc
    have := hmax z hz (hzid.trans hid)
    omega
  · exact .inl (hd.eq_of_live hw hy hyid heq)

theorem single_capped (seen : Nat → Nat) (h : l.Perm blocks) :
    ∀ r < [l].length, epochCap seen ([l].map firstPass) r = sub64 (maxEpoch blocks) 2 := by
  intro r _
  rw [epoch_cap_eq]
  simp [max_epoch_perm h]

theorem recover_single (hd : Distinct blocks) (hiter : ∀ l, (iter l).Perm l)
    (hl1 : l1.Perm blocks) (h : recover clean iter seen [l1] [l2] = .ok out) :
    ∃ s, l2.foldlM (secondStep clean (deletions blocks) (sub64 (maxEpoch blocks) 2)
        (mergedDescs ([l1].map firstPass))) ⟨[],[]⟩ = .ok s ∧
      ∀ y, y ∈ out.inUse.kept ↔ y ∈ s.kept := by
  have hflat : [l1].flatten.Perm blocks := by simpa using hl1
  have hlen : [l2].length = [l1].length := rfl
  obtain ⟨passes,hpasses,hinUse⟩ := recover_passes hd hflat hlen (single_capped seen hl1) h
  cases hpasses with
  | cons hs hnil =>
    cases hnil
    rw [hinUse]
    exact ⟨_,hs,fun y => merge_single hiter ((second_step_chooses hd.toImage
      fun t d => merged_descs_iff hd.toImage hflat).keeps hs)⟩

/-- The order in which a single thread visits two versions decides which one it keeps. -/
theorem Independent.newest (hind : Independent blocks iter seen parts₁ parts₂)
    (hd : Distinct blocks) (h₁ : parts₁.flatten.Perm blocks) (h₂ : parts₂.flatten.Perm blocks)
    (hlen : parts₂.length = parts₁.length) (hacc : Acceptable blocks) : NewestUpdates blocks := by
  intro w y hw hy hid hlt halloc
  by_contra hnot
  have hle : ∀ z, Live blocks z → z.id = w.id → z.epoch ≤ w.epoch := by
    intro z hz hzid
    by_contra hz'
    exact hnot ⟨z,hz,hzid,by omega⟩
  have hne : w ≠ y := by
    intro heq
    rw [heq] at hlt
    omega
  have hreturns : ∃ out, recover false iter seen parts₁ parts₂ = .ok out :=
    (recover_returns_iff hd h₁ h₂ hlen hind.cutOff).mpr hacc
  obtain ⟨out,hout⟩ := hreturns
  have hsingle : ∀ l : List Block, l.Perm blocks →
      ∃ s, l.foldlM (secondStep false (deletions blocks) (sub64 (maxEpoch blocks) 2)
          (mergedDescs ([blocks].map firstPass))) ⟨[],[]⟩ = .ok s ∧
        (w ∈ s.kept ↔ out.inUse.find? Block.id w.id = some w) := by
    intro l hl
    have hid : ∀ l : List Block, (id l).Perm l := fun l => .refl l
    obtain ⟨out',hout'⟩ := (hind.returns id seen blocks l hid (.refl _) hl).mp ⟨out,hout⟩
    obtain ⟨s,hs,hkept⟩ := recover_single hd hid (.refl _) hout'
    have hlen : [l].length = [blocks].length := rfl
    have hkeeps := (recover_keeps hd hid (by simp) (by simpa using hl) hlen
      (single_capped seen (.refl _)) hout').1
    refine ⟨s,hs,?_⟩
    rw [← hkept,hind.same id seen blocks l out out' hid (.refl _) hl hout hout',
      Kept.find?_iff hkeeps.unique]
    simp
  have hchooses : Chooses (live blocks (deletions blocks) (sub64 (maxEpoch blocks) 2))
      (secondStep false (deletions blocks) (sub64 (maxEpoch blocks) 2)
        (mergedDescs ([blocks].map firstPass))) :=
    second_step_chooses hd.toImage fun t d => merged_descs_iff hd.toImage (by simp)
  -- visited first the newest version is kept, visited second it is not
  have hperm := perm_cons_erase hw.1.1
  obtain ⟨s,hs,hfind⟩ := hsingle _ hperm.symm
  have hkept : w ∈ s.kept := hchooses.first hs (mem_filter.mp (mem_live.mpr hw)).2
    fun x hx hlive hxid => hle x (mem_live.mp (mem_filter.mpr
      ⟨hperm.symm.subset (mem_cons_of_mem _ hx),hlive⟩)) hxid
  have hye : y ∈ blocks.erase w := (mem_erase_of_ne (Ne.symm hne)).mpr hy.1.1
  have hperm' : (y :: w :: (blocks.erase w).erase y).Perm blocks :=
    (List.Perm.swap w y _).trans (((perm_cons_erase hye).symm.cons w).trans hperm.symm)
  obtain ⟨s',hs',hfind'⟩ := hsingle _ hperm'
  refine hchooses.second hs' (mem_filter.mp (mem_live.mpr hy)).2 halloc hid.symm hne ?_
    (hfind'.mpr (hfind.mp hkept))
  have hnodup := hperm'.nodup_iff.mpr hd.nodup
  simp only [nodup_cons,mem_cons,not_or] at hnodup
  exact hnodup.2.1

theorem sub64_inj {x y : Nat} (hx : x ≤ uint64Max) (hy : y ≤ uint64Max)
    (h : sub64 x 2 = sub64 y 2) : x = y := by
  simp only [sub64,uint64Max] at *
  omega

/-- Recovery is independent of the schedule exactly when every thread computes its cut-off
after a thread with a block of the maximal epoch has reported, and among several versions
of an id the newest is an `UPDATE` block. -/
theorem schedule_independent_iff (hd : Distinct blocks) (hiter : ∀ l, (iter l).Perm l)
    (h₁ : parts₁.flatten.Perm blocks) (h₂ : parts₂.flatten.Perm blocks)
    (hlen : parts₂.length = parts₁.length) :
    Independent blocks iter seen parts₁ parts₂ ↔
      (∀ r < parts₁.length, maxEpoch (parts₁.take (seen r + 1)).flatten = maxEpoch blocks) ∧
      (Acceptable blocks → NewestUpdates blocks) := by
  constructor
  · intro hind
    refine ⟨?_,hind.newest hd h₁ h₂ hlen⟩
    intro r hr
    have hcap := hind.cutOff r hr
    rw [epoch_cap_eq] at hcap
    have hsub : (parts₁.take (seen r + 1)).flatten ⊆ blocks := by
      intro x hx
      obtain ⟨q,hq,hxq⟩ := mem_flatten.mp hx
      exact h₁.subset (mem_flatten.mpr ⟨q,mem_of_mem_take hq,hxq⟩)
    exact sub64_inj (le_trans (max_epoch_mono hsub) hd.uint64) hd.uint64 hcap
  · intro h
    obtain ⟨hmax,hnewest⟩ := h
    have hcap : ∀ r < parts₁.length,
        epochCap seen (parts₁.map firstPass) r = sub64 (maxEpoch blocks) 2 := by
      intro r hr
      rw [epoch_cap_eq,hmax r hr]
    refine ⟨hcap,?_,?_⟩
    · intro iter' seen' l1 l2 hiter' hl1 hl2
      have hlen' : [l2].length = [l1].length := rfl
      rw [recover_returns_iff hd h₁ h₂ hlen hcap,recover_returns_iff hd (by simpa using hl1)
        (by simpa using hl2) hlen' (single_capped seen' hl1)]
    · intro iter' seen' l1 l2 out out' hiter' hl1 hl2 hout hout' i
      have hlen' : [l2].length = [l1].length := rfl
      have hn := hnewest ((recover_returns_iff hd h₁ h₂ hlen hcap).mp ⟨out,hout⟩)
      obtain ⟨hkeeps,hwins⟩ := recover_keeps hd hiter h₁ h₂ hlen hcap hout
      obtain ⟨hkeeps',hwins'⟩ := recover_keeps hd hiter' (by simpa using hl1)
        (by simpa using hl2) hlen' (single_capped seen' hl1) hout'
      refine hkeeps.find_eq hkeeps' ?_ i
      intro b hb
      obtain ⟨w,hw,hid,hbeats⟩ := hn.beats hd (mem_live.mp hb)
      exact ⟨w,hid,hwins w hw hbeats,hwins' w hw hbeats⟩

/-- Two threads that both see the container's epoch before they compute their cut-off. -/
theorem schedule_independent_two :
    Independent [⟨0,.epoch,0,0,0,0,9,false⟩,⟨1,.desc,0,0,1,5,0,true⟩,⟨2,.alloc,3,7,1,1,0,false⟩,
        ⟨3,.update,5,7,1,2,0,false⟩] id (fun _ => 1)
      [[⟨1,.desc,0,0,1,5,0,true⟩,⟨2,.alloc,3,7,1,1,0,false⟩],
        [⟨0,.epoch,0,0,0,0,9,false⟩,⟨3,.update,5,7,1,2,0,false⟩]]
      [[⟨1,.desc,0,0,1,5,0,true⟩,⟨2,.alloc,3,7,1,1,0,false⟩],
        [⟨0,.epoch,0,0,0,0,9,false⟩,⟨3,.update,5,7,1,2,0,false⟩]] := by
  have hd : Distinct [⟨0,.epoch,0,0,0,0,9,false⟩,⟨1,.desc,0,0,1,5,0,true⟩,
      ⟨2,.alloc,3,7,1,1,0,false⟩,⟨3,.update,5,7,1,2,0,false⟩] := by
    refine ⟨⟨⟨?_,?_⟩,?_,?_,?_⟩,?_,?_⟩ <;> decide
  refine (schedule_independent_iff hd (fun l => .refl l) (by decide) (by decide) rfl).mpr
    ⟨by decide,fun _ => ?_⟩
  intro w y hw _ _ _ halloc
  obtain ⟨⟨hmem,-⟩,-⟩ := hw
  simp only [mem_cons,not_mem_nil,or_false] at hmem
  rcases hmem with rfl | rfl | rfl | rfl
  · cases halloc
  · cases halloc
  · exact ⟨⟨3,.update,5,7,1,2,0,false⟩,by decide,rfl,by decide⟩
  · cases halloc

/-- Thread 0 computes its cut-off while only its own maximum has been reported, and gives
up a payload that a single thread returns. -/
theorem schedule_dependent :
    ∃ out out',
      recover false id id
        [[⟨1,.desc,0,0,1,5,0,true⟩,⟨2,.alloc,3,7,1,1,0,false⟩],[⟨0,.epoch,0,0,0,0,9,false⟩]]
        [[⟨1,.desc,0,0,1,5,0,true⟩,⟨2,.alloc,3,7,1,1,0,false⟩],[⟨0,.epoch,0,0,0,0,9,false⟩]] =
        .ok out ∧
      recover false id id
        [[⟨1,.desc,0,0,1,5,0,true⟩,⟨2,.alloc,3,7,1,1,0,false⟩,⟨0,.epoch,0,0,0,0,9,false⟩]]
        [[⟨1,.desc,0,0,1,5,0,true⟩,⟨2,.alloc,3,7,1,1,0,false⟩,⟨0,.epoch,0,0,0,0,9,false⟩]] =
        .ok out' ∧
      out.inUse.find? Block.id 7 = none ∧
      out'.inUse.find? Block.id 7 = some ⟨2,.alloc,3,7,1,1,0,false⟩ :=
  ⟨_,_,rfl,rfl,rfl,rfl⟩

end Montage.Recover.Nonblocking
