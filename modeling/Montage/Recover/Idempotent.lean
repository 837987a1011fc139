import Montage.Recover.Outcome
import Mathlib.Data.Finset.Max

namespace Montage.Recover.Blocking
open Library List

/-- A heap image as the system leaves one: every block has its own address, there is one
epoch container, and epochs count from `INIT_EPOCH`, with room for two more. -/
structure HeapImage (blocks : List Block) : Prop where
  addrs : (blocks.map Block.addr).Nodup
  container : (blocks.filter fun b => b.blktype = .epoch).length = 1
  epochs : ∀ b ∈ blocks, b.epoch = nullEpoch ∨ initEpoch ≤ b.epoch
  uint64 : maxEpoch blocks + 2 ≤ uint64Max

/-- What a second crash finds of a block: as it was before recovery, or with the store
that recovery made to it. -/
inductive Reaches (out : Recovered) (b : Block) : Block → Prop
  | old : Reaches out b b
  | reset (freed : b.reset ∈ out.freed) : Reaches out b b.reset
  | globalEpoch (container : b.blktype = .epoch) :
      Reaches out b { b with globalEpoch := out.globalEpoch }

/-- The same after the system has gone on: the container may have any later epoch. -/
inductive Aged (out : Recovered) (b : Block) : Block → Prop
  | same (reaches : Reaches out b b') : Aged out b b'
  | later (container : b.blktype = .epoch) (le : out.globalEpoch ≤ e) :
      Aged out b { b with globalEpoch := e }

/-- Blocks that were made after the first recovery, in memory of their own and with fresh
ids. -/
structure Made (blocks : List Block) (out : Recovered) (m : Nat) (new : List Block) : Prop where
  addrs : ∀ b ∈ new, b.addr ∉ blocks.map Block.addr
  types : ∀ b ∈ new, b.blktype ≠ .epoch ∧ b.blktype ≠ .owned
  unused : ∀ b ∈ new, b.blktype = .init ∨ b.blktype = .reclaimed →
    b.epoch = nullEpoch ∨ sub64 m 2 < b.epoch
  epochs : ∀ b ∈ new, b.epoch = nullEpoch ∨ out.globalEpoch ≤ b.epoch
  ids : ∀ b ∈ new, b.epoch ≠ nullEpoch → b.blktype ≠ .desc → ∀ c ∈ blocks, b.id ≠ c.id

/-- Recovery can be repeated: after a second crash it returns the same map, and after a
crash later on the same entries for the old blocks. -/
structure Repeatable (blocks : List Block) (out : Recovered) : Prop where
  again : ∀ blocks' iter parts₁ parts₂, Forall₂ (Reaches out) blocks blocks' →
    (∀ l, (iter l).Perm l) → parts₁.flatten.Perm blocks' → parts₂.flatten.Perm blocks' →
    ∃ out', recover false iter parts₁ parts₂ = .ok out' ∧
      ∀ i, out'.inUse.find? Block.id i = out.inUse.find? Block.id i
  later : ∀ blocks' new iter parts₁ parts₂, Forall₂ (Aged out) blocks blocks' →
    Made blocks out (maxEpoch (blocks' ++ new)) new → maxEpoch (blocks' ++ new) ≤ uint64Max →
    (∀ l, (iter l).Perm l) → parts₁.flatten.Perm (blocks' ++ new) →
    parts₂.flatten.Perm (blocks' ++ new) →
    ∃ out', recover false iter parts₁ parts₂ = .ok out' ∧ ∀ i b, b.addr ∈ blocks.map Block.addr →
      (out'.inUse.find? Block.id i = some b ↔ out.inUse.find? Block.id i = some b)

def versions (blocks : List Block) : List Block :=
  blocks.filter fun b => b.discardable && b.epoch ≠ nullEpoch

/-- Recovery has nothing to decide: no version is younger than two epochs before the epoch
in the container or has an anti-node, and the newest version of an id is an `UPDATE` block
or the only one. -/
structure Settled (blocks : List Block) : Prop where
  durable : ∀ b ∈ versions blocks, ∀ c ∈ blocks, c.blktype = .epoch → b.epoch + 2 ≤ c.reported
  undeleted : ∀ b ∈ versions blocks, ∀ d ∈ blocks, d.blktype = .delete → d.epoch ≠ nullEpoch →
    d.id ≠ b.id
  newest : ∀ b ∈ versions blocks, ∃ w ∈ versions blocks, w.id = b.id ∧ Beats w (versions blocks)

variable {blocks blocks' new : List Block} {out : Recovered} {b c : Block}
  {deletedIds : Finset Nat} {iter : List Block → List Block} {parts₁ parts₂ : List (List Block)}

theorem mem_versions : b ∈ versions blocks ↔
    b ∈ blocks ∧ b.discardable = true ∧ b.epoch ≠ nullEpoch := by
  simp [versions]

theorem candidate_version (hb : b ∈ blocks) (hc : candidate deletedIds epochCap b = true) :
    b ∈ versions blocks := by
  obtain ⟨hd,he,-,-⟩ := candidate_iff.mp hc
  exact mem_versions.mpr ⟨hb,hd,he⟩

section
variable (hi : HeapImage blocks)
include hi

theorem HeapImage.nodup : blocks.Nodup := Nodup.of_map _ hi.addrs

theorem HeapImage.eq_of_addr (hb : b ∈ blocks) (hc : c ∈ blocks) (h : b.addr = c.addr) : b = c :=
  inj_on_of_nodup_map hi.addrs hb hc h

theorem HeapImage.exists_container :
    ∃ c ∈ blocks, c.blktype = .epoch ∧ ∀ b ∈ blocks, b.blktype = .epoch → b = c := by
  obtain ⟨c,hc⟩ := length_eq_one_iff.mp hi.container
  obtain ⟨hmem,hepoch⟩ := mem_filter.mp (hc ▸ mem_singleton_self c)
  refine ⟨c,hmem,by simpa using hepoch,?_⟩
  intro b hb hbe
  have hb' : b ∈ blocks.filter fun b => b.blktype = .epoch := mem_filter.mpr ⟨hb,by simp [hbe]⟩
  rw [hc] at hb'
  exact mem_singleton.mp hb'

theorem HeapImage.container_eq (hb : b ∈ blocks) (hbe : b.blktype = .epoch)
    (hc : c ∈ blocks) (hce : c.blktype = .epoch) : b = c := by
  obtain ⟨x,-,-,hunique⟩ := hi.exists_container
  exact (hunique b hb hbe).trans (hunique c hc hce).symm

theorem Outcome.freed_iff (ho : Outcome blocks out deletedIds)
    (hb : b ∈ blocks) : b.reset ∈ out.freed ↔ b.blktype ≠ .epoch ∧ b ∉ out.inUse.kept := by
  have hvisited : ∀ x, x ∈ out.inUse.kept ∨ x ∈ out.inUse.passed ↔
      x ∈ blocks ∧ visited x = true := by
    intro x
    rw [← mem_append,ho.perm.mem_iff,mem_filter]
  have hdisjoint := disjoint_of_nodup_append
    (ho.perm.nodup_iff.mpr (hi.nodup.filter visited))
  rw [ho.freed.mem_iff,mem_map]
  constructor
  · intro h
    obtain ⟨x,hx,heq⟩ := h
    have haddr : x.addr = b.addr := (congrArg Block.addr heq : _)
    rcases mem_append.mp hx with hx | hx
    · obtain ⟨hxb,hxv⟩ := (hvisited x).mp (.inr hx)
      have hxb := hi.eq_of_addr hxb hb haddr
      subst hxb
      refine ⟨?_,fun hk => hdisjoint hk hx⟩
      intro hepoch
      simp [visited,hepoch] at hxv
    · obtain ⟨hxb,hdel⟩ := mem_filter.mp hx
      have hxb := hi.eq_of_addr hxb hb haddr
      subst hxb
      have hdel : x.blktype = .delete := by simpa using hdel
      refine ⟨by simp [hdel],?_⟩
      intro hk
      have hv := ((hvisited x).mp (.inl hk)).2
      simp [visited,hdel] at hv
  · intro h
    refine ⟨b,?_,rfl⟩
    by_cases hdel : b.blktype = .delete
    · exact mem_append_right _ (mem_filter.mpr ⟨hb,by simp [hdel]⟩)
    · have hv : visited b = true := by simp [visited,h.1,hdel]
      exact mem_append_left _ (((hvisited b).mpr ⟨hb,hv⟩).resolve_left h.2)

end

theorem Outcome.find_iff (ho : Outcome blocks out deletedIds) (i : Nat) (b : Block) :
    out.inUse.find? Block.id i = some b ↔ b ∈ out.inUse.kept ∧ b.id = i :=
  Kept.find?_iff ho.keeps.unique

theorem aged_cases (h : Aged out b x) : x = b ∨ x = b.reset ∧ b.reset ∈ out.freed ∨
    b.blktype = .epoch ∧ ∃ e, out.globalEpoch ≤ e ∧ x = { b with globalEpoch := e } := by
  cases h with
  | same h =>
    cases h with
    | old => exact .inl rfl
    | reset hf => exact .inr (.inl ⟨rfl,hf⟩)
    | globalEpoch hc => exact .inr (.inr ⟨hc,_,le_rfl,rfl⟩)
  | later hc hle => exact .inr (.inr ⟨hc,_,hle,rfl⟩)

theorem aged_same (h : Aged out b x) : x.addr = b.addr ∧ x.blktype = b.blktype ∧ x.id = b.id := by
  rcases aged_cases h with rfl | ⟨rfl,-⟩ | ⟨-,e,-,rfl⟩ <;> exact ⟨rfl,rfl,rfl⟩

theorem aged_unchanged (h : Aged out b x) (hx : x.blktype ≠ .epoch) (he : x.epoch ≠ nullEpoch) :
    x = b := by
  rcases aged_cases h with heq | ⟨rfl,-⟩ | ⟨hc,e,-,rfl⟩
  · exact heq
  · exact absurd rfl he
  · exact absurd hc hx

theorem discardable_not_epoch (h : b.discardable = true) : b.blktype ≠ .epoch := by
  intro hb
  simp [Block.discardable,hb] at h

section
variable (h : Forall₂ (Aged out) blocks blocks')
include h

theorem aged_version (hx : x ∈ versions blocks') : x ∈ versions blocks := by
  obtain ⟨hmem,hd,he⟩ := mem_versions.mp hx
  obtain ⟨b,hb,hage⟩ := exists_of_mem_forall₂ h hmem
  have hxb := aged_unchanged hage (discardable_not_epoch hd) he
  exact mem_versions.mpr ⟨hxb ▸ hb,hd,he⟩

theorem aged_delete (hx : x ∈ blocks')
    (hdel : x.blktype = .delete) (he : x.epoch ≠ nullEpoch) : x ∈ blocks := by
  obtain ⟨b,hb,hage⟩ := exists_of_mem_forall₂ h hx
  have hxb := aged_unchanged hage (by simp [hdel]) he
  exact hxb ▸ hb

theorem aged_addr (hx : x ∈ blocks') : x.addr ∈ blocks.map Block.addr := by
  obtain ⟨b,hb,hage⟩ := exists_of_mem_forall₂ h hx
  exact mem_map.mpr ⟨b,hb,(aged_same hage).1.symm⟩

end

theorem aged_kept (hi : HeapImage blocks) (ho : Outcome blocks out deletedIds)
    (h : Forall₂ (Aged out) blocks blocks') (hb : b ∈ out.inUse.kept) : b ∈ blocks' := by
  have hmem := (mem_filter.mp (ho.keeps.subset hb)).1
  have hlive := (mem_filter.mp (ho.keeps.subset hb)).2
  obtain ⟨x,hx,hage⟩ := exists_of_mem_forall₂ h.flip hmem
  rcases aged_cases hage with heq | ⟨-,hf⟩ | ⟨hc,-⟩
  · exact heq ▸ hx
  · exact absurd hb ((ho.freed_iff hi hmem).mp hf).2
  · exact absurd hc (by rcases (live_iff.mp hlive).1 with h | h <;> simp [h])

theorem aged_container (hi : HeapImage blocks) (ho : Outcome blocks out deletedIds)
    (h : Forall₂ (Aged out) blocks blocks') (hc : c ∈ blocks)
    (hepoch : c.blktype = .epoch) :
    ∃ c' ∈ blocks', c'.blktype = .epoch ∧ c.reported ≤ c'.reported := by
  obtain ⟨x,hx,hage⟩ := exists_of_mem_forall₂ h.flip hc
  refine ⟨x,hx,(aged_same hage).2.1.trans hepoch,?_⟩
  rcases aged_cases hage with rfl | ⟨rfl,hf⟩ | ⟨-,e,he,rfl⟩
  · exact le_rfl
  · exact absurd hepoch ((ho.freed_iff hi hc).mp hf).1
  · have hle := reported_le_max hc
    rw [← ho.globalEpoch] at hle
    simp only [Block.reported,hepoch,if_true] at hle ⊢
    omega

theorem reset_reported (b : Block) : b.reset.reported ≤ b.reported := by
  by_cases hb : b.blktype = .epoch
  · simp only [Block.reported,Block.reset,hb,if_true,nullEpoch]
    omega
  · simp [Block.reported,Block.reset,hb,nullEpoch]

theorem reaches_max (ho : Outcome blocks out deletedIds)
    (h : Forall₂ (Reaches out) blocks blocks') : maxEpoch blocks' ≤ maxEpoch blocks := by
  apply max_epoch_le
  intro x hx
  obtain ⟨b,hb,hr⟩ := exists_of_mem_forall₂ h hx
  have hle := reported_le_max hb
  cases hr with
  | old => exact hle
  | reset => exact le_trans (reset_reported b) hle
  | globalEpoch hc =>
    rw [ho.globalEpoch]
    simp only [Block.reported,hc,if_true] at hle ⊢
    omega

section
variable (hs : Settled blocks)
include hs

theorem Settled.candidate (hb : b ∈ versions blocks)
    (hm : ∃ c ∈ blocks, c.blktype = .epoch ∧ c.reported ≤ m) (h64 : m ≤ uint64Max)
    (hid : b.id ∉ deletedIds) : candidate deletedIds (sub64 m 2) b = true := by
  obtain ⟨-,hd,he⟩ := mem_versions.mp hb
  obtain ⟨c,hc,hepoch,hle⟩ := hm
  have hdurable := hs.durable b hb c hc hepoch
  have hcap : sub64 m 2 = m - 2 := by
    simp only [uint64Max] at h64
    exact sub64_of_le (by omega) (by omega)
  exact candidate_iff.mpr ⟨hd,he,by omega,hid⟩

theorem Settled.mem_live (hi : HeapImage blocks) (ho : Outcome blocks out deletedIds) :
    b ∈ blocks.filter (live deletedIds (sub64 (maxEpoch blocks) 2)) ↔ b ∈ versions blocks := by
  have h64 := hi.uint64
  rw [mem_filter,live_eq,Bool.and_eq_true]
  constructor
  · intro h
    exact candidate_version h.1 h.2.1
  · intro hb
    have hmem := (mem_versions.mp hb).1
    have hcand : Blocking.candidate deletedIds (sub64 (maxEpoch blocks) 2) b = true := by
      obtain ⟨c,hc,hepoch,-⟩ := hi.exists_container
      refine hs.candidate hb ⟨c,hc,hepoch,reported_le_max hc⟩ (by omega) ?_
      intro hid
      obtain ⟨d,hd,hdel,hde,hdid⟩ := ho.anti _ hid
      exact hs.undeleted b hb d hd hdel hde hdid
    exact ⟨hmem,hcand,ho.payload b hmem hcand⟩

theorem Settled.kept_iff (hi : HeapImage blocks) (ho : Outcome blocks out deletedIds) :
    b ∈ out.inUse.kept ↔ b ∈ versions blocks ∧ Beats b (versions blocks) := by
  have hwins : ∀ w ∈ versions blocks, Beats w (versions blocks) → w ∈ out.inUse.kept := by
    intro w hw hbeats
    exact ho.wins w ((hs.mem_live hi ho).mpr hw) fun y hy => hbeats y ((hs.mem_live hi ho).mp hy)
  constructor
  · intro hb
    have hv := (hs.mem_live hi ho).mp (ho.keeps.subset hb)
    obtain ⟨w,hw,hid,hbeats⟩ := hs.newest b hv
    have hwb : w = b := inj_on_of_nodup_map ho.keeps.unique (hwins w hw hbeats) hb hid
    exact ⟨hv,hwb ▸ hbeats⟩
  · exact fun h => hwins b h.1 h.2

theorem Settled.later (hi : HeapImage blocks)
    (ho : Outcome blocks out deletedIds) (haged : Forall₂ (Aged out) blocks blocks')
    (hmade : Made blocks out (maxEpoch (blocks' ++ new)) new)
    (h64 : maxEpoch (blocks' ++ new) ≤ uint64Max) (hiter : ∀ l, (iter l).Perm l)
    (h₁ : parts₁.flatten.Perm (blocks' ++ new)) (h₂ : parts₂.flatten.Perm (blocks' ++ new)) :
    ∃ out', recover false iter parts₁ parts₂ = .ok out' ∧ ∀ i b, b.addr ∈ blocks.map Block.addr →
      (out'.inUse.find? Block.id i = some b ↔ out.inUse.find? Block.id i = some b) := by
  obtain ⟨c,hc,hepoch,-⟩ := hi.exists_container
  obtain ⟨c',hc',hepoch',hle⟩ := aged_container hi ho haged hc hepoch
  have hm : ∃ c ∈ blocks, c.blktype = .epoch ∧ c.reported ≤ maxEpoch (blocks' ++ new) :=
    ⟨c,hc,hepoch,le_trans hle (reported_le_max (mem_append_left _ hc'))⟩
  have hpayload : ∀ b ∈ versions blocks, b.isPayload = true := by
    intro b hb
    have hlive := (mem_filter.mp ((hs.mem_live hi ho).mpr hb)).2
    rw [live_eq,Bool.and_eq_true] at hlive
    exact hlive.2
  obtain ⟨out',hout'⟩ := recover_dirty ⟨c',mem_append_left _ hc',hepoch'⟩ h₁ h₂ (by
    intro ids _ b hb hcand
    rcases mem_append.mp hb with hb | hb
    · exact hpayload b (aged_version haged (candidate_version hb hcand))
    · obtain ⟨hd,he,hcap,-⟩ := candidate_iff.mp hcand
      have htype := hmade.types b hb
      have hunused := hmade.unused b hb
      cases hτ : b.blktype with
      | alloc | update => simp [Block.isPayload,hτ]
      | delete | desc => simp [Block.discardable,hτ] at hd
      | epoch => exact absurd hτ htype.1
      | owned => exact absurd hτ htype.2
      | init | reclaimed =>
        rcases hunused (by simp [hτ]) with hnull | hlate
        · exact absurd hnull he
        · omega)
  obtain ⟨ids',ho'⟩ := recover_outcome hiter h₁ h₂ hout'
  -- what was returned is live in the later image, and nothing there beats it
  have hstays : ∀ b ∈ out.inUse.kept, b ∈ out'.inUse.kept := by
    intro b hb
    obtain ⟨hv,hbeats⟩ := (hs.kept_iff hi ho).mp hb
    have hmem := (mem_versions.mp hv).1
    have hid : b.id ∉ ids' := by
      intro hid
      obtain ⟨d,hd,hdel,hde,hdid⟩ := ho'.anti _ hid
      rcases mem_append.mp hd with hd | hd
      · exact hs.undeleted b hv d (aged_delete haged hd hdel hde) hdel hde hdid
      · exact hmade.ids d hd hde (by simp [hdel]) b hmem hdid
    have hcand := hs.candidate hv hm h64 hid
    apply ho'.wins
    · refine mem_filter.mpr ⟨mem_append_left _ (aged_kept hi ho haged hb),?_⟩
      rw [live_eq,hcand,hpayload b hv]
      rfl
    · intro y hy hyid
      obtain ⟨hyl,hylive⟩ := mem_filter.mp hy
      obtain ⟨htype,hye,-,-⟩ := live_iff.mp hylive
      rcases mem_append.mp hyl with hyb | hyn
      · rw [live_eq,Bool.and_eq_true] at hylive
        exact hbeats y (aged_version haged (candidate_version hyb hylive.1)) hyid
      · refine absurd hyid (hmade.ids y hyn hye ?_ b hmem)
        rcases htype with h | h <;> simp [h]
  refine ⟨out',hout',?_⟩
  intro i b haddr
  rw [ho.find_iff,ho'.find_iff]
  constructor
  · intro hb
    refine ⟨?_,hb.2⟩
    obtain ⟨hbl,hblive⟩ := mem_filter.mp (ho'.keeps.subset hb.1)
    rcases mem_append.mp hbl with hbb | hbn
    · rw [live_eq,Bool.and_eq_true] at hblive
      obtain ⟨w,hw,hid,hbeats⟩ := hs.newest b (aged_version haged
        (candidate_version hbb hblive.1))
      have hwk := (hs.kept_iff hi ho).mpr ⟨hw,hbeats⟩
      have hwb : w = b :=
        inj_on_of_nodup_map ho'.keeps.unique (hstays w hwk) hb.1 hid
      exact hwb ▸ hwk
    · exact absurd haddr (hmade.addrs b hbn)
  · exact fun hb => ⟨hstays b hb.1,hb.2⟩

theorem Settled.repeatable (hi : HeapImage blocks)
    (ho : Outcome blocks out deletedIds) : Repeatable blocks out where
  again := by
    intro blocks' iter parts₁ parts₂ hr hiter h₁ h₂
    have haged : Forall₂ (Aged out) blocks blocks' := hr.imp fun _ _ h => .same h
    have h64 : maxEpoch (blocks' ++ []) ≤ uint64Max := by
      have hmax := reaches_max ho hr
      have := hi.uint64
      rw [append_nil]
      omega
    have hmade : Made blocks out (maxEpoch (blocks' ++ [])) [] := by
      constructor <;> simp
    obtain ⟨out',hout',hfind⟩ := hs.later hi ho haged hmade h64 hiter (by simpa using h₁)
      (by simpa using h₂)
    obtain ⟨ids',ho'⟩ := recover_outcome hiter h₁ h₂ hout'
    refine ⟨out',hout',?_⟩
    intro i
    apply Option.ext
    intro b
    constructor
    · intro hb
      have hmem := (mem_filter.mp (ho'.keeps.subset ((ho'.find_iff i b).mp hb).1)).1
      exact (hfind i b (aged_addr haged hmem)).mp hb
    · intro hb
      have hmem := (mem_filter.mp (ho.keeps.subset ((ho.find_iff i b).mp hb).1)).1
      exact (hfind i b (mem_map_of_mem hmem)).mpr hb
  later := by
    intro blocks' new iter parts₁ parts₂ haged hmade h64 hiter h₁ h₂
    exact hs.later hi ho haged hmade h64 hiter h₁ h₂

end

/-- An image with the epoch `e` in the container, in which the blocks of `p` are reset. -/
def recast (e : Nat) (p : Block → Bool) (b : Block) : Block :=
  if b.blktype = .epoch then { b with globalEpoch := e } else if p b then b.reset else b

theorem recast_of_not (hb : b.blktype ≠ .epoch) (hp : p b = false) : recast e p b = b := by
  rw [recast,if_neg hb,if_neg (by simp [hp])]

theorem recast_max (hi : HeapImage blocks) (hle : maxEpoch blocks ≤ e) :
    maxEpoch (blocks.map (recast e p)) = e := by
  obtain ⟨c,hc,hepoch,-⟩ := hi.exists_container
  apply le_antisymm
  · apply max_epoch_le
    intro x hx
    obtain ⟨b,hb,rfl⟩ := mem_map.mp hx
    have hrep := le_trans (reported_le_max hb) hle
    unfold recast
    split
    next hbe =>
      simp only [Block.reported,hbe,if_true] at hrep ⊢
      omega
    next =>
      split
      · exact le_trans (reset_reported b) hrep
      · exact hrep
  · have hmem : recast e p c ∈ blocks.map (recast e p) := mem_map_of_mem hc
    refine le_trans ?_ (reported_le_max hmem)
    simp only [recast,hepoch,if_true,Block.reported]
    omega

theorem recast_cap (hi : HeapImage blocks) (p : Block → Bool) :
    sub64 (maxEpoch (blocks.map (recast (maxEpoch blocks + 2) p))) 2 = maxEpoch blocks := by
  have h64 := hi.uint64
  simp only [uint64Max] at h64
  rw [recast_max hi (by omega),sub64_of_le (by omega) (by omega)]
  omega

/-- Two epochs on, with any anti-nodes reset: every version is old enough by then. -/
theorem Repeatable.probe (hr : Repeatable blocks out) (hi : HeapImage blocks)
    (ho : Outcome blocks out deletedIds) (hp : ∀ b, p b = true → b.blktype = .delete)
    (hl : l.Perm (blocks.map (recast (maxEpoch blocks + 2) p))) :
    ∃ out' ids s, Outcome (blocks.map (recast (maxEpoch blocks + 2) p)) out' ids ∧
      secondPass false ids (maxEpoch blocks) l = .ok s ∧
      (∀ y, y ∈ out'.inUse.kept ↔ y ∈ s.kept) ∧
      ∀ y, y ∈ out'.inUse.kept ↔ y ∈ out.inUse.kept := by
  have hmax : maxEpoch (blocks.map (recast (maxEpoch blocks + 2) p)) = maxEpoch blocks + 2 :=
    recast_max hi (by omega)
  have h64 := hi.uint64
  have haged : Forall₂ (Aged out) blocks (blocks.map (recast (maxEpoch blocks + 2) p)) := by
    rw [forall₂_map_right_iff,forall₂_same]
    intro b hb
    unfold recast
    split
    next hepoch => exact .later hepoch (by rw [ho.globalEpoch]; omega)
    next hepoch =>
      split
      next hpb =>
        refine .same (.reset ((ho.freed_iff hi hb).mpr ⟨hepoch,?_⟩))
        intro hk
        obtain ⟨htype,-⟩ := live_iff.mp (mem_filter.mp (ho.keeps.subset hk)).2
        rw [hp b hpb] at htype
        simp at htype
      next => exact .same .old
  obtain ⟨out',hout',hfind⟩ := hr.later _ [] id [l] [l] haged
    (by constructor <;> simp) (by rw [append_nil,hmax]; exact h64) (fun l => .refl l)
    (by simpa using hl) (by simpa using hl)
  obtain ⟨ids,s,ho',hs,hkept⟩ := recover_single (fun l => .refl l) hl hl hout'
  rw [recast_cap hi p] at hs
  refine ⟨out',ids,s,ho',hs,hkept,?_⟩
  intro y
  constructor
  · intro hy
    have hmem := (mem_filter.mp (ho'.keeps.subset hy)).1
    have := (hfind y.id y (aged_addr haged hmem)).mp ((ho'.find_iff _ _).mpr ⟨hy,rfl⟩)
    exact ((ho.find_iff _ _).mp this).1
  · intro hy
    have hmem := (mem_filter.mp (ho.keeps.subset hy)).1
    have := (hfind y.id y (mem_map_of_mem hmem)).mpr ((ho.find_iff _ _).mpr ⟨hy,rfl⟩)
    exact ((ho'.find_iff _ _).mp this).1

theorem discardable_not_delete (h : b.discardable = true) : b.blktype ≠ .delete := by
  intro hb
  simp [Block.discardable,hb] at h

theorem recast_version (hp : ∀ b, p b = true → b.blktype = .delete) (hb : b.discardable = true) :
    recast e p b = b := by
  apply recast_of_not (discardable_not_epoch hb)
  cases hpb : p b with
  | false => rfl
  | true => exact absurd (hp b hpb) (discardable_not_delete hb)

theorem recast_type (e : Nat) (p : Block → Bool) (b : Block) :
    (recast e p b).blktype = b.blktype := by
  unfold recast
  split
  · rfl
  · split <;> rfl

theorem recast_addr (e : Nat) (p : Block → Bool) (b : Block) : (recast e p b).addr = b.addr := by
  unfold recast
  split
  · rfl
  · split <;> rfl

theorem mem_recast (hp : ∀ b, p b = true → b.blktype = .delete) (hb : b.discardable = true) :
    b ∈ blocks.map (recast e p) ↔ b ∈ blocks := by
  constructor
  · intro h
    obtain ⟨x,hx,rfl⟩ := mem_map.mp h
    have hxd : x.discardable = true := by
      simpa only [Block.discardable,recast_type] using hb
    rwa [recast_version hp hxd]
  · exact fun h => mem_map.mpr ⟨b,h,recast_version hp hb⟩

theorem recast_nodup (hi : HeapImage blocks) : (blocks.map (recast e p)).Nodup := by
  apply Nodup.of_map Block.addr
  rw [map_map]
  refine (map_congr_left ?_).symm ▸ hi.addrs
  exact fun b _ => recast_addr e p b

def antiNode (b : Block) : Bool := b.blktype = .delete

theorem probe_live (ho : Outcome (blocks.map (recast (maxEpoch blocks + 2) antiNode)) out' ids)
    (hi : HeapImage blocks) (hb : b.discardable = true) :
    b ∈ blocks.map (recast (maxEpoch blocks + 2) antiNode) ∧
      live ids (maxEpoch blocks) b = true ↔ b ∈ versions blocks := by
  have hp : ∀ b, antiNode b = true → b.blktype = .delete := by simp [antiNode]
  have hnone : ∀ i, i ∉ ids := by
    intro i hid
    obtain ⟨d,hd,hdel,hde,-⟩ := ho.anti i hid
    obtain ⟨x,-,rfl⟩ := mem_map.mp hd
    rw [recast_type] at hdel
    rw [recast,if_neg (by simp [hdel]),if_pos (by simp [antiNode,hdel])] at hde
    exact hde rfl
  rw [mem_recast hp hb,live_eq,Bool.and_eq_true,mem_versions]
  constructor
  · exact fun h => ⟨h.1,hb,(candidate_iff.mp h.2.1).2.1⟩
  · intro h
    have hcand : candidate ids (maxEpoch blocks) b = true :=
      candidate_iff.mpr ⟨hb,h.2.2,epoch_le_max h.1,hnone _⟩
    refine ⟨h.1,hcand,ho.payload b ((mem_recast hp hb).mpr h.1) ?_⟩
    rw [recast_cap hi antiNode]
    exact hcand

theorem live_discardable (h : live ids cap b = true) : b.discardable = true := by
  rw [live_eq,Bool.and_eq_true] at h
  exact (candidate_iff.mp h.1).1

section Necessary

variable (hr : Repeatable blocks out) (hi : HeapImage blocks) (ho : Outcome blocks out deletedIds)
include hr hi ho

theorem Repeatable.returned (hb : b ∈ versions blocks) :
    ∃ w ∈ out.inUse.kept, w.id = b.id ∧ w ∈ versions blocks := by
  obtain ⟨out',ids,s,ho',hs,hsame,hkept⟩ := hr.probe hi ho (by simp [antiNode])
    (.refl (blocks.map (recast (maxEpoch blocks + 2) antiNode)))
  have hkeeps := second_step_chooses.keeps hs
  have hlive := (probe_live ho' hi (mem_versions.mp hb).2.1).mpr hb
  obtain ⟨w,hw,hid⟩ := hkeeps.covers b (mem_filter.mpr hlive)
  have hwl := mem_filter.mp (hkeeps.subset hw)
  exact ⟨w,(hkept w).mp ((hsame w).mpr hw),hid,
    (probe_live ho' hi (live_discardable hwl.2)).mp hwl⟩

theorem Repeatable.older (hw : w ∈ out.inUse.kept) (hy : y ∈ versions blocks)
    (hid : y.id = w.id) (hne : y ≠ w) : y.epoch < w.epoch := by
  by_contra hge
  obtain ⟨z,hz,hmax⟩ := Finset.exists_max_image
    ((versions blocks).filter fun x => x.id = w.id ∧ x ≠ w).toFinset Block.epoch
    ⟨y,mem_toFinset.mpr (mem_filter.mpr ⟨hy,by simp [hid,hne]⟩)⟩
  simp only [mem_toFinset,mem_filter,decide_eq_true_eq] at hz hmax
  obtain ⟨hzv,hzid,hzne⟩ := hz
  have hzy := hmax y ⟨hy,hid,hne⟩
  have hzmem := (mem_recast (e := maxEpoch blocks + 2) (p := antiNode) (by simp [antiNode])
    (mem_versions.mp hzv).2.1).mpr (mem_versions.mp hzv).1
  obtain ⟨out',ids,s,ho',hs,hsame,hkept⟩ := hr.probe hi ho (by simp [antiNode])
    (perm_cons_erase hzmem).symm
  have hzs : z ∈ s.kept := by
    refine second_step_chooses.first hs
      ((probe_live ho' hi (mem_versions.mp hzv).2.1).mpr hzv).2 ?_
    intro x hx hlive hxid
    have hxv := (probe_live ho' hi (live_discardable hlive)).mp ⟨mem_of_mem_erase hx,hlive⟩
    by_cases hxw : x = w
    · rw [hxw]
      omega
    · exact hmax x ⟨hxv,hxid.trans hzid,hxw⟩
  exact hzne (inj_on_of_nodup_map ho.keeps.unique ((hkept z).mp ((hsame z).mpr hzs)) hw hzid)

/-- An `ALLOC` block would not be returned if another version came before it. -/
theorem Repeatable.update (hw : w ∈ out.inUse.kept) (hwv : w ∈ versions blocks)
    (hy : y ∈ versions blocks) (hid : y.id = w.id) (hne : y ≠ w) : w.blktype = .update := by
  have hp : ∀ b, antiNode b = true → b.blktype = .delete := by simp [antiNode]
  have hym := (mem_recast (e := maxEpoch blocks + 2) hp (mem_versions.mp hy).2.1).mpr
    (mem_versions.mp hy).1
  have hwm := (mem_recast (e := maxEpoch blocks + 2) hp (mem_versions.mp hwv).2.1).mpr
    (mem_versions.mp hwv).1
  have hwe : w ∈ (blocks.map (recast (maxEpoch blocks + 2) antiNode)).erase y :=
    (mem_erase_of_ne hne.symm).mpr hwm
  have hnodup := recast_nodup (e := maxEpoch blocks + 2) (p := antiNode) hi
  obtain ⟨out',ids,s,ho',hs,hsame,hkept⟩ := hr.probe hi ho hp
    ((perm_cons_erase hym).trans ((perm_cons_erase hwe).cons y)).symm
  have hlive := ((probe_live ho' hi (mem_versions.mp hy).2.1).mpr hy).2
  by_contra hnot
  have halloc : w.blktype = .alloc := by
    have hwl := ((probe_live ho' hi (mem_versions.mp hwv).2.1).mpr hwv).2
    exact (live_iff.mp hwl).1.resolve_right hnot
  have hout := second_step_chooses.second hs hlive halloc hid.symm hne.symm
    (List.Nodup.not_mem_erase (hnodup.erase y))
  exact hout ((hsame w).mp ((hkept w).mpr hw))

theorem Repeatable.newest (hb : b ∈ versions blocks) :
    ∃ w ∈ out.inUse.kept, w ∈ versions blocks ∧ w.id = b.id ∧ Beats w (versions blocks) := by
  obtain ⟨w,hw,hid,hwv⟩ := hr.returned hi ho hb
  refine ⟨w,hw,hwv,hid,?_⟩
  intro y hy hyid
  by_cases hne : y = w
  · exact .inl hne
  · exact .inr ⟨hr.older hi ho hw hy hyid hne,hr.update hi ho hw hwv hy hyid hne⟩

theorem Repeatable.undeleted (hb : b ∈ versions blocks) (hd : d ∈ blocks)
    (hdel : d.blktype = .delete) (hde : d.epoch ≠ nullEpoch) : d.id ≠ b.id := by
  intro hid
  obtain ⟨w,hw,hwid,-⟩ := hr.returned hi ho hb
  obtain ⟨out',ids,s,ho',-,-,hkept⟩ := hr.probe hi ho (p := fun _ => false) (by simp) (.refl _)
  have hmax : maxEpoch (blocks.map (recast (maxEpoch blocks + 2) fun _ => false)) =
      maxEpoch blocks + 2 := recast_max hi (by omega)
  have hdeleted : w.id ∈ ids := by
    apply ho'.late
    · exact ⟨d,mem_map.mpr ⟨d,hd,recast_of_not (by simp [hdel]) rfl⟩,hdel,hde,
        hid.trans hwid.symm⟩
    · intro n hn hndel hlate
      obtain ⟨x,hx,rfl⟩ := mem_map.mp hn
      rw [recast_type] at hndel
      rw [recast_of_not (by simp [hndel]) rfl,hmax] at hlate
      have hle := epoch_le_max hx
      have h64 := hi.uint64
      simp only [uint64Max] at h64
      rw [sub64_of_le (by omega) (by omega)] at hlate
      omega
  have hlive := (mem_filter.mp (ho'.keeps.subset ((hkept w).mpr hw))).2
  exact (live_iff.mp hlive).2.2.2 hdeleted

omit hr in
theorem remnant_reaches (hc : c ∈ blocks) (hepoch : c.blktype = .epoch) :
    Forall₂ (Reaches out) blocks
      (blocks.map (recast c.globalEpoch fun b => decide (b ∉ out.inUse.kept))) := by
  rw [forall₂_map_right_iff,forall₂_same]
  intro x hx
  unfold recast
  split
  next hxe => rw [hi.container_eq hx hxe hc hepoch]; exact .old
  next hxe =>
    split
    next hout => exact .reset ((ho.freed_iff hi hx).mpr ⟨hxe,by simpa using hout⟩)
    next => exact .old

omit hr ho in
theorem remnant_max (hc : c ∈ blocks) (hepoch : c.blktype = .epoch)
    (hmax : ∀ x ∈ out.inUse.kept, x.epoch ≤ m) :
    maxEpoch (blocks.map (recast c.globalEpoch fun b => decide (b ∉ out.inUse.kept))) ≤
      max c.reported m := by
  apply max_epoch_le
  intro x hx
  obtain ⟨y,hy,rfl⟩ := mem_map.mp hx
  unfold recast
  split
  next hye =>
    rw [hi.container_eq hy hye hc hepoch]
    simp only [Block.reported,hepoch,if_true]
    omega
  next hye =>
    split
    next => simp [Block.reported,Block.reset,hye,nullEpoch]
    next hkept =>
      have hyk := hmax y (by simpa using hkept)
      simp only [Block.reported,if_neg hye]
      omega

theorem Repeatable.durable (hb : b ∈ versions blocks) (hc : c ∈ blocks)
    (hepoch : c.blktype = .epoch) : b.epoch + 2 ≤ c.reported := by
  obtain ⟨w,hw,hwv,hwid,hbeats⟩ := hr.newest hi ho hb
  obtain ⟨k,hk,hmax⟩ := Finset.exists_max_image out.inUse.kept.toFinset Block.epoch
    ⟨w,mem_toFinset.mpr hw⟩
  simp only [mem_toFinset] at hk hmax
  have hle : b.epoch ≤ k.epoch := by
    have hwk := hmax w hw
    rcases hbeats b hb hwid.symm with heq | hlt
    · rw [heq]
      exact hwk
    · omega
  have hreach := remnant_reaches hi ho hc hepoch
  have hbound := remnant_max hi hc hepoch hmax
  generalize blocks.map (recast c.globalEpoch fun b => decide (b ∉ out.inUse.kept)) = image
    at hreach hbound
  have hself : [image].flatten.Perm image := by simp
  obtain ⟨out',hout',hfind⟩ := hr.again image id [image] [image] hreach (fun l => .refl l)
    hself hself
  obtain ⟨ids,ho'⟩ := recover_outcome (fun l => .refl l) hself hself hout'
  -- the newest entry is returned again, so it is below the new cut-off
  have hk' : k ∈ out'.inUse.kept := by
    have hf : out'.inUse.find? Block.id k.id = some k :=
      (hfind k.id).trans ((ho.find_iff _ _).mpr ⟨hk,rfl⟩)
    exact ((ho'.find_iff _ _).mp hf).1
  obtain ⟨hkmem,hklive⟩ := mem_filter.mp (ho'.keeps.subset hk')
  have hcap := (live_iff.mp hklive).2.2.1
  have hkmax := epoch_le_max hkmem
  have hk3 : initEpoch ≤ k.epoch :=
    (hi.epochs k (mem_filter.mp (ho.keeps.subset hk)).1).resolve_left
      (live_iff.mp hklive).2.1
  have h64 := reaches_max ho hreach
  have h64' := hi.uint64
  by_contra hlt
  simp only [initEpoch,uint64Max] at hk3 h64'
  rw [sub64_of_le (by omega) (by omega)] at hcap
  omega

theorem Repeatable.settled : Settled blocks where
  durable := fun _ hb _ hc hepoch => hr.durable hi ho hb hc hepoch
  undeleted := fun _ hb _ hd hdel hde => hr.undeleted hi ho hb hd hdel hde
  newest := by
    intro b hb
    obtain ⟨w,-,hw,hid,hbeats⟩ := hr.newest hi ho hb
    exact ⟨w,hw,hid,hbeats⟩

end Necessary

/-- Recovery can be repeated after a second crash exactly when it had nothing to decide:
whatever it discards or keeps by a decision can come out the other way. -/
theorem recovery_repeatable_iff (hi : HeapImage blocks) (hiter : ∀ l, (iter l).Perm l)
    (h₁ : parts₁.flatten.Perm blocks) (h₂ : parts₂.flatten.Perm blocks)
    (h : recover clean iter parts₁ parts₂ = .ok out) :
    Repeatable blocks out ↔ Settled blocks := by
  obtain ⟨deletedIds,ho⟩ := recover_outcome hiter h₁ h₂ h
  exact ⟨fun hr => hr.settled hi ho,fun hs => hs.repeatable hi ho⟩

/-- Two versions of id 7, both old enough for the epoch in the container. -/
theorem recovery_repeatable_newest :
    ∃ out, recover false id
        [[⟨0,.epoch,0,0,0,0,9,false⟩,⟨1,.alloc,3,7,0,0,0,false⟩],[⟨2,.update,5,7,0,0,0,false⟩]]
        [[⟨0,.epoch,0,0,0,0,9,false⟩,⟨1,.alloc,3,7,0,0,0,false⟩],[⟨2,.update,5,7,0,0,0,false⟩]] =
        .ok out ∧
      Repeatable [⟨0,.epoch,0,0,0,0,9,false⟩,⟨1,.alloc,3,7,0,0,0,false⟩,
        ⟨2,.update,5,7,0,0,0,false⟩] out := by
  refine exists_ok rfl fun hrec => ?_
  refine (recovery_repeatable_iff ?_ (fun l => .refl l) (by decide) (by decide) hrec).mpr ?_
  · constructor <;> decide
  · constructor <;> decide

/-- The epoch in the container lags behind. Recovery derives the epoch from a block of epoch
7 and returns the payload of epoch 5. It resets the block of epoch 7, and if only that
reaches memory before the next crash, the payload is too young to be returned again. -/
theorem recovery_not_repeatable :
    HeapImage [⟨0,.epoch,0,0,0,0,5,false⟩,⟨1,.alloc,5,7,0,0,0,false⟩,⟨2,.alloc,7,8,0,0,0,false⟩] ∧
    ∃ out, recover false id
        [[⟨0,.epoch,0,0,0,0,5,false⟩,⟨1,.alloc,5,7,0,0,0,false⟩,⟨2,.alloc,7,8,0,0,0,false⟩]]
        [[⟨0,.epoch,0,0,0,0,5,false⟩,⟨1,.alloc,5,7,0,0,0,false⟩,⟨2,.alloc,7,8,0,0,0,false⟩]] =
        .ok out ∧
      out.inUse.find? Block.id 7 = some ⟨1,.alloc,5,7,0,0,0,false⟩ ∧
      Forall₂ (Reaches out)
        [⟨0,.epoch,0,0,0,0,5,false⟩,⟨1,.alloc,5,7,0,0,0,false⟩,⟨2,.alloc,7,8,0,0,0,false⟩]
        [⟨0,.epoch,0,0,0,0,5,false⟩,⟨1,.alloc,5,7,0,0,0,false⟩,⟨2,.alloc,0,8,0,0,0,false⟩] ∧
      ∃ out', recover false id
          [[⟨0,.epoch,0,0,0,0,5,false⟩,⟨1,.alloc,5,7,0,0,0,false⟩,⟨2,.alloc,0,8,0,0,0,false⟩]]
          [[⟨0,.epoch,0,0,0,0,5,false⟩,⟨1,.alloc,5,7,0,0,0,false⟩,⟨2,.alloc,0,8,0,0,0,false⟩]] =
          .ok out' ∧
        out'.inUse.find? Block.id 7 = none := by
  refine ⟨?_,_,rfl,rfl,?_,_,rfl,rfl⟩
  · constructor <;> decide
  · refine .cons .old (.cons .old (.cons (.reset ?_) .nil))
    decide

end Montage.Recover.Blocking
