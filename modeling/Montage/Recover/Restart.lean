import Montage.Recover.Schedule

namespace Montage.Recover.Nonblocking
open Library List

/-- The global epoch after `nbEpochSys::init`: recovery adopts the container it finds with
the epoch stored there, and `reset` only stores one into a container of its own. -/
def startEpoch (blocks : List Block) : Nat :=
  match blocks.find? fun b => b.blktype = .epoch with
  | some c => c.globalEpoch
  | none => initEpoch

/-- What operations that start in epoch `g` or later rely on when they use a recovered
payload. -/
structure Operable (g : Nat) (b : Block) : Prop where
  older : b.epoch + 2 ≤ g
  access : ∀ (h : Heap) (c : Nat), g ≤ c → (h b.addr).epoch = b.epoch →
    EpochSys.validateAccess h b.addr c ≠ .error .oldSeeNew
  retire : ∀ (h : Heap) (a : Addr) (c tid sn : Nat), g ≤ c → (h b.addr).epoch = b.epoch →
    NbEpochSys.prepareRetirePblk h a b.addr c tid sn ≠ .error .oldSeeNew
  survives : ∀ m, g ≤ m → m ≤ uint64Max → b.epoch ≤ sub64 m 2

theorem operable_of_older (h : b.epoch + 2 ≤ g) : Operable g b where
  older := h
  access := by
    intro heap c hc he
    unfold EpochSys.validateAccess
    have hle : ¬ (heap b.addr).epoch > c := by omega
    split <;> simp
  retire := by
    intro heap a c tid sn hc he
    have hle : ¬ (heap b.addr).epoch > c := by omega
    rw [NbEpochSys.prepareRetirePblk,if_neg hle]
    simp
  survives := by
    intro m hm h64
    simp only [sub64,uint64Max] at *
    omega

variable {blocks part l : List Block} {parts : List (List Block)} {seen : Nat → Nat}
  {iter : List Block → List Block} {b y : Block} {clean : Bool}

theorem mem_recovered (hi : Image blocks) (hiter : ∀ l, (iter l).Perm l)
    (hp : parts.flatten.Perm blocks) (h : recover clean iter seen parts parts = .ok out)
    (hb : b ∈ out.inUse.kept) :
    ∃ p ∈ parts.zipIdx, b ∈ p.1 ∧
      live blocks out.deletedIds (epochCap seen (parts.map firstPass) p.2) b = true := by
  obtain ⟨sets,passes,-,-,hpasses,hinUse⟩ := recover_ok h
  rw [hinUse] at hb
  rcases mem_merge hiter passes hb with hb | ⟨s,hs,hb⟩
  · simp at hb
  · obtain ⟨p,hp',hsecond⟩ := exists_of_mem_forall₂ (mapM_forall₂ _ _ _ hpasses) hs
    have hkeeps := (second_step_chooses hi fun t d => merged_descs_iff hi hp).keeps hsecond
    exact ⟨p,hp',mem_filter.mp (hkeeps.subset hb)⟩

/-- Whatever the schedule, recovery returns versions that are durable and committed. -/
theorem recovered_mature (hi : Image blocks)
    (hepochs : ∀ b ∈ blocks, b.epoch = nullEpoch ∨ initEpoch ≤ b.epoch)
    (hiter : ∀ l, (iter l).Perm l) (hseen : ∀ r, r ≤ seen r) (hp : parts.flatten.Perm blocks)
    (h : recover clean iter seen parts parts = .ok out) (hb : b ∈ out.inUse.kept) :
    Mature blocks b := by
  obtain ⟨⟨part,r⟩,hpr,hbp,hlive⟩ := mem_recovered hi hiter hp h hb
  obtain ⟨hr,hget⟩ := mem_zipIdx' hpr
  obtain ⟨hpayload,hnull,hcap,-,hreg⟩ := live_iff.mp hlive
  have hpart : part ∈ parts := by rw [hget]; exact getElem_mem _
  have hmem : b ∈ blocks := hp.subset (mem_flatten.mpr ⟨part,hpart,hbp⟩)
  refine ⟨hmem,hpayload,hnull,?_,hreg⟩
  have hbseen : b ∈ (parts.take (seen r + 1)).flatten := by
    refine mem_flatten.mpr ⟨part,?_,hbp⟩
    rw [mem_take_iff_getElem]
    refine ⟨r,?_,hget.symm⟩
    have := hseen r
    simp only [lt_min_iff]
    omega
  have hsub : (parts.take (seen r + 1)).flatten ⊆ blocks := by
    intro x hx
    obtain ⟨q,hq,hxq⟩ := mem_flatten.mp hx
    exact hp.subset (mem_flatten.mpr ⟨q,mem_of_mem_take hq,hxq⟩)
  rw [epoch_cap_eq] at hcap
  have hmax := max_epoch_mono hsub
  have hbmax := epoch_le_max hbseen
  have hinit := (hepochs b hmem).resolve_left hnull
  have h64 := hi.uint64
  simp only [sub64,uint64Max,initEpoch] at *
  omega

/-- Every block but `b` has a thread of its own, and `b` the last one. -/
def staggered (l : List Block) (b : Block) : List (List Block) := l.map (fun x => [x]) ++ [[b]]

theorem staggered_flatten (l : List Block) (b : Block) : (staggered l b).flatten = l ++ [b] := by
  induction l with
  | nil => rfl
  | cons x l ih => simpa [staggered] using ih

theorem staggered_max (hl : l.Pairwise fun x y => x.reported ≤ y.reported)
    (hp : (part,r) ∈ (staggered l b).zipIdx) (hy : y ∈ part) (hne : y ≠ b) :
    maxEpoch ((staggered l b).take (r + 1)).flatten = y.reported := by
  obtain ⟨hr,hget⟩ := mem_zipIdx' hp
  have hlen : (staggered l b).length = l.length + 1 := by simp [staggered]
  rw [hlen] at hr
  have hlt : r < l.length := by
    by_contra hge
    have hlast : r = l.length := by omega
    subst hlast
    rw [hget] at hy
    simp [staggered] at hy
    exact hne hy
  have hyr : y = l[r] := by
    rw [hget] at hy
    simpa [staggered,getElem_append_left,hlt] using hy
  have htake : ((staggered l b).take (r + 1)).flatten = l.take (r + 1) := by
    have hle : r + 1 ≤ (l.map fun x => [x]).length := by
      rw [length_map]
      omega
    rw [staggered,take_append_of_le_length hle,← map_take]
    induction l.take (r + 1) with
    | nil => rfl
    | cons _ _ ih => simp [ih]
  rw [htake]
  apply le_antisymm
  · apply max_epoch_le
    intro x hx
    obtain ⟨k,hk,rfl⟩ := mem_take_iff_getElem.mp hx
    rw [hyr]
    rcases lt_or_eq_of_le (show k ≤ r by omega) with hkr | rfl
    · exact pairwise_iff_getElem.mp hl k r (by omega) hlt hkr
    · exact le_rfl
  · apply reported_le_max
    rw [hyr]
    exact mem_take_iff_getElem.mpr ⟨r,by omega,rfl⟩

theorem exists_sorted (l : List Block) :
    ∃ l' : List Block, l'.Perm l ∧ l'.Pairwise fun x y => x.reported ≤ y.reported := by
  refine ⟨l.mergeSort fun x y => decide (x.reported ≤ y.reported),mergeSort_perm _ _,?_⟩
  have h : (l.mergeSort fun x y => decide (x.reported ≤ y.reported)).Pairwise
      fun x y => decide (x.reported ≤ y.reported) = true :=
    pairwise_mergeSort (by intro a b c; simp; omega) (by intro a b; simp; omega) l
  simpa using h

section Staggered
variable (hd : Described blocks)
  (hepochs : ∀ b ∈ blocks, b.epoch = nullEpoch ∨ initEpoch ≤ b.epoch)
  (hl : l.Pairwise fun x y => x.reported ≤ y.reported)
  (hp : (staggered l b).flatten.Perm blocks)
include hd hepochs hl hp

theorem staggered_late (hpr : p ∈ (staggered l b).zipIdx) (hy : y ∈ p.1) (hne : y ≠ b)
    (htype : y.blktype ≠ .epoch) (hnull : y.epoch ≠ nullEpoch) :
    epochCap id ((staggered l b).map firstPass) p.2 < y.epoch := by
  have hyb : y ∈ blocks :=
    hp.subset (mem_flatten.mpr ⟨p.1,fst_mem_of_mem_zipIdx hpr,hy⟩)
  have he := (hepochs y hyb).resolve_left hnull
  have h64 := le_trans (epoch_le_max hyb) hd.uint64
  rw [epoch_cap_eq,id_eq,staggered_max hl hpr hy hne,Block.reported,if_neg htype]
  simp only [sub64,initEpoch,uint64Max] at *
  omega

theorem staggered_deletions (hb : b.isPayload = true)
    (h : ((staggered l b).map firstPass).zipIdx.mapM (fun l' => removePremature
      (epochCap id ((staggered l b).map firstPass) l'.2)
      (mergedDescs ((staggered l b).map firstPass)) l'.1) = .ok sets) :
    sets.foldl (· ∪ ·) ∅ = ∅ := by
  apply Finset.eq_empty_of_forall_notMem
  intro i hi
  obtain ⟨p,hpr,⟨d,hdp,hdel,hnull,hid⟩,hnone⟩ := (merged_iff_witnessed hd.toImage hp h).mp hi
  have hne : d ≠ b := by
    intro heq
    simp [← heq,Block.isPayload,hdel] at hb
  have hlt := staggered_late hd hepochs hl hp hpr hdp hne (by simp [hdel]) hnull
  rw [epoch_cap_eq] at hlt
  exact hnone d hdp hdel hid (.inl hlt)

theorem staggered_candidate (hpr : p ∈ (staggered l b).zipIdx) (hy : y ∈ p.1)
    (hc : candidate blocks ∅ (epochCap id ((staggered l b).map firstPass) p.2) y = true) :
    y = b := by
  obtain ⟨hdis,hnull,hcap,-,-⟩ := candidate_iff.mp hc
  by_contra hne
  have htype : y.blktype ≠ .epoch := by
    intro hepoch
    simp [Block.discardable,hepoch] at hdis
  have := staggered_late hd hepochs hl hp hpr hy hne htype hnull
  omega

theorem staggered_returns (hb : Mature blocks b) :
    ∃ out, recover false id id (staggered l b) (staggered l b) = .ok out ∧ out.deletedIds = ∅ := by
  obtain ⟨sets,hsets⟩ := sets_total hd hp id
  have hempty := staggered_deletions hd hepochs hl hp hb.2.1 hsets
  obtain ⟨passes,hpasses,-⟩ := mapM_total (fun part : List Block × Nat => secondPass false ∅
      (epochCap id ((staggered l b).map firstPass) part.2)
      (mergedDescs ((staggered l b).map firstPass)) part.1) (fun _ _ => True)
      (staggered l b).zipIdx (by
    intro p hpr
    have hsub : p.1 ⊆ blocks := fun y hy =>
      hp.subset (mem_flatten.mpr ⟨p.1,fst_mem_of_mem_zipIdx hpr,hy⟩)
    obtain ⟨s,hs⟩ := second_pass_dirty hd (fun t d => merged_descs_iff hd.toImage hp) hsub
      (fun y hy hc => staggered_candidate hd hepochs hl hp hpr hy hc ▸ hb.2.1)
    exact ⟨s,hs,trivial⟩)
  rw [← hempty] at hpasses
  have hreturns : ∃ out, recover false id id (staggered l b) (staggered l b) = .ok out :=
    recover_of_passes hd hp hsets hpasses
  obtain ⟨out,hout⟩ := hreturns
  refine ⟨out,hout,?_⟩
  obtain ⟨sets',-,hsets',hdeleted,-,-⟩ := recover_ok hout
  rw [hdeleted]
  exact staggered_deletions hd hepochs hl hp hb.2.1 hsets'

/-- The last thread sees the whole heap, so it keeps its version, and no other is kept. -/
theorem staggered_keeps (hb : Mature blocks b)
    (h : recover false id id (staggered l b) (staggered l b) = .ok out)
    (hids : out.deletedIds = ∅) : b ∈ out.inUse.kept := by
  obtain ⟨sets,passes,-,-,hpasses,hinUse⟩ := recover_ok h
  rw [hids] at hpasses
  have hkeeps : Forall₂ (fun v s => Keeps Block.id s v) ((staggered l b).zipIdx.map fun p =>
      p.1.filter (live blocks ∅ (epochCap id ((staggered l b).map firstPass) p.2))) passes :=
    forall₂_map_left_iff.mpr ((mapM_forall₂ _ _ _ hpasses).imp fun p s hs =>
      (second_step_chooses hd.toImage fun t d => merged_descs_iff hd.toImage hp).keeps hs)
  have honly : ∀ y ∈ ((staggered l b).zipIdx.map fun p =>
      p.1.filter (live blocks ∅ (epochCap id ((staggered l b).map firstPass) p.2))).flatten,
      y = b := by
    intro y hy
    obtain ⟨v,hv,hyv⟩ := mem_flatten.mp hy
    obtain ⟨p,hpr,rfl⟩ := mem_map.mp hv
    obtain ⟨hyp,hlive⟩ := mem_filter.mp hyv
    rw [live,Bool.and_eq_true] at hlive
    exact staggered_candidate hd hepochs hl hp hpr hyp hlive.1
  have hlast : b ∈ ((staggered l b).zipIdx.map fun p =>
      p.1.filter (live blocks ∅ (epochCap id ((staggered l b).map firstPass) p.2))).flatten := by
    have hpr : ([b],l.length) ∈ (staggered l b).zipIdx := by
      rw [mk_mem_zipIdx_iff_getElem?]
      simp [staggered]
    have hall : (staggered l b).take (l.length + 1) = staggered l b := by
      apply take_of_length_le
      simp [staggered]
    refine mem_flatten.mpr ⟨_,mem_map.mpr ⟨_,hpr,rfl⟩,mem_filter.mpr ⟨by simp,?_⟩⟩
    obtain ⟨-,hpayload,hnull,hcap,hreg⟩ := hb
    rw [live_iff,epoch_cap_eq,id_eq,hall,max_epoch_perm hp]
    exact ⟨hpayload,hnull,hcap,by simp,hreg⟩
  have hmerge := merge_keeps (fun l => .refl l) hkeeps (nil_keeps [])
  rw [nil_append] at hmerge
  obtain ⟨y,hy,-⟩ := hmerge.covers b hlast
  rw [hinUse]
  exact honly y (hmerge.subset hy) ▸ hy

end Staggered

/-- Every payload that recovery returns, in whatever schedule, can be operated on exactly
when the container's epoch is two ahead of all durable and committed versions. -/
theorem recovered_operable_iff (hd : Described blocks)
    (hepochs : ∀ b ∈ blocks, b.epoch = nullEpoch ∨ initEpoch ≤ b.epoch) :
    (∀ iter seen parts out, (∀ l, (iter l).Perm l) → (∀ r, r ≤ seen r) →
      parts.flatten.Perm blocks → recover false iter seen parts parts = .ok out →
      ∀ b ∈ out.inUse.kept, Operable (startEpoch blocks) b) ↔
    ∀ b, Mature blocks b → b.epoch + 2 ≤ startEpoch blocks := by
  constructor
  · intro h b hb
    obtain ⟨l,hperm,hl⟩ := exists_sorted (blocks.erase b)
    have hp : (staggered l b).flatten.Perm blocks := by
      rw [staggered_flatten]
      exact ((hperm.append_right [b]).trans perm_append_comm).trans
        (perm_cons_erase hb.1).symm
    obtain ⟨out,hout,hids⟩ := staggered_returns hd hepochs hl hp hb
    exact (h id id _ out (fun l => .refl l) (fun r => le_refl r) hp hout b
      (staggered_keeps hd hepochs hl hp hb hout hids)).older
  · intro h iter seen parts out hiter hseen hp hout b hb
    exact operable_of_older (h b (recovered_mature hd.toImage hepochs hiter hseen hp hout hb))

/-- The container's epoch has kept up with the versions. -/
theorem recovered_operable_current :
    ∃ out, recover false id id
        [[⟨0,.epoch,0,0,0,0,9,false⟩,⟨1,.desc,0,0,1,5,0,true⟩,⟨2,.alloc,3,7,1,1,0,false⟩]]
        [[⟨0,.epoch,0,0,0,0,9,false⟩,⟨1,.desc,0,0,1,5,0,true⟩,⟨2,.alloc,3,7,1,1,0,false⟩]] =
        .ok out ∧
      Operable 9 ⟨2,.alloc,3,7,1,1,0,false⟩ := by
  have hd : Described [⟨0,.epoch,0,0,0,0,9,false⟩,⟨1,.desc,0,0,1,5,0,true⟩,
      ⟨2,.alloc,3,7,1,1,0,false⟩] := by
    refine ⟨⟨?_,?_⟩,?_,?_,?_⟩ <;> decide
  refine exists_ok rfl fun hrec => ?_
  refine (recovered_operable_iff hd (by decide)).mpr ?_ id id _ _ (fun l => .refl l)
    (fun r => le_refl r) (.refl _) hrec _ (by decide)
  intro b hb
  obtain ⟨hmem,hpayload,-⟩ := hb
  simp only [mem_cons,not_mem_nil,or_false] at hmem
  rcases hmem with rfl | rfl | rfl
  · exact absurd hpayload (by decide)
  · exact absurd hpayload (by decide)
  · decide

/-- The container of this image holds epoch 3, but a version of epoch 9 was written back.
Recovery returns the payload of epoch 5 and leaves the global epoch at 3, so the first
operations take the payload for one of the future. -/
theorem recovered_from_future :
    ∃ out, recover false id id
        [[⟨0,.epoch,0,0,0,0,3,false⟩,⟨1,.desc,0,0,1,5,0,true⟩,⟨2,.alloc,5,7,1,1,0,false⟩,
          ⟨3,.alloc,9,8,1,6,0,false⟩]]
        [[⟨0,.epoch,0,0,0,0,3,false⟩,⟨1,.desc,0,0,1,5,0,true⟩,⟨2,.alloc,5,7,1,1,0,false⟩,
          ⟨3,.alloc,9,8,1,6,0,false⟩]] = .ok out ∧
      out.inUse.find? Block.id 7 = some ⟨2,.alloc,5,7,1,1,0,false⟩ ∧
      EpochSys.validateAccess (fun _ => ⟨none,5,.alloc,1,1,7⟩) 2
        (startEpoch [⟨0,.epoch,0,0,0,0,3,false⟩,⟨1,.desc,0,0,1,5,0,true⟩,
          ⟨2,.alloc,5,7,1,1,0,false⟩,⟨3,.alloc,9,8,1,6,0,false⟩]) = .error .oldSeeNew :=
  ⟨_,rfl,rfl,rfl⟩

end Montage.Recover.Nonblocking
