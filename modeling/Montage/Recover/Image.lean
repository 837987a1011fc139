import Montage.EpochSys.Calls
import Montage.Library.Newest
import Mathlib.Data.Finset.Basic

namespace Montage.Recover
open Library
open List hiding iter

/-- A block as recovery finds it in the heap image. The field `globalEpoch` is only read
from the epoch container, and `committed` from descriptors. -/
structure Block where
  addr : Addr
  blktype : PBlkType
  epoch : Nat
  id : Nat
  tid : Nat := 0
  sn : Nat := 0
  globalEpoch : Nat := 0
  committed : Bool := false
  deriving DecidableEq

def Block.reported (b : Block) : Nat :=
  if b.blktype = .epoch then max b.globalEpoch b.epoch else b.epoch

def Block.reset (b : Block) : Block := { b with epoch := nullEpoch }

def Block.isPayload (b : Block) : Bool := b.blktype = .alloc || b.blktype = .update

def maxEpoch (blocks : List Block) : Nat := blocks.foldl (fun m b => max m b.reported) 0

/-- The blocks that the second pass puts aside whatever their type: epoch container,
descriptors and anti-nodes are handled elsewhere. -/
def Block.discardable (b : Block) : Bool :=
  b.blktype ≠ .epoch && b.blktype ≠ .desc && b.blktype ≠ .delete

/-- The `switch` of the second pass, which resolves conflicts between versions.
`descs` says whether descriptors are given up. -/
def settle (clean descs : Bool) (s : Kept Block) (b : Block) : Except Fault (Kept Block) :=
  match b.blktype with
  | .owned => .error (.errexit "OWNED isn't a valid blktype in this version.")
  | .alloc =>
    if clean && (s.find? Block.id b.id).isSome then
      .error (.errexit "more than one record with the same id after a clean exit.")
    else .ok (keepFirst Block.id s b)
  | .update =>
    if clean && (s.find? Block.id b.id).isSome then
      .error (.errexit "more than one record with the same id after a clean exit.")
    else .ok (keepNewest Block.id Block.epoch s b)
  | .delete | .epoch => .ok s
  | .desc => .ok (if descs then s.pass b else s)
  | .init | .reclaimed => .error (.errexit "wrong type of pblk discovered")

/-- A recovery thread merges its map into the shared one. `iter` is the order in which
the hash map is iterated. -/
def merge (iter : List Block → List Block) (s l : Kept Block) : Kept Block :=
  (iter l.kept).foldl (keepNewest Block.id Block.epoch) ⟨s.kept,s.passed ++ l.passed⟩

theorem mem_settle (h : settle clean descs s b = .ok s') (hy : y ∈ s'.kept) :
    y ∈ s.kept ∨ y = b ∧ b.isPayload := by
  unfold settle at h
  split at h
  next => cases h
  next halloc =>
    split at h
    next => cases h
    next =>
      cases h
      rcases mem_keep_first hy with hy | hy
      · exact .inr ⟨hy,by simp [Block.isPayload,halloc]⟩
      · exact .inl hy
  next hupdate =>
    split at h
    next => cases h
    next =>
      cases h
      rcases mem_keep_newest hy with hy | hy
      · exact .inr ⟨hy,by simp [Block.isPayload,hupdate]⟩
      · exact .inl hy
  next => cases h; exact .inl hy
  next => cases h; exact .inl hy
  next =>
    cases h
    split at hy
    · exact .inl hy
    · exact .inl hy
  next => cases h
  next => cases h

theorem mem_merge (hiter : ∀ l, (iter l).Perm l) (passes : List (Kept Block))
    (hy : y ∈ (passes.foldl (merge iter) s).kept) :
    y ∈ s.kept ∨ ∃ l ∈ passes, y ∈ l.kept := by
  induction passes generalizing s with
  | nil => exact .inl hy
  | cons l _ ih =>
    rcases ih hy with hy | hy
    · rcases mem_foldl_keep_newest _ hy with hy | hy
      · exact .inr ⟨l,by simp,(hiter l.kept).subset hy⟩
      · exact .inl hy
    · obtain ⟨l',hl',hy⟩ := hy
      exact .inr ⟨l',by simp [hl'],hy⟩

theorem max_epoch_fold (blocks : List Block) (m : Nat) :
    blocks.foldl (fun m b => max m b.reported) m = max m (maxEpoch blocks) := by
  induction blocks generalizing m with
  | nil => simp [maxEpoch]
  | cons b blocks ih =>
    have hb : maxEpoch (b :: blocks) = max (max 0 b.reported) (maxEpoch blocks) := ih _
    rw [foldl_cons,ih,hb]
    omega

theorem max_epoch_cons (b : Block) (blocks : List Block) :
    maxEpoch (b :: blocks) = max b.reported (maxEpoch blocks) := by
  rw [maxEpoch,foldl_cons,max_epoch_fold]
  omega

theorem max_epoch_append (bs cs : List Block) :
    maxEpoch (bs ++ cs) = max (maxEpoch bs) (maxEpoch cs) := by
  rw [maxEpoch,foldl_append,max_epoch_fold]
  rfl

theorem max_epoch_perm (h : bs.Perm cs) : maxEpoch bs = maxEpoch cs := by
  induction h with
  | nil => rfl
  | cons b _ ih => rw [max_epoch_cons,max_epoch_cons,ih]
  | swap => simp only [max_epoch_cons]; omega
  | trans _ _ ih1 ih2 => exact ih1.trans ih2

theorem epoch_le_reported (b : Block) : b.epoch ≤ b.reported := by
  unfold Block.reported
  split <;> omega

theorem reported_le_max (h : b ∈ blocks) : b.reported ≤ maxEpoch blocks := by
  induction blocks with
  | nil => simp at h
  | cons _ _ ih =>
    rw [max_epoch_cons]
    rcases mem_cons.mp h with heq | h
    · rw [heq]
      omega
    · have := ih h
      omega

theorem max_epoch_le (h : ∀ b ∈ blocks, b.reported ≤ m) : maxEpoch blocks ≤ m := by
  induction blocks with
  | nil => simp [maxEpoch]
  | cons b _ ih =>
    rw [max_epoch_cons]
    have hb := h b (by simp)
    have hrest := ih fun c hc => h c (by simp [hc])
    omega

theorem epoch_le_max (h : b ∈ blocks) : b.epoch ≤ maxEpoch blocks :=
  le_trans (epoch_le_reported b) (reported_le_max h)

theorem max_epoch_mono (h : bs ⊆ cs) : maxEpoch bs ≤ maxEpoch cs :=
  max_epoch_le fun _ hb => reported_le_max (h hb)

/-- What a recovery thread notes in its first pass over its blocks, apart from the
descriptors. The flag `container` says that it came across the epoch container. -/
structure Scan where
  maxEpochLocal : Nat
  antiNodesLocal : List Block
  deletedIdsLocal : Finset Nat
  container : Bool

def Scan.note (l : Scan) (b : Block) : Scan :=
  match b.blktype with
  | .epoch => { l with
      container := true
      maxEpochLocal := max (max b.globalEpoch l.maxEpochLocal) b.epoch }
  | .delete => { l with
      antiNodesLocal := l.antiNodesLocal ++ [b]
      deletedIdsLocal :=
        if b.epoch ≠ nullEpoch then insert b.id l.deletedIdsLocal else l.deletedIdsLocal
      maxEpochLocal := max l.maxEpochLocal b.epoch }
  | _ => { l with maxEpochLocal := max l.maxEpochLocal b.epoch }

structure Scan.Of (l : Scan) (part : List Block) : Prop where
  max : l.maxEpochLocal = maxEpoch part
  antiNodes : l.antiNodesLocal = part.filter fun b => b.blktype = .delete
  deleted : ∀ i, i ∈ l.deletedIdsLocal ↔
    ∃ d ∈ part, d.blktype = .delete ∧ d.epoch ≠ nullEpoch ∧ d.id = i
  container : l.container = true ↔ ∃ b ∈ part, b.blktype = .epoch

theorem empty_of : Scan.Of ⟨0,[],∅,false⟩ [] := ⟨rfl,rfl,by simp,by simp⟩

theorem Scan.Of.note (h : Scan.Of l part) (b : Block) : (l.note b).Of (part ++ [b]) := by
  unfold Scan.note
  have hmax := h.max
  split
  next hb =>
    refine ⟨?_,?_,?_,?_⟩
    · simp only [max_epoch_append,max_epoch_cons,Block.reported,hb,if_true,hmax]
      simp only [maxEpoch,foldl_nil]
      omega
    · simp [h.antiNodes,hb]
    · intro i
      simp [h.deleted,hb,or_and_right,exists_or]
    · simp [hb]
  next hb =>
    refine ⟨?_,?_,?_,?_⟩
    · simp only [max_epoch_append,max_epoch_cons,Block.reported,hb,hmax]
      simp [maxEpoch]
    · simp [h.antiNodes,hb]
    · intro i
      by_cases he : b.epoch = nullEpoch
      · simp [h.deleted,hb,he,or_and_right,exists_or]
      · have hid : i = b.id ↔ b.id = i := eq_comm
        simp [h.deleted,hb,he,or_and_right,exists_or,hid,or_comm]
    · simp [h.container,hb,or_and_right,exists_or]
  next hepoch hdelete =>
    have hepoch : b.blktype ≠ .epoch := hepoch
    have hdelete : b.blktype ≠ .delete := hdelete
    refine ⟨?_,?_,?_,?_⟩
    · simp only [max_epoch_append,max_epoch_cons,Block.reported,if_neg hepoch,hmax]
      simp [maxEpoch]
    · simp [h.antiNodes,hdelete]
    · intro i
      simp [h.deleted,hdelete,or_and_right,exists_or]
    · simp [h.container,hepoch,or_and_right,exists_or]

variable {locals : List Scan} {parts : List (List Block)}

section
variable (h : Forall₂ (fun part l => l.Of part) parts locals)
include h

theorem locals_max :
    locals.foldl (fun m l => max m l.maxEpochLocal) 0 = maxEpoch parts.flatten := by
  have hfold : ∀ m, locals.foldl (fun m l => max m l.maxEpochLocal) m =
      max m (maxEpoch parts.flatten) := by
    induction h with
    | nil => intro m; simp [maxEpoch]
    | cons hl _ ih =>
      intro m
      rw [foldl_cons,ih,flatten_cons,max_epoch_append,hl.max]
      omega
  simpa using hfold 0

theorem locals_anti : locals.flatMap Scan.antiNodesLocal =
      parts.flatten.filter fun b => b.blktype = .delete := by
  induction h with
  | nil => rfl
  | cons hl _ ih => rw [flatMap_cons,ih,hl.antiNodes,flatten_cons,filter_append]

theorem locals_container (hc : ∃ b ∈ parts.flatten, b.blktype = .epoch) :
    locals.any Scan.container = true := by
  induction h with
  | nil => simp at hc
  | cons hl _ ih =>
    obtain ⟨b,hb,hepoch⟩ := hc
    rw [flatten_cons,mem_append] at hb
    rw [any_cons,Bool.or_eq_true]
    rcases hb with hb | hb
    · exact .inl (hl.container.mpr ⟨b,hb,hepoch⟩)
    · exact .inr (ih ⟨b,hb,hepoch⟩)

end

theorem mem_foldl_erase (ns : List Block) (ids : Finset Nat) :
    i ∈ ns.foldl (fun ids n => ids.erase n.id) ids ↔ i ∈ ids ∧ ∀ n ∈ ns, n.id ≠ i := by
  induction ns generalizing ids with
  | nil => simp
  | cons _ _ ih =>
    rw [foldl_cons,ih,Finset.mem_erase]
    simp only [mem_cons,forall_eq_or_imp]
    exact ⟨fun h => ⟨h.1.2,h.1.1.symm,h.2⟩,fun h => ⟨⟨h.2.1.symm,h.1⟩,h.2.2⟩⟩

end Montage.Recover
