import Montage.Basic
import Montage.Library.Results

namespace Montage
open Function

abbrev Addr := Nat

/-- The header of a `PBlk`. The two halves of `tid_sn` are kept apart. -/
structure PBlk where
  retire : Option Addr
  epoch : Nat
  blktype : PBlkType
  tid : Nat
  sn : Nat
  id : Nat

abbrev Heap := Addr → PBlk

inductive Fault where
  | oldSeeNew
  | errexit (message : String)
  | assertion
  | nullPointer

/-- The accesses a call makes, in program order. `construct` is a placement `new` on a
block that the allocator has just handed out, `deallocate` gives a block back to it. -/
inductive Instr where
  | construct (b : Addr) (blktype : PBlkType) (id : Nat)
  | setEpoch (b : Addr) (e : Nat)
  | setType (b : Addr) (blktype : PBlkType)
  | setRetire (b anti : Addr)
  | setTidSn (b : Addr) (tid sn : Nat)
  | setId (b : Addr) (id : Nat)
  | registerPersist (b : Addr) (c : Nat)
  | registerPersistRaw (b : Addr) (c : Nat)
  | registerFree (b : Addr) (c : Nat)
  | deallocate (b : Addr)
  deriving DecidableEq

def Instr.write (h : Heap) : Instr → Heap
  | .construct b blktype id => update h b ⟨none,nullEpoch,blktype,0,0,id⟩
  | .setEpoch b e => update h b { h b with epoch := e }
  | .setType b blktype => update h b { h b with blktype := blktype }
  | .setRetire b anti => update h b { h b with retire := some anti }
  | .setTidSn b tid sn => update h b { h b with tid := tid, sn := sn }
  | .setId b id => update h b { h b with id := id }
  | _ => h

def writes (h : Heap) (is : List Instr) : Heap := is.foldl Instr.write h

def dest : Instr → Option Addr
  | .construct b _ _ | .setEpoch b _ | .setType b _ | .setRetire b _ | .setTidSn b _ _
  | .setId b _ => some b
  | _ => none

variable {i : Instr} {x : Addr} {h h' : Heap}

theorem write_other (hx : dest i ≠ some x) : i.write h x = h x := by
  cases i <;> first
    | rfl
    | exact update_of_ne (fun he => hx (congrArg some he.symm)) _ _

theorem write_at (hx : h' x = h x) : i.write h' x = i.write h x := by
  by_cases hd : dest i = some x
  · cases i <;> simp_all [dest,Instr.write]
  · rw [write_other hd,write_other hd,hx]

theorem writes_at (is : List Instr) (hx : h' x = h x) : writes h' is x = writes h is x := by
  induction is generalizing h h' with
  | nil => exact hx
  | cons _ _ ih => exact ih (write_at hx)

theorem writes_other (is : List Instr) (hx : ∀ i ∈ is, dest i ≠ some x) :
    writes h is x = h x := by
  induction is generalizing h with
  | nil => rfl
  | cons i _ ih =>
    exact (ih fun j hj => hx j (by simp [hj])).trans (write_other (hx i (by simp)))

theorem writes_append (h : Heap) (is js : List Instr) :
    writes h (is ++ js) = writes (writes h is) js := List.foldl_append

namespace EpochSys
open Library

/-- `new_pblk<T>(*b)` at the address `a`: the copy constructor of `PBlk` keeps the id
and forgets the epoch. -/
def copyPblk (h : Heap) (a b : Addr) : Instr :=
  .construct a (if (h b).blktype = .owned then .owned else .init) (h b).id

/-- `delete_pblk`, whose destructor resets the epoch. -/
def deletePblk (b : Addr) (c : Nat) : List Instr :=
  [.setEpoch b nullEpoch,.deallocate b] ++
    if c = nullEpoch then [] else [.registerPersistRaw b c]

def registerAllocPblk (h : Heap) (b : Addr) (c freshId : Nat) : Except Fault (List Instr) :=
  if c = nullEpoch then .error .assertion
  else if (h b).blktype ≠ .init ∧ (h b).blktype ≠ .owned then .error .assertion
  else .ok <|
    [.setEpoch b c] ++
    (if (h b).blktype = .init then [.setType b .alloc] else []) ++
    (if (h b).id = 0 then [.setId b freshId] else []) ++
    [.registerPersist b c]

/-- `reset_alloc_pblk` takes the registration of a new block back. -/
def resetAllocPblk (h : Heap) (b : Addr) (c : Nat) : Except Fault (List Instr) :=
  if (h b).blktype ≠ .alloc then .error .assertion
  else .ok [.setEpoch b nullEpoch,.setType b .init,.registerPersistRaw b c]

def registerUpdatePblk (b : Addr) (c : Nat) : List Instr :=
  if c = nullEpoch then [] else [.registerPersist b c]

def validateAccess (h : Heap) (b : Addr) (c : Nat) : Except Fault Unit :=
  if c = nullEpoch then .error (.errexit "access with NULL_EPOCH. BEGIN_OP not called?")
  else if (h b).epoch > c then .error .oldSeeNew
  else .ok ()

/-- `openwrite_pblk`: a block of an older epoch is superseded by a copy at `a`. Returns
the block to be written. -/
def openwritePblk (h : Heap) (a b : Addr) (c : Nat) : Except Fault (List Instr × Addr) := do
  validateAccess h b c
  if (h b).epoch < c then
    return ([.registerFree b c,copyPblk h a b,.setEpoch a c,.setType a .update],a)
  else return ([],b)

/-- `free_pblk`, with the address `a` for the anti-node if one is made. -/
def freePblk (h : Heap) (a b : Addr) (c : Nat) : Except Fault (List Instr) :=
  let e := (h b).epoch
  let blktype := (h b).blktype
  if e = nullEpoch then .ok (deletePblk b c)
  else if e > c then .error .oldSeeNew
  else if e = c then
    if blktype = .alloc then .ok (deletePblk b c)
    else if blktype = .update then .ok [.setType b .delete,.registerFree b c]
    else if blktype = .delete then .error (.errexit "double free error.")
    else .ok [.registerFree b c]
  else .ok [copyPblk h a b,.setType a .delete,.setEpoch a c,.registerPersist a c,
    .registerFree a (c + 1),.registerFree b c]

def retirePblk (h : Heap) (a b : Addr) (c : Nat) : Except Fault (List Instr) :=
  if (h b).retire ≠ none then
    .error (.errexit "double retire error, or this block was tentatively retired before recent crash.")
  else if (h b).epoch > c then .error .oldSeeNew
  else if (h b).epoch = c then
    if (h b).blktype = .alloc ∨ (h b).blktype = .update then
      .ok [.setType b .delete,.registerPersist b c]
    else .error (.errexit "wrong type of PBlk to retire.")
  else .ok [copyPblk h a b,.setRetire b a,.setType a .delete,.setEpoch a c,
    .registerPersist a c,.registerPersist b c]

/-- `reclaim_pblk`. The address `a` is only used when the block was never retired and
`free_pblk` makes an anti-node for it. -/
def reclaimPblk (h : Heap) (a b : Addr) (c : Nat) : Except Fault (List Instr) :=
  let e := (h b).epoch
  if c = nullEpoch then .error (.errexit "reclaiming a block in NULL epoch")
  else if e > c then .error (.errexit "reclaiming a block created in a newer epoch")
  else match (h b).retire with
    | none =>
      if (h b).blktype ≠ .delete then freePblk h a b c
      else if e < c - 1 then .ok (deletePblk b c)
      else .ok [.registerFree b c]
    | some anti =>
      if (h anti).epoch > c then .error (.errexit "reclaiming a block retired in a newer epoch")
      else if e < c - 1 then .ok (.registerFree anti c :: deletePblk b c)
      else .ok [.registerFree anti (c + 1),.registerFree b c]

variable {a b : Addr} {c : Nat} {is : List Instr}

theorem register_alloc_pblk_ok (hr : registerAllocPblk h b c freshId = .ok is) :
    c ≠ nullEpoch ∧ ((h b).blktype = .init ∨ (h b).blktype = .owned) ∧
    is = [.setEpoch b c] ++ (if (h b).blktype = .init then [.setType b .alloc] else []) ++
      (if (h b).id = 0 then [.setId b freshId] else []) ++ [.registerPersist b c] := by
  unfold registerAllocPblk at hr
  obtain ⟨hc,hr⟩ := of_check_ok hr
  obtain ⟨htype,hr⟩ := of_check_ok hr
  cases hr
  refine ⟨hc,?_,rfl⟩
  by_contra hnot
  exact htype (not_or.mp hnot)

theorem reset_alloc_pblk_ok (hr : resetAllocPblk h b c = .ok is) :
    is = [.setEpoch b nullEpoch,.setType b .init,.registerPersistRaw b c] := by
  unfold resetAllocPblk at hr
  obtain ⟨-,hr⟩ := of_check_ok hr
  exact (Except.ok.inj hr).symm

theorem openwrite_pblk_ok (ho : openwritePblk h a b c = .ok (is,r)) :
    (h b).epoch = c ∧ is = [] ∧ r = b ∨
    (h b).epoch < c ∧ r = a ∧
      is = [.registerFree b c,copyPblk h a b,.setEpoch a c,.setType a .update] := by
  unfold openwritePblk at ho
  obtain ⟨_,hvalid,ho⟩ := of_bind_ok ho
  obtain ⟨-,hvalid⟩ := of_check_ok hvalid
  obtain ⟨hle,-⟩ := of_check_ok hvalid
  split at ho <;> cases ho
  next hlt => exact .inr ⟨hlt,rfl,rfl⟩
  next => exact .inl ⟨by omega,rfl,rfl⟩

/-- What `free_pblk` does when it returns: delete the block, turn it into an anti-node, only
put it into a to-be-freed bucket, or make an anti-node for it. -/
theorem free_pblk_ok (hf : freePblk h a b c = .ok is) :
    ((h b).epoch = nullEpoch ∨ (h b).epoch = c ∧ (h b).blktype = .alloc) ∧ is = deletePblk b c ∨
    (h b).epoch = c ∧ (h b).blktype = .update ∧ is = [.setType b .delete,.registerFree b c] ∨
    (h b).epoch = c ∧ (h b).blktype ≠ .alloc ∧ (h b).blktype ≠ .update ∧
      is = [.registerFree b c] ∨
    (h b).epoch ≠ nullEpoch ∧ (h b).epoch < c ∧
      is = [copyPblk h a b,.setType a .delete,.setEpoch a c,.registerPersist a c,
        .registerFree a (c + 1),.registerFree b c] := by
  simp only [freePblk] at hf
  split at hf
  next hnull => cases hf; exact .inl ⟨.inl hnull,rfl⟩
  next hnull =>
    obtain ⟨hle,hf⟩ := of_check_ok hf
    split at hf
    next heq =>
      split at hf
      next halloc => cases hf; exact .inl ⟨.inr ⟨heq,halloc⟩,rfl⟩
      next halloc =>
        split at hf
        next hupdate => cases hf; exact .inr (.inl ⟨heq,hupdate,rfl⟩)
        next hupdate =>
          obtain ⟨-,hf⟩ := of_check_ok hf
          cases hf
          exact .inr (.inr (.inl ⟨heq,halloc,hupdate,rfl⟩))
    next => cases hf; exact .inr (.inr (.inr ⟨hnull,by omega,rfl⟩))

theorem retire_pblk_ok (hr : retirePblk h a b c = .ok is) :
    (h b).epoch = c ∧ is = [.setType b .delete,.registerPersist b c] ∨
    (h b).epoch < c ∧ is = [copyPblk h a b,.setRetire b a,.setType a .delete,.setEpoch a c,
      .registerPersist a c,.registerPersist b c] := by
  unfold retirePblk at hr
  obtain ⟨-,hr⟩ := of_check_ok hr
  obtain ⟨hle,hr⟩ := of_check_ok hr
  split at hr
  next heq =>
    split at hr <;> cases hr
    exact .inl ⟨heq,rfl⟩
  next => cases hr; exact .inr ⟨by omega,rfl⟩

/-- What `reclaim_pblk` does when it returns: free a block that was never retired, delete
the block, with its anti-node put aside, or put it aside. -/
theorem reclaim_pblk_ok (hr : reclaimPblk h a b c = .ok is) :
    freePblk h a b c = .ok is ∨ is = deletePblk b c ∨ is = [.registerFree b c] ∨
    (∃ anti, (h b).retire = some anti ∧ is = .registerFree anti c :: deletePblk b c) ∨
    ∃ anti, (h b).retire = some anti ∧ is = [.registerFree anti (c + 1),.registerFree b c] := by
  simp only [reclaimPblk] at hr
  obtain ⟨-,hr⟩ := of_check_ok hr
  obtain ⟨-,hr⟩ := of_check_ok hr
  split at hr
  next =>
    split at hr
    next => exact .inl hr
    next =>
      split at hr
      next => cases hr; exact .inr (.inl rfl)
      next => cases hr; exact .inr (.inr (.inl rfl))
  next anti hanti =>
    obtain ⟨-,hr⟩ := of_check_ok hr
    split at hr
    next => cases hr; exact .inr (.inr (.inr (.inl ⟨anti,hanti,rfl⟩)))
    next => cases hr; exact .inr (.inr (.inr (.inr ⟨anti,hanti,rfl⟩)))

end EpochSys

namespace NbEpochSys
open Library EpochSys

/-- `register_alloc_pblk` of the nonblocking system also notes the transaction. -/
def registerAllocPblk (h : Heap) (b : Addr) (c freshId tid sn : Nat) :
    Except Fault (List Instr) := do
  let is ← EpochSys.registerAllocPblk h b c freshId
  return .setTidSn b tid sn :: is

/-- `prepare_retire_pblk` makes the anti-node in the operation's epoch. -/
def prepareRetirePblk (h : Heap) (a b : Addr) (c tid sn : Nat) : Except Fault (List Instr) :=
  if (h b).epoch > c then .error .oldSeeNew
  else .ok [copyPblk h a b,.setType a .delete,.setEpoch a c,.setTidSn a tid sn,
    .registerPersist a c]

def withdrawRetirePblk (anti : Option Addr) (c : Nat) : List Instr :=
  match anti with
  | none => []
  | some a => deletePblk a c

/-- `retire_pblk` of the nonblocking system links the prepared anti-node. -/
def retirePblk (h : Heap) (b : Addr) (c : Nat) (anti : Option Addr) :
    Except Fault (List Instr) :=
  if (h b).retire ≠ none then
    .error (.errexit "double retire error, or this block was tentatively retired before recent crash.")
  else if (h b).epoch > c then .error .assertion
  else match anti with
    | none => .error .assertion
    | some a => .ok [.setRetire b a]

theorem prepare_retire_pblk_ok (hr : prepareRetirePblk h a b c tid sn = .ok is) :
    (h b).epoch ≤ c ∧ is = [copyPblk h a b,.setType a .delete,.setEpoch a c,.setTidSn a tid sn,
      .registerPersist a c] := by
  unfold prepareRetirePblk at hr
  obtain ⟨hle,hr⟩ := of_check_ok hr
  exact ⟨Nat.not_lt.mp hle,(Except.ok.inj hr).symm⟩

theorem retire_pblk_ok {anti : Option Addr} (hr : retirePblk h b c anti = .ok is) :
    ∃ a, anti = some a ∧ is = [.setRetire b a] := by
  unfold retirePblk at hr
  obtain ⟨-,hr⟩ := of_check_ok hr
  obtain ⟨-,hr⟩ := of_check_ok hr
  cases anti <;> cases hr
  exact ⟨_,rfl,rfl⟩

end NbEpochSys

end Montage
