import Montage.ToBeFreed.Thread
import Montage.Recover.Blocking

namespace Montage.Durable
open Library EpochSys Recover Function

/-- `DirWB` writes a block back as soon as it is registered, `BufferedWB` puts it into the
bucket of the epoch it is registered under. -/
inductive WriteBack where
  | buffered
  | direct

structure Entry where
  blk : Addr
  label : Nat
  deriving DecidableEq

/-- Who may write to a block: nobody once it is deallocated, the thread whose call works on
it or has made it outside an operation, whoever uses the payload of which it is the newest
version, and the thread in whose to-be-freed bucket it waits. -/
inductive Place (n : Nat) where
  | free
  | made (t : Fin n)
  | held (t : Fin n)
  | live (id : Nat)
  | waiting (t : Fin n) (bucket : Nat)
  deriving DecidableEq

/-- The life of a payload: `live` has its newest version, `busy` the thread that is at work
on it, and `deleted` the epoch of the deletion and the anti-node. A payload that was
deleted in the epoch of its last version is `gone`. -/
inductive Life (n : Nat) where
  | unused
  | busy (t : Fin n)
  | live (b : Addr)
  | deleted (d : Nat) (anti : Addr)
  | gone
  deriving DecidableEq

/-- Every block has a volatile and a persistent copy, of which only the headers matter
here. `known` are the blocks that were ever handed out. A worker has its to-be-freed
buckets, the accesses that are left of its current call and the version that the call
leaves behind, its pending allocations, and its to-be-persisted buckets. -/
structure State (n : Nat) where
  globalEpoch : Nat
  vol : Heap
  per : Heap
  known : List Addr
  place : Addr → Place n
  life : Nat → Life n
  tbf : Fin n → ToBeFreed.Thread
  pending : Fin n → List Instr
  result : Fin n → Option (Nat × Addr)
  allocs : Fin n → List Addr
  persist : Fin n → Nat → List Entry

variable {n : Nat}

def State.op (s : State n) (t : Fin n) : Option Nat := (s.tbf t).op

def init (n : Nat) : State n where
  globalEpoch := initEpoch
  vol _ := ⟨none,nullEpoch,.init,0,0,0⟩
  per _ := ⟨none,nullEpoch,.init,0,0,0⟩
  known := []
  place _ := .free
  life _ := .unused
  tbf _ := ToBeFreed.start initEpoch
  pending _ := []
  result _ := none
  allocs _ := []
  persist _ _ := []

variable (s : State n)

def State.take (a : Addr) (p : Place n) : State n :=
  { s with
    known := if a ∈ s.known then s.known else a :: s.known
    place := update s.place a p }

def State.call (t : Fin n) (is : List Instr) (i : Nat) (l : Life n)
    (result : Option Addr) : State n :=
  { s with
    life := update s.life i l
    pending := update s.pending t is
    result := update s.result t (result.map fun r => (i,r)) }

def State.ready (t : Fin n) : Option Nat :=
  if s.pending t = [] ∧ (s.tbf t).todo = [] then s.op t else none

/-- One round of `help_free_local(i)`, which deletes the blocks of a bucket with the
bucket's label. -/
def drain (t : Fin n) : Option (State n) :=
  match s.op t, (s.tbf t).todo, s.pending t with
  | some c, i :: rest, [] =>
    let s' := { s with
      tbf := update s.tbf t (ToBeFreed.helpFreeLocal (s.tbf t) i c rest) }
    match (s.tbf t).buckets (i % epochWindow) with
    | [] => some s'
    | w :: _ => some { s' with
        place := update s.place w.blk (.held t)
        pending := update s.pending t (deletePblk w.blk i)
        result := update s.result t none }
  | _, _, _ => none

/-- `pnew`. Outside an operation the block waits for `begin_op` to register it. -/
def pnew (t : Fin n) (a : Addr) : Option (State n) :=
  if s.place a = .free ∧ s.pending t = [] ∧
      (s.op t = none ∨ (s.tbf t).todo = [] ∧ s.allocs t = []) then
    some { s.take a (.made t) with
      vol := (Instr.construct a .init 0).write s.vol
      allocs := update s.allocs t (s.allocs t ++ [a]) }
  else none

/-- `register_alloc_pblk` of a new block, in `pnew` or in `begin_op`, with a fresh id. -/
def register (t : Fin n) (i : Nat) : Option (State n) :=
  match s.ready t, s.allocs t with
  | some c, a :: rest =>
    if i ≠ 0 ∧ s.life i = .unused then
      match registerAllocPblk s.vol a c i with
      | .error _ => none
      | .ok is => some { s.call t is i (.busy t) (some a) with
          place := update s.place a (.held t)
          allocs := update s.allocs t rest }
    else none
  | _, _ => none

/-- A field setter: `openwrite_pblk`, the store, `register_update_pblk`. -/
def set (t : Fin n) (b a : Addr) : Option (State n) :=
  match s.ready t, s.allocs t with
  | some c, [] =>
    if s.life (s.vol b).id = .live b then
      match openwritePblk s.vol a b c with
      | .error _ => none
      | .ok (is,r) =>
        let s' := (s.call t (is ++ registerUpdatePblk r c) (s.vol b).id (.busy t) (some r))
        let s' := { s' with place := update s.place b (.held t) }
        if (s.vol b).epoch = c then some s'
        else if s.place a = .free then some (s'.take a (.held t))
        else none
    else none
  | _, _ => none

/-- `pdelete`: `free_pblk` of the newest version. -/
def pdelete (t : Fin n) (b a : Addr) : Option (State n) :=
  match s.ready t, s.allocs t with
  | some c, [] =>
    if s.life (s.vol b).id = .live b then
      match freePblk s.vol a b c with
      | .error _ => none
      | .ok is =>
        let anti := (s.vol b).epoch ≠ nullEpoch ∧ (s.vol b).epoch < c
        let s' := s.call t is (s.vol b).id (if anti then .deleted c a else .gone) none
        let s' := { s' with place := update s.place b (.held t) }
        if anti then
          if s.place a = .free then some (s'.take a (.held t)) else none
        else some s'
    else none
  | _, _ => none

def writeBack (b : Addr) : State n :=
  { s with per := update s.per b (s.vol b) }

/-- `register_persist` and `register_persist_raw`. -/
def registerPersist (wb : WriteBack) (s : State n) (t : Fin n) (b : Addr) (c : Nat) : State n :=
  match wb with
  | .direct => writeBack s b
  | .buffered => { s with
      persist := update s.persist t (update (s.persist t) (c % epochWindow)
        (⟨b,c⟩ :: s.persist t (c % epochWindow))) }

def perform (wb : WriteBack) (s : State n) (t : Fin n) : Instr → State n
  | .registerPersist b c | .registerPersistRaw b c => registerPersist wb s t b c
  | .registerFree b l => { s with
      tbf := update s.tbf t (ToBeFreed.registerFree (s.tbf t) b l)
      place := update s.place b (.waiting t (l % epochWindow)) }
  | .deallocate b => { s with place := update s.place b .free }
  | i => { s with vol := i.write s.vol }

def State.complete (t : Fin n) : State n :=
  match s.result t with
  | none => s
  | some (i,r) => { s with
      life := update s.life i (.live r)
      place := update s.place r (.live i)
      result := update s.result t none }

def exec (wb : WriteBack) (s : State n) (t : Fin n) : Option (State n) :=
  match s.pending t with
  | [] => none
  | i :: is =>
    let s' := perform wb s t i
    let s' := { s' with pending := update s.pending t is }
    some (if is = [] then s'.complete t else s')

/-- `writeBack` takes an entry out of its bucket: `persist_epoch_local`, or a push to a full
buffer. `evict` is a spontaneous write-back. -/
inductive Act (n : Nat) where
  | begin (t : Fin n)
  | drain (t : Fin n)
  | pnew (t : Fin n) (a : Addr)
  | register (t : Fin n) (i : Nat)
  | set (t : Fin n) (b a : Addr)
  | pdelete (t : Fin n) (b a : Addr)
  | exec (t : Fin n)
  | finish (t : Fin n)
  | writeBack (t : Fin n) (e : Entry)
  | evict (b : Addr)
  | advance

/-- The epoch advances when no operation of the epoch before is active and what was
registered under that epoch has been written back. -/
def State.mayAdvance : Prop :=
  s.globalEpoch < uint64Max ∧ (∀ t, ∀ c ∈ s.op t, s.globalEpoch ≤ c) ∧
    ∀ t, ∀ e ∈ s.persist t ((s.globalEpoch - 1) % epochWindow), e.label ≠ s.globalEpoch - 1

instance : Decidable s.mayAdvance := inferInstanceAs (Decidable (_ ∧ _ ∧ _))

def step (wb : WriteBack) (s : State n) : Act n → Option (State n)
  | .begin t =>
    if s.op t = none ∧ s.pending t = [] then
      some { s with
        tbf := update s.tbf t
          (ToBeFreed.freeOnNewEpoch .blocking (s.tbf t) s.globalEpoch) }
    else none
  | .drain t => drain s t
  | .pnew t a => pnew s t a
  | .register t i => register s t i
  | .set t b a => set s t b a
  | .pdelete t b a => pdelete s t b a
  | .exec t => exec wb s t
  | .finish t =>
    match s.ready t, s.allocs t with
    | some c, [] => some { s with
        tbf := update s.tbf t (ToBeFreed.finish .blocking (s.tbf t) c) }
    | _, _ => none
  | .writeBack t e =>
    if e ∈ s.persist t (e.label % epochWindow) then
      some { writeBack s e.blk with
        persist := update s.persist t (update (s.persist t)
          (e.label % epochWindow) ((s.persist t (e.label % epochWindow)).erase e)) }
    else none
  | .evict b => some (writeBack s b)
  | .advance => if s.mayAdvance then some { s with globalEpoch := s.globalEpoch + 1 } else none

def Version (i : Nat) (b : PBlk) : Prop :=
  (b.blktype = .alloc ∨ b.blktype = .update) ∧ b.epoch ≠ nullEpoch ∧ b.id = i

instance (i : Nat) (b : PBlk) : Decidable (Version i b) :=
  inferInstanceAs (Decidable (_ ∧ _ ∧ _))

def State.erased (i : Nat) : Prop :=
  ∀ x ∈ s.known, ¬ Version i (s.vol x) ∧ ¬ Version i (s.per x)

instance (i : Nat) : Decidable (s.erased i) :=
  inferInstanceAs (Decidable (∀ x ∈ s.known, ¬ Version i (s.vol x) ∧ ¬ Version i (s.per x)))

def Life.anti : Life n → Option Addr
  | .deleted _ a => some a
  | _ => none

/-- What recovery finds after a crash: the epoch container, whose epoch number is durable,
and the persistent copies of the blocks. -/
def image : List Block :=
  ⟨0,.epoch,nullEpoch,0,0,0,s.globalEpoch,false⟩ :: s.known.map fun x =>
    ⟨x + 1,(s.per x).blktype,(s.per x).epoch,(s.per x).id,(s.per x).tid,(s.per x).sn,0,false⟩

end Montage.Durable
