import Montage.Recoverable.Ops
import Mathlib.Order.Lattice.Nat

namespace Montage.Recoverable
open EpochSys ToBeFreed List

/-- How the allocator picks a block, given the ones that are allocated. -/
structure Allocator where
  fresh : Finset Addr → Addr
  fresh_not_mem : ∀ blocks, fresh blocks ∉ blocks

def above : Allocator where
  fresh blocks := blocks.sup id + 1
  fresh_not_mem := by
    intro blocks h
    exact Nat.not_succ_le_self _ (Finset.le_sup (f := id) h)

/-- Block headers, the blocks that are allocated, and those that wait in a to-be-freed
container. -/
structure Memory where
  heap : Heap
  allocated : Finset Addr
  waiting : List Addr

namespace Memory

section
variable (m : Memory)

def access : Instr → Memory
  | .construct a blktype id => { m with
      heap := (Instr.construct a blktype id).write m.heap
      allocated := insert a m.allocated }
  | .deallocate b => { m with allocated := m.allocated.erase b }
  | .registerFree b _ => { m with waiting := m.waiting ++ [b] }
  | i => { m with heap := i.write m.heap }

def perform (is : List Instr) : Memory := is.foldl access m

def call (th : Thread) (f : Heap → Thread → Call) : Except Fault (Memory × Thread) :=
  do
    let (is,th) ← f m.heap th
    return (m.perform is,th)

/-- A to-be-freed container gives a block back, under the label `c`. -/
def drain (b : Addr) (c : Nat) : Memory :=
  { m.perform (deletePblk b c) with waiting := m.waiting.erase b }

structure Tidy : Prop where
  distinct : m.waiting.Nodup
  allocated : ∀ b ∈ m.waiting, b ∈ m.allocated

/-- A block that was made but that no operation has registered yet. -/
structure Unregistered (b : Addr) : Prop where
  allocated : b ∈ m.allocated
  kept : b ∉ m.waiting
  epoch : (m.heap b).epoch = nullEpoch
  blktype : (m.heap b).blktype = .init
  id : (m.heap b).id = 0

/-- A registered block that is not deleted, of epoch `c` or an earlier one. -/
structure Live (c : Nat) (b : Addr) : Prop where
  allocated : b ∈ m.allocated
  kept : b ∉ m.waiting
  tagged : (m.heap b).epoch ≠ nullEpoch
  epoch : (m.heap b).epoch ≤ c
  blktype : (m.heap b).blktype = .alloc ∨ (m.heap b).blktype = .update

end

structure Same (m m' : Memory) (a : Addr) : Prop where
  allocated : a ∈ m'.allocated ↔ a ∈ m.allocated
  waiting : a ∈ m'.waiting ↔ a ∈ m.waiting
  heap : m'.heap a = m.heap a

def subject : Instr → Addr
  | .construct b _ _ | .setEpoch b _ | .setType b _ | .setRetire b _ | .setTidSn b _ _
  | .setId b _ | .registerPersist b _ | .registerPersistRaw b _ | .registerFree b _
  | .deallocate b => b

variable {m m' m'' : Memory} {a b x : Addr} {c c' : Nat} {is js : List Instr} {th : Thread}
  {k : Kind}

theorem Same.refl (m : Memory) (a : Addr) : Same m m a := ⟨.rfl,.rfl,rfl⟩

theorem Same.trans (h : Same m m' a) (h' : Same m' m'' a) : Same m m'' a :=
  ⟨h'.allocated.trans h.allocated,h'.waiting.trans h.waiting,h'.heap.trans h.heap⟩

theorem Same.live (h : Same m m' a) (hl : Live m c a) : Live m' c a where
  allocated := h.allocated.mpr hl.allocated
  kept := fun hw => hl.kept (h.waiting.mp hw)
  tagged := h.heap ▸ hl.tagged
  epoch := h.heap ▸ hl.epoch
  blktype := h.heap ▸ hl.blktype

theorem Same.unregistered (h : Same m m' a) (hu : Unregistered m a) : Unregistered m' a where
  allocated := h.allocated.mpr hu.allocated
  kept := fun hw => hu.kept (h.waiting.mp hw)
  epoch := h.heap ▸ hu.epoch
  blktype := h.heap ▸ hu.blktype
  id := h.heap ▸ hu.id

theorem Live.later (hl : Live m c a) (hc : c ≤ c') : Live m c' a :=
  { hl with epoch := le_trans hl.epoch hc }

theorem perform_append (m : Memory) (is js : List Instr) :
    m.perform (is ++ js) = (m.perform is).perform js := foldl_append

theorem perform_heap (m : Memory) (is : List Instr) : (m.perform is).heap = writes m.heap is := by
  induction is generalizing m with
  | nil => rfl
  | cons i _ ih =>
    have hi : (m.access i).heap = i.write m.heap := by cases i <;> rfl
    rw [perform,foldl_cons,← perform,ih,hi]
    rfl

theorem access_same (i : Instr) (h : subject i ≠ a) : Same m (m.access i) a := by
  cases i <;> refine ⟨?_,?_,?_⟩ <;>
    simp_all [access,subject,Instr.write,Function.update_of_ne,Ne.symm]

theorem perform_same (h : ∀ i ∈ is, subject i ≠ a) : Same m (m.perform is) a := by
  induction is generalizing m with
  | nil => exact .refl m a
  | cons i _ ih =>
    exact (access_same i (h i (by simp))).trans (ih fun j hj => h j (by simp [hj]))

section
variable (ht : Tidy m)
include ht

theorem delete_pblk_tidy (hb : b ∉ m.waiting) : Tidy (m.perform (deletePblk b c)) := by
  have hw : (m.perform (deletePblk b c)).waiting = m.waiting ∧
      (m.perform (deletePblk b c)).allocated = m.allocated.erase b := by
    unfold deletePblk
    split <;> exact ⟨rfl,rfl⟩
  refine ⟨hw.1 ▸ ht.distinct,?_⟩
  intro x hx
  rw [hw.1] at hx
  rw [hw.2]
  exact Finset.mem_erase.mpr ⟨fun he => hb (he ▸ hx),ht.allocated x hx⟩

omit ht in
theorem delete_pblk_same (h : a ≠ b) : Same m (m.perform (deletePblk b c)) a := by
  refine perform_same ?_
  intro i hi
  unfold deletePblk at hi
  split at hi <;> simp at hi <;> rcases hi with rfl | rfl | rfl <;> exact h.symm

theorem drain_same (h : a ≠ b) : Same m (m.drain b c) a where
  allocated := (delete_pblk_same h).allocated
  waiting := by
    rw [drain,ht.distinct.mem_erase_iff]
    exact ⟨And.right,fun hw => ⟨h,hw⟩⟩
  heap := (delete_pblk_same h).heap

theorem drain_tidy : Tidy (m.drain b c) where
  distinct := ht.distinct.erase b
  allocated := by
    intro x hx
    obtain ⟨hne,hx⟩ := ht.distinct.mem_erase_iff.mp hx
    exact (delete_pblk_same hne).allocated.mpr (ht.allocated x hx)

/-- What the end of block `b` leaves: the other blocks as they were, and at most an anti-node
with its id. -/
structure Frees (m : Memory) (b : Addr) (m' : Memory) : Prop where
  tidy : Tidy m'
  same : ∀ x ∈ m.allocated, x ≠ b → Same m m' x
  ids : ∀ x ∈ m'.allocated, x ∈ m.allocated ∧ x ≠ b ∨ (m'.heap x).id = (m.heap b).id

theorem delete_pblk_frees (hb : b ∉ m.waiting) : Frees m b (m.perform (deletePblk b c)) where
  tidy := delete_pblk_tidy ht hb
  same := fun _ _ hx => delete_pblk_same hx
  ids := by
    intro x hx
    have hallocated : (m.perform (deletePblk b c)).allocated = m.allocated.erase b := by
      unfold deletePblk
      split <;> rfl
    rw [hallocated] at hx
    obtain ⟨hne,hx⟩ := Finset.mem_erase.mp hx
    exact .inl ⟨hx,hne⟩

theorem Tidy.wait (hb : b ∈ m.allocated) (hkept : b ∉ m.waiting) (l : Nat) :
    Tidy (m.access (.registerFree b l)) where
  distinct := by
    refine nodup_append.mpr ⟨ht.distinct,nodup_singleton b,?_⟩
    intro x hx y hy he
    rw [mem_singleton.mp hy] at he
    exact hkept (he ▸ hx)
  allocated := by
    intro x hx
    rcases mem_append.mp hx with hx | hx
    · exact ht.allocated x hx
    · exact mem_singleton.mp hx ▸ hb

theorem Tidy.congr (hw : m'.waiting = m.waiting) (ha : m.allocated ⊆ m'.allocated) : Tidy m' :=
  ⟨hw ▸ ht.distinct,fun x hx => ha (ht.allocated x (hw ▸ hx))⟩

theorem delete_in_place_frees (hb : b ∈ m.allocated) (hkept : b ∉ m.waiting) :
    Frees m b (m.perform [.setType b .delete,.registerFree b c]) where
  tidy := by
    have ht' : Tidy (m.access (.setType b .delete)) := ht.congr rfl (Finset.Subset.refl _)
    exact ht'.wait hb hkept c
  same := by
    intro x _ hx
    refine perform_same ?_
    simp [subject,hx.symm]
  ids := by
    intro x hx
    by_cases he : x = b
    · subst he
      exact .inr (by simp [perform,access,Instr.write])
    · exact .inl ⟨hx,he⟩

theorem anti_node_frees (hb : b ∈ m.allocated) (hkept : b ∉ m.waiting) (ha : a ∉ m.allocated) :
    Frees m b (m.perform [copyPblk m.heap a b,.setType a .delete,.setEpoch a c,
      .registerPersist a c,.registerFree a (c + 1),.registerFree b c]) where
  tidy := by
    have haw : a ∉ m.waiting := fun hw => ha (ht.allocated a hw)
    have hmade : Tidy (m.perform [copyPblk m.heap a b,.setType a .delete,.setEpoch a c,
        .registerPersist a c]) := ht.congr rfl (Finset.subset_insert a _)
    have hanti := hmade.wait (Finset.mem_insert_self a _) haw (c + 1)
    refine hanti.wait (Finset.mem_insert_of_mem hb) ?_ c
    intro hw
    rcases mem_append.mp hw with hw | hw
    · exact hkept hw
    · exact ha (mem_singleton.mp hw ▸ hb)
  same := by
    intro x hx hxb
    have hxa : a ≠ x := fun he => ha (he ▸ hx)
    refine perform_same ?_
    simp [copyPblk,subject,hxa,hxb.symm]
  ids := by
    intro x hx
    have hab : b ≠ a := fun he => ha (he ▸ hb)
    by_cases hxa : x = a
    · subst hxa
      exact .inr (by simp [perform,access,copyPblk,Instr.write])
    · by_cases hxb : x = b
      · subst hxb
        exact .inr (by simp [perform,access,copyPblk,Instr.write,hxa])
      · rcases Finset.mem_insert.mp (show x ∈ insert a m.allocated from hx) with he | hx
        · exact absurd he hxa
        · exact .inl ⟨hx,hxb⟩

theorem free_pblk_frees (hb : Live m c b) (ha : a ∉ m.allocated) :
    ∃ is, freePblk m.heap a b c = .ok is ∧ Frees m b (m.perform is) := by
  have hle : ¬(m.heap b).epoch > c := not_lt.mpr hb.epoch
  by_cases hc : (m.heap b).epoch = c
  · rcases hb.blktype with halloc | hupdate
    · refine ⟨deletePblk b c,?_,delete_pblk_frees ht hb.kept⟩
      simp only [freePblk,if_neg hb.tagged,if_neg hle,if_pos hc,if_pos halloc]
    · refine ⟨[.setType b .delete,.registerFree b c],?_,
        delete_in_place_frees ht hb.allocated hb.kept⟩
      have halloc : (m.heap b).blktype ≠ .alloc := by simp [hupdate]
      simp only [freePblk,if_neg hb.tagged,if_neg hle,if_pos hc,if_neg halloc,if_pos hupdate]
  · refine ⟨[copyPblk m.heap a b,.setType a .delete,.setEpoch a c,.registerPersist a c,
      .registerFree a (c + 1),.registerFree b c],?_,anti_node_frees ht hb.allocated hb.kept ha⟩
    simp only [freePblk,if_neg hb.tagged,if_neg hle,if_neg hc]

/-- Outside an operation a block is deleted at once, a pending one is also withdrawn. -/
theorem pdelete_outside (hepoch : th.epoch = none) (hb : b ∉ m.waiting)
    (hpending : (m.heap b).epoch = nullEpoch → b ∈ th.pendingAllocs) :
    ∃ m', m.call th (pdelete · · b a) = .ok (m',if (m.heap b).epoch = nullEpoch then
        { th with pendingAllocs := (th.pendingAllocs.reverse.erase b).reverse } else th) ∧
      Frees m b m' := by
  refine ⟨m.perform (deletePblk b nullEpoch),?_,delete_pblk_frees ht hb⟩
  by_cases hnull : (m.heap b).epoch = nullEpoch
  · simp [call,pdelete,hepoch,hnull,hpending hnull,bind,Except.bind,pure,Except.pure]
  · simp [call,pdelete,hepoch,hnull,bind,Except.bind,pure,Except.pure]

theorem pdelete_inside (hepoch : th.epoch = some c) (hb : Live m c b) (ha : a ∉ m.allocated) :
    ∃ m', m.call th (pdelete · · b a) = .ok (m',th) ∧ Frees m b m' := by
  obtain ⟨is,his,hfrees⟩ := free_pblk_frees ht hb ha
  exact ⟨_,by simp [call,pdelete,hepoch,his,bind,Except.bind,pure,Except.pure],hfrees⟩

end

structure Makes (m : Memory) (a : Addr) (m' : Memory) : Prop where
  allocated : m'.allocated = insert a m.allocated
  waiting : m'.waiting = m.waiting
  heap : ∀ x, x ≠ a → m'.heap x = m.heap x

theorem Makes.tidy (h : Makes m a m') (ht : Tidy m) : Tidy m' where
  distinct := h.waiting ▸ ht.distinct
  allocated := by
    intro x hx
    rw [h.waiting] at hx
    rw [h.allocated]
    exact Finset.mem_insert_of_mem (ht.allocated x hx)

theorem Makes.same (h : Makes m a m') (hx : x ≠ a) : Same m m' x where
  allocated := by rw [h.allocated,Finset.mem_insert,or_iff_right hx]
  waiting := by rw [h.waiting]
  heap := h.heap x hx

theorem Makes.self (h : Makes m a m') (ht : Tidy m) (ha : a ∉ m.allocated) :
    a ∈ m'.allocated ∧ a ∉ m'.waiting := by
  rw [h.allocated,h.waiting]
  exact ⟨Finset.mem_insert_self a _,fun hw => ha (ht.allocated a hw)⟩

theorem pnew_outside (ht : Tidy m) (hepoch : th.epoch = none) (ha : a ∉ m.allocated) :
    ∃ m', m.call th (pnew k · · a) =
        .ok (m',{ th with pendingAllocs := th.pendingAllocs ++ [a] }) ∧
      Makes m a m' ∧ Unregistered m' a := by
  have hmakes : Makes m a (m.perform [.construct a .init 0]) := by
    refine ⟨rfl,rfl,?_⟩
    intro x hx
    simp [perform,access,Instr.write,hx]
  obtain ⟨hallocated,hkept⟩ := hmakes.self ht ha
  refine ⟨_,?_,hmakes,hallocated,hkept,?_,?_,?_⟩
  · simp [call,pnew,hepoch,bind,Except.bind,pure,Except.pure]
  all_goals simp [perform,access,Instr.write]

/-- What the registration of the blocks `bs` in epoch `c` leaves, with ids from `i` on. -/
structure Registers (m : Memory) (bs : List Addr) (c i : Nat) (m' : Memory) : Prop where
  allocated : m'.allocated = m.allocated
  waiting : m'.waiting = m.waiting
  heap : ∀ x ∉ bs, m'.heap x = m.heap x
  blocks : ∀ b ∈ bs, (m'.heap b).epoch = c ∧ (m'.heap b).blktype = .alloc ∧
    i ≤ (m'.heap b).id ∧ (m'.heap b).id < i + bs.length

theorem Registers.same (h : Registers m bs c i m') (hx : x ∉ bs) : Same m m' x :=
  ⟨by rw [h.allocated],by rw [h.waiting],h.heap x hx⟩

theorem Registers.tidy (h : Registers m bs c i m') (ht : Tidy m) : Tidy m' :=
  ht.congr h.waiting (by rw [h.allocated])

theorem Registers.live (h : Registers m bs c i m') (hc : c ≠ nullEpoch) (hb : b ∈ bs)
    (hallocated : b ∈ m.allocated) (hkept : b ∉ m.waiting) : Live m' c b := by
  obtain ⟨hepoch,htype,-⟩ := h.blocks b hb
  exact ⟨h.allocated ▸ hallocated,h.waiting ▸ hkept,hepoch ▸ hc,le_of_eq hepoch,.inl htype⟩

theorem register_alloc (th : Thread) (k : Kind) (hc : c ≠ nullEpoch)
    (htype : (m.heap b).blktype = .init) (hid : (m.heap b).id = 0) :
    ∃ is, registerAlloc k m.heap th b c = .ok (is,{ th with nextId := th.nextId + 1 }) ∧
      Registers m [b] c th.nextId (m.perform is) := by
  cases k
  all_goals
    refine ⟨_,by simp [registerAlloc,EpochSys.registerAllocPblk,NbEpochSys.registerAllocPblk,hc,
      htype,hid,bind,Except.bind,pure,Except.pure]; rfl,rfl,rfl,?_,?_⟩
    · intro x hx
      simp [perform,access,Instr.write,ne_of_not_mem_cons hx]
    · intro x hx
      rw [mem_singleton.mp hx]
      simp [perform,access,Instr.write]

theorem pnew_inside (ht : Tidy m) (hepoch : th.epoch = some c) (hc : c ≠ nullEpoch)
    (ha : a ∉ m.allocated) :
    ∃ m', m.call th (pnew k · · a) = .ok (m',{ th with nextId := th.nextId + 1 }) ∧
      Makes m a m' ∧ Live m' c a ∧ (m'.heap a).id = th.nextId := by
  let m1 := m.access (.construct a .init 0)
  have hself : m1.heap a = ⟨none,nullEpoch,.init,0,0,0⟩ := by
    simp [m1,access,Instr.write]
  obtain ⟨is,his,hr⟩ : ∃ is, registerAlloc k m1.heap th a c = _ ∧ _ :=
    register_alloc th k hc (by rw [hself]) (by rw [hself])
  have hheap : (Instr.construct a .init 0).write m.heap = m1.heap := rfl
  have haw : a ∉ m1.waiting := fun hw => ha (ht.allocated a hw)
  obtain ⟨-,-,hle,hlt⟩ := hr.blocks a (mem_singleton_self a)
  refine ⟨m.perform (.construct a .init 0 :: is),?_,⟨hr.allocated,hr.waiting,?_⟩,
    hr.live hc (mem_singleton_self a) (Finset.mem_insert_self a _) haw,
    le_antisymm (Nat.le_of_lt_succ hlt) hle⟩
  · simp [call,pnew,hepoch,hheap,his,bind,Except.bind,pure,Except.pure]
  · intro x hx
    refine (hr.heap x (by simpa using hx)).trans ?_
    simp [m1,access,Instr.write,hx]

theorem register_allocs (hc : c ≠ nullEpoch) (hbs : bs.Nodup)
    (hu : ∀ b ∈ bs, Unregistered m b) (th : Thread) (k : Kind) :
    ∃ is, registerAllocs k c m.heap th bs =
        .ok (is,{ th with nextId := th.nextId + bs.length }) ∧
      Registers m bs c th.nextId (m.perform is) := by
  induction bs generalizing m th with
  | nil => exact ⟨[],rfl,rfl,rfl,fun _ _ => rfl,by simp⟩
  | cons b bs ih =>
    rw [nodup_cons] at hbs
    have hb := hu b mem_cons_self
    obtain ⟨is,his,hr⟩ := register_alloc th k hc hb.blktype hb.id
    have hne : ∀ x ∈ bs, x ∉ [b] := fun x hx he => hbs.1 (mem_singleton.mp he ▸ hx)
    obtain ⟨js,hjs,hr'⟩ := ih hbs.2
      (fun x hx => (hr.same (hne x hx)).unregistered (hu x (mem_cons_of_mem _ hx)))
      { th with nextId := th.nextId + 1 }
    refine ⟨is ++ js,?_,?_⟩
    · rw [perform_heap] at hjs
      have hstep : registerAllocs k c m.heap th (b :: bs) = (do
          let (is,th) ← registerAlloc k m.heap th b c
          let (is',th) ← registerAllocs k c (writes m.heap is) th bs
          return (is ++ is',th)) := by
        simp [registerAllocs,forEach,hb.epoch]
      have hlength : th.nextId + 1 + bs.length = th.nextId + (b :: bs).length := by
        rw [length_cons,Nat.add_assoc,Nat.add_comm 1]
      rw [hstep,his]
      simp only [bind,Except.bind,hjs,pure,Except.pure,hlength]
    · rw [perform_append]
      refine ⟨hr'.allocated.trans hr.allocated,hr'.waiting.trans hr.waiting,?_,?_⟩
      · intro x hx
        rw [mem_cons,not_or] at hx
        obtain ⟨hxb,hx⟩ := hx
        exact (hr'.heap x hx).trans (hr.heap x (by simpa using hxb))
      · intro x hx
        rcases mem_cons.mp hx with rfl | hx
        · rw [hr'.heap x hbs.1]
          obtain ⟨hepoch,htype,hle,hlt⟩ := hr.blocks x (mem_singleton_self x)
          simp only [length_cons,length_nil] at hlt ⊢
          exact ⟨hepoch,htype,hle,by omega⟩
        · obtain ⟨hepoch,htype,hle,hlt⟩ := hr'.blocks x hx
          simp only at hle hlt
          rw [length_cons]
          exact ⟨hepoch,htype,by omega,by omega⟩

theorem begin_op (th : Thread) (hepoch : th.epoch = none) (hretires : th.pendingRetires = [])
    (hc : c ≠ nullEpoch) (hbs : th.pendingAllocs.Nodup)
    (hu : ∀ b ∈ th.pendingAllocs, Unregistered m b) :
    ∃ m', m.call th (beginOp k · · c []) = .ok (m',{ th with
        epoch := some c
        sn := th.sn + 1
        nextId := th.nextId + th.pendingAllocs.length }) ∧
      Registers m th.pendingAllocs c th.nextId m' := by
  obtain ⟨is,his,hr⟩ := register_allocs hc hbs hu
    { th with epoch := some c, sn := th.sn + 1, pendingRetires := [] } k
  refine ⟨m.perform is,?_,hr⟩
  simp [call,beginOp,hepoch,hc,hretires,prepareRetires,writes,his,bind,Except.bind,pure,
    Except.pure]

theorem end_op (hepoch : th.epoch = some c) (hretires : th.pendingRetires = []) :
    m.call th (endOp k · · []) = .ok (m,{ th with epoch := none, pendingAllocs := [] }) := by
  simp [call,endOp,hepoch,hretires,retires,bind,Except.bind,pure,Except.pure,perform]

/-- `openwrite_pblk` on a live block: the block itself if it is of this epoch, else a copy,
which supersedes it. -/
theorem openwrite (ht : Tidy m) (hc : c ≠ nullEpoch) (hb : Live m c b) (ha : a ∉ m.allocated) :
    ∃ is r, openwritePblk m.heap a b c = .ok (is,r) ∧ Tidy (m.perform is) ∧
      ((m.heap b).epoch = c ∧ r = b ∧ m.perform is = m ∨
        (m.heap b).epoch < c ∧ r = a ∧ Makes { m with waiting := m.waiting ++ [b] } a (m.perform is) ∧
          Live (m.perform is) c a ∧ ((m.perform is).heap a).epoch = c ∧
          ((m.perform is).heap a).id = (m.heap b).id) := by
  have hle : ¬(m.heap b).epoch > c := not_lt.mpr hb.epoch
  by_cases hlt : (m.heap b).epoch < c
  · refine ⟨[.registerFree b c,copyPblk m.heap a b,.setEpoch a c,.setType a .update],a,?_,?_,
      .inr ⟨hlt,rfl,⟨rfl,rfl,?_⟩,⟨?_,?_,?_,?_,?_⟩,?_,?_⟩⟩
    · simp [openwritePblk,validateAccess,hc,hle,hlt,bind,Except.bind,pure,Except.pure]
    · exact (ht.wait hb.allocated hb.kept c).congr rfl (Finset.subset_insert a _)
    · intro x hx
      simp [perform,access,copyPblk,Instr.write,hx]
    · exact Finset.mem_insert_self a _
    · intro hw
      rcases mem_append.mp (show a ∈ m.waiting ++ [b] from hw) with hw | hw
      · exact ha (ht.allocated a hw)
      · exact ha (mem_singleton.mp hw ▸ hb.allocated)
    all_goals simp [perform,access,copyPblk,Instr.write,hc]
  · refine ⟨[],b,?_,ht,.inl ⟨le_antisymm hb.epoch (not_lt.mp hlt),rfl,rfl⟩⟩
    simp [openwritePblk,validateAccess,hc,hle,hlt,bind,Except.bind,pure,Except.pure]

end Memory
end Montage.Recoverable
