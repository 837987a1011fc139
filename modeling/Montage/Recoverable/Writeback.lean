import Montage.Recoverable.Ops
import Montage.ToBePersisted.Containers

namespace Montage.Recoverable.Writeback
open Library EpochSys ToBeFreed ToBePersisted List

/-- An entry of a to-be-persisted bucket. A raw one stands for the first cache line of the
block, which is its header. -/
structure Entry where
  blk : Addr
  raw : Bool
  deriving DecidableEq

/-- What is written back together. -/
inductive Part where
  | header | contents
  deriving DecidableEq

def Entry.covers (e : Entry) (b : Addr) (p : Part) : Bool :=
  e.blk = b && (!e.raw || p = .header)

/-- An access of a call: to the header of a block, to the containers, or to the fields of a
block. -/
inductive Access where
  | header (i : Instr)
  | contents (b : Addr)

/-- The calls of a thread, with the addresses that the allocator hands out. `beginOp` comes
with the blocks that `free_on_new_epoch` deletes and their labels; `endOpThrown` has
retired the first `n` blocks when it is left with an exception. -/
inductive Act where
  | pnew (a : Addr)
  | set (b a : Addr)
  | pdelete (b a : Addr)
  | pretire (b a : Addr)
  | beginOp (freed : List (Addr × Nat)) (antis : List Addr)
  | endOp (antis : List Addr)
  | endOpThrown (n : Nat) (antis : List Addr)
  | abortOp

/-- A setter of `GENERATE_FIELD`. -/
def setField (h : Heap) (th : Thread) (b a : Addr) : Except Fault (List Access × Thread) :=
  match th.epoch with
  | none => .error .assertion
  | some c => do
    let (is,r) ← openwritePblk h a b c
    return (is.map .header ++ .contents r :: (registerUpdatePblk r c).map .header,th)

def headers (r : Call) : Except Fault (List Access × Thread) := do
  let (is,th) ← r
  return (is.map .header,th)

def call (c : Nat) (s : Recoverable.State) : Act → Except Fault (List Access × Thread)
  | .pnew a => headers (pnew .blocking s.heap s.thread a)
  | .set b a => setField s.heap s.thread b a
  | .pdelete b a => headers (pdelete s.heap s.thread b a)
  | .pretire b a => headers (pretire .blocking s.heap s.thread b a)
  | .beginOp freed antis => headers do
    let is := freed.flatMap fun f => deletePblk f.1 f.2
    let (is',th) ← beginOp .blocking (writes s.heap is) s.thread c antis
    return (is ++ is',th)
  | .endOp antis => headers (endOp .blocking s.heap s.thread antis)
  | .endOpThrown n antis =>
    match s.thread.epoch with
    | none => .error .assertion
    | some c => headers do
      let is ← retires .blocking c s.heap (s.thread.pendingRetires.take n) antis
      return (is,s.thread)
  | .abortOp => headers (abortOp .blocking s.heap s.thread)

/-- `dirty` tells which parts of a block the operation has stored to since they were last
written back. `call` holds the accesses that the call under way has yet to make, and the
thread after it; `bucket` is the thread's bucket for the epoch. -/
structure State where
  base : Recoverable.State
  dirty : Addr → Part → Bool
  call : Option (List Access × Thread)
  bucket : Bucket Entry

def State.inOp (s : State) : Bool :=
  s.base.thread.epoch.isSome || s.call.any fun r => r.2.epoch.isSome

/-- What an access stores to, apart from the transient field `retire`. -/
def Access.stores (i : Access) (b : Addr) (p : Part) : Bool :=
  match i with
  | .header (.construct a _ _) => a = b
  | .header (.setEpoch a _) | .header (.setType a _) | .header (.setId a _) => a = b && p = .header
  | .contents a => a = b && p = .contents
  | _ => false

def Access.renews (i : Access) (b : Addr) : Bool :=
  match i with
  | .header (.construct a _ _) | .header (.deallocate a) => a = b
  | _ => false

def State.mark (s : State) (i : Access) (b : Addr) (p : Part) : Bool :=
  s.dirty b p && !i.renews b || s.inOp && i.stores b p

def Access.entry (c : Nat) : Access → Option Entry
  | .header (.registerPersist b l) =>
    if l % epochWindow = c % epochWindow then some ⟨b,false⟩ else none
  | .header (.registerPersistRaw b l) =>
    if l % epochWindow = c % epochWindow then some ⟨b,true⟩ else none
  | _ => none

def Access.apply (base : Recoverable.State) : Access → Option Recoverable.State
  | .header i => base.access i
  | .contents _ => some base

/-- The thread starts a call, makes the next access of it or returns, or somebody goes on at
the bucket. -/
inductive Move where
  | call (a : Act)
  | access
  | finish
  | bucket (m : Mover)

def step (c : Nat) (s : State) : Move → Option State
  | .call a =>
    match s.call, Writeback.call c s.base a with
    | none, .ok r =>
      let dirty := match a with
        | .beginOp _ _ => fun _ _ => false
        | _ => s.dirty
      some { s with call := some r, dirty }
    | _, _ => none
  | .access =>
    match s.call with
    | some (i :: is,th) =>
      if s.bucket.resting then do
        let base ← i.apply s.base
        some ⟨base,s.mark i,some (is,th),(i.entry c).elim s.bucket s.bucket.begin⟩
      else none
    | _ => none
  | .finish =>
    match s.call with
    | some ([],th) =>
      if s.bucket.resting then some { s with
        base := { s.base with thread := th }
        call := none }
      else none
    | _ => none
  | .bucket m => do
    let (bucket,written) ← s.bucket.step m
    some { s with
      bucket
      dirty := fun b p => s.dirty b p && !written.any fun e => e.covers b p }

structure Initial (s : State) : Prop where
  epoch : s.base.thread.epoch = none
  call : s.call = none
  dirty : ∀ b p, s.dirty b p = false
  bucket : s.bucket.Quiet

/-- `free_pblk` is about to turn a block into an anti-node, and does not register it. -/
def retypesInPlace : List Access → Option Addr
  | .header (.setType b .delete) :: .header (.registerFree x _) :: _ =>
    if b = x then some b else none
  | _ => none

/-- Whenever `free_pblk` turns a block into an anti-node in place, the bucket still has an
entry for it that nobody who is about to pop it has consumed. -/
def Permitted (s : State) (m : Move) : Prop :=
  m = .access → ∀ is th b, s.call = some (is,th) → retypesInPlace is = some b →
    ∃ e : Entry, e.covers b .header ∧ s.bucket.Holds e

/-- The access sees to it that the part is in the bucket, or the block is no more. -/
def Access.settles (c : Nat) (i : Access) (b : Addr) (p : Part) : Bool :=
  (i.entry c).any (fun e => e.covers b p) || i.renews b && !i.stores b p

def Settled (c : Nat) : List Access → Prop
  | [] => True
  | i :: is =>
    (∀ b p, i.stores b p → (∃ j ∈ is, j.settles c b p) ∨
      retypesInPlace (i :: is) = some b ∧ p = .header) ∧ Settled c is

def At (c : Nat) (th : Thread) : Prop := ∀ e, th.epoch = some e → e = c ∧ e ≠ nullEpoch

structure Inv (c : Nat) (s : State) : Prop where
  bucket : s.bucket.Inv
  resting : s.call = none → s.bucket.resting
  settled : ∀ is th, s.call = some (is,th) → s.inOp → Settled c is
  epoch : At c s.base.thread
  next : ∀ is th, s.call = some (is,th) → At c th
  covered : ∀ b ∈ s.base.allocated, ∀ p, s.dirty b p →
    (∃ e : Entry, e.covers b p ∧ s.bucket.Holds e) ∨
      ∃ is th, s.call = some (is,th) ∧ ∃ i ∈ is, i.settles c b p

variable {c : Nat} {s s' : State} {h : Heap} {th th' : Thread} {a b : Addr} {p : Part}

theorem retypes_append (l l' : List Access) (hr : retypesInPlace l = some b) :
    retypesInPlace (l ++ l') = some b := by
  unfold retypesInPlace at hr
  split at hr
  next => simpa [retypesInPlace] using hr
  next => cases hr

theorem Settled.append (hl : Settled c l) (hl' : Settled c l') : Settled c (l ++ l') := by
  induction l with
  | nil => exact hl'
  | cons _ _ ih =>
    refine ⟨?_,ih hl.2⟩
    intro b p hstores
    rcases hl.1 b p hstores with ⟨j,hj,hsettles⟩ | ⟨hr,hp⟩
    · exact .inl ⟨j,mem_append_left _ hj,hsettles⟩
    · exact .inr ⟨retypes_append _ l' hr,hp⟩

theorem delete_pblk_settled (b l : Nat) : Settled c ((deletePblk b l).map .header) := by
  unfold deletePblk
  split <;> simp [Settled,Access.stores,Access.settles,Access.renews,Access.entry]

theorem register_alloc_pblk_settled (hr : registerAllocPblk h b c freshId = .ok is) :
    Settled c (is.map .header) := by
  obtain ⟨-,-,rfl⟩ := register_alloc_pblk_ok hr
  split <;> split <;>
    simp [Settled,Access.stores,Access.settles,Access.entry,Entry.covers]

theorem reset_alloc_pblk_settled (hr : resetAllocPblk h b c = .ok is) :
    Settled c (is.map .header) := by
  rw [reset_alloc_pblk_ok hr]
  simp [Settled,Access.stores,Access.settles,Access.entry,Entry.covers]

theorem retire_pblk_settled (hr : retirePblk h a b c = .ok is) : Settled c (is.map .header) := by
  rcases retire_pblk_ok hr with ⟨-,rfl⟩ | ⟨-,rfl⟩ <;>
    simp +contextual [Settled,Access.stores,Access.settles,Access.entry,Entry.covers,copyPblk]

/-- The one store that is not followed by a registration is that of an in-place change. -/
theorem free_pblk_settled (hr : freePblk h a b c = .ok is) : Settled c (is.map .header) := by
  rcases free_pblk_ok hr with ⟨-,rfl⟩ | ⟨-,-,rfl⟩ | ⟨-,-,-,rfl⟩ | ⟨-,-,rfl⟩
  · exact delete_pblk_settled b c
  · simp [Settled,Access.stores,retypesInPlace]
  · simp [Settled,Access.stores]
  · simp +contextual [Settled,Access.stores,Access.settles,Access.entry,Entry.covers,copyPblk]

theorem set_field_settled (ho : openwritePblk h a b c = .ok (is,r)) (hc : c ≠ nullEpoch) :
    Settled c (is.map .header ++ .contents r :: (registerUpdatePblk r c).map .header) := by
  rcases openwrite_pblk_ok ho with ⟨-,rfl,rfl⟩ | ⟨-,rfl,rfl⟩ <;>
    simp +contextual [Settled,Access.stores,Access.settles,Access.entry,Entry.covers,copyPblk,
      registerUpdatePblk,hc]

/-- The accesses to headers register what they store to. -/
def Headers (c : Nat) (is : List Instr) : Prop := Settled c (is.map .header)

theorem Headers.append {is js : List Instr} (h : Headers c is) (h' : Headers c js) :
    Headers c (is ++ js) := by
  unfold Headers
  rw [map_append]
  exact Settled.append h h'

theorem register_alloc_settled (hr : registerAlloc .blocking h th b c = .ok (is,th')) :
    Headers c is := by
  obtain ⟨-,js,hjs,⟨-,rfl⟩ | ⟨hk,-⟩⟩ := register_alloc_ok hr
  · exact register_alloc_pblk_settled hjs
  · cases hk

theorem retires_settled (hr : retires .blocking c h rs antis = .ok is) : Headers c is :=
  retires_all trivial Headers.append (fun _ _ _ _ _ => retire_pblk_settled) (by simp) hr

/-- A call in an operation of epoch `c` registers what it stores to, and a call outside
operations does not begin one of another epoch. -/
structure CallOk (c : Nat) (th : Thread) (is : List Access) (th' : Thread) : Prop where
  epoch : At c th'
  settled : th.epoch.isSome ∨ th'.epoch.isSome → Settled c is

theorem headers_ok (hr : headers r = .ok (is,th')) : ∃ js, r = .ok (js,th') ∧ is = js.map .header := by
  obtain ⟨⟨js,th1⟩,hjs,hr⟩ := of_bind_ok hr
  cases hr
  exact ⟨js,hjs,rfl⟩

theorem pnew_call_ok (he : At c th)
    (hr : pnew .blocking h th a = .ok (is,th')) : CallOk c th (is.map .header) th' := by
  cases hop : th.epoch with
  | none =>
    simp only [pnew,hop] at hr
    cases hr
    exact ⟨by simp [At],by simp [hop]⟩
  | some e =>
    obtain ⟨rfl,hnull⟩ := he e hop
    simp only [pnew,hop] at hr
    obtain ⟨⟨js,th1⟩,hreg,hr⟩ := of_bind_ok hr
    cases hr
    obtain ⟨hsame,js',hjs,⟨-,rfl⟩ | ⟨hk,-⟩⟩ := register_alloc_ok hreg
    · refine ⟨fun e' h => he e' (hsame.1 ▸ h),fun _ => ⟨?_,register_alloc_pblk_settled hjs⟩⟩
      intro x p hx
      obtain ⟨-,-,hr⟩ := register_alloc_pblk_ok hjs
      have hmem : Instr.registerPersist a e ∈ js := by simp [hr]
      refine .inl ⟨_,mem_map_of_mem hmem,?_⟩
      have hx : a = x := by simpa [Access.stores] using hx
      simp [Access.settles,Access.entry,Entry.covers,hx]
    · cases hk

theorem pdelete_call_ok (he : At c th)
    (hr : pdelete h th b a = .ok (is,th')) : CallOk c th (is.map .header) th' := by
  cases hop : th.epoch with
  | none =>
    simp only [pdelete,hop] at hr
    have hnone : th'.epoch = none := by
      split at hr
      next =>
        split at hr
        next => cases hr; rfl
        next => cases hr
      next => cases hr; exact hop
    exact ⟨by simp [At,hnone],by simp [hop,hnone]⟩
  | some e =>
    obtain ⟨rfl,hnull⟩ := he e hop
    simp only [pdelete,hop] at hr
    obtain ⟨js,hjs,hr⟩ := of_bind_ok hr
    cases hr
    exact ⟨he,fun _ => free_pblk_settled hjs⟩

theorem pretire_call_ok (he : At c th)
    (hr : pretire .blocking h th b a = .ok (is,th')) : CallOk c th (is.map .header) th' := by
  unfold pretire at hr
  split at hr <;> cases hr <;> exact ⟨he,fun _ => trivial⟩

theorem begin_op_call_ok (hr : beginOp .blocking h th c antis = .ok (is,th')) :
    CallOk c th (is.map .header) th' := by
  obtain ⟨hset,hepoch⟩ := begin_op_all trivial Headers.append (fun h th b a is r hr => by
    obtain ⟨-,rfl,-⟩ | ⟨hk,-⟩ := prepare_retire_ok hr
    · trivial
    · cases hk) (fun _ _ _ _ _ => register_alloc_settled) hr
  refine ⟨?_,fun _ => hset⟩
  intro e he
  obtain rfl : c = e := Option.some.inj (hepoch.symm.trans he)
  exact ⟨rfl,(begin_op_ok hr).1⟩

theorem abort_op_call_ok (he : At c th)
    (hr : abortOp .blocking h th = .ok (is,th')) : CallOk c th (is.map .header) th' := by
  cases hop : th.epoch with
  | none => simp [abortOp,hop] at hr
  | some e =>
    obtain ⟨rfl,hnull⟩ := he e hop
    obtain ⟨hset,hepoch⟩ := abort_op_all trivial Headers.append (fun _ => trivial)
      (fun _ _ _ => reset_alloc_pblk_settled) hop hr
    exact ⟨by simp [At,hepoch],fun _ => hset⟩

theorem flat_map_settled (freed : List (Addr × Nat)) :
    Headers c (freed.flatMap fun f => deletePblk f.1 f.2) := by
  induction freed with
  | nil => trivial
  | cons f _ ih => exact Headers.append (delete_pblk_settled f.1 f.2) ih

theorem call_ok {s : Recoverable.State} (he : At c s.thread)
    (hr : call c s act = .ok (is,th')) : CallOk c s.thread is th' := by
  cases act with
  | pnew =>
    obtain ⟨js,hjs,rfl⟩ := headers_ok hr
    exact pnew_call_ok he hjs
  | set =>
    simp only [call,setField] at hr
    split at hr
    next => cases hr
    next e hop =>
      obtain ⟨rfl,hnull⟩ := he e hop
      obtain ⟨⟨js,r⟩,ho,hr⟩ := of_bind_ok hr
      cases hr
      exact ⟨he,fun _ => set_field_settled ho hnull⟩
  | pdelete =>
    obtain ⟨js,hjs,rfl⟩ := headers_ok hr
    exact pdelete_call_ok he hjs
  | pretire =>
    obtain ⟨js,hjs,rfl⟩ := headers_ok hr
    exact pretire_call_ok he hjs
  | beginOp freed =>
    obtain ⟨js,hjs,rfl⟩ := headers_ok hr
    obtain ⟨⟨js',th1⟩,hq,hjs⟩ := of_bind_ok hjs
    cases hjs
    have hbegin := begin_op_call_ok hq
    exact ⟨hbegin.epoch,fun hop => Headers.append (flat_map_settled freed) (hbegin.settled hop)⟩
  | endOp =>
    obtain ⟨js,hjs,rfl⟩ := headers_ok hr
    simp only [endOp] at hjs
    split at hjs
    next => cases hjs
    next e hop =>
      obtain ⟨rfl,hnull⟩ := he e hop
      obtain ⟨js',hq,hjs⟩ := of_bind_ok hjs
      cases hjs
      exact ⟨by simp [At],fun _ => retires_settled hq⟩
  | endOpThrown =>
    simp only [call] at hr
    split at hr
    next => cases hr
    next e hop =>
      obtain ⟨rfl,hnull⟩ := he e hop
      obtain ⟨js,hjs,rfl⟩ := headers_ok hr
      obtain ⟨js',hq,hjs⟩ := of_bind_ok hjs
      cases hjs
      exact ⟨he,fun _ => retires_settled hq⟩
  | abortOp =>
    obtain ⟨js,hjs,rfl⟩ := headers_ok hr
    exact abort_op_call_ok he hjs

theorem Initial.inv (h : Initial s) : Inv c s where
  bucket := h.bucket.inv
  resting := fun _ => h.bucket.resting
  settled := by simp [h.call]
  epoch := by simp [At,h.epoch]
  next := by simp [h.call]
  covered := by simp [h.dirty]

theorem Inv.call (hi : Inv c s) (h : step c s (.call act) = some s') : Inv c s' := by
  simp only [step] at h
  split at h
  next r hnone hr =>
    cases h
    obtain ⟨is,th⟩ := r
    have hok := call_ok hi.epoch hr
    refine ⟨hi.bucket,by simp,?_,hi.epoch,?_,?_⟩
    · intro is' th' heq hop
      cases heq
      exact hok.settled (by simpa [State.inOp] using hop)
    · intro is' th' heq
      cases heq
      exact hok.epoch
    · intro b hb p hd
      left
      have hd : s.dirty b p = true := by
        split at hd
        · cases hd
        · exact hd
      refine (hi.covered b hb p hd).resolve_right ?_
      simp [hnone]
  next => cases h

theorem Inv.finish (hi : Inv c s) (h : step c s .finish = some s') : Inv c s' := by
  simp only [step] at h
  split at h
  next hcall =>
    split at h
    next hrest =>
      cases h
      refine ⟨hi.bucket,fun _ => hrest,by simp,hi.next _ _ hcall,by simp,?_⟩
      intro b hb p hd
      refine .inl ((hi.covered b hb p hd).resolve_right ?_)
      simp [hcall]
    next => cases h
  next => cases h

theorem Inv.bucket_step (hi : Inv c s) (h : step c s (.bucket m) = some s') : Inv c s' := by
  obtain ⟨r,hr,h⟩ := Option.bind_eq_some_iff.mp h
  obtain ⟨bucket,written⟩ := r
  cases h
  refine ⟨hi.bucket.step hr,fun hnone => Bucket.resting_step (hi.resting hnone) hr,hi.settled,
    hi.epoch,hi.next,?_⟩
  intro b hb p hd
  obtain ⟨hd,hclean⟩ := (Bool.and_eq_true _ _).mp hd
  rcases hi.covered b hb p hd with ⟨e,hcovers,hholds⟩ | hcall
  · refine .inl ⟨e,hcovers,hholds.step hi.bucket hr ?_⟩
    rintro rfl
    simp [hcovers] at hclean
  · exact .inr hcall

theorem apply_allocated {i : Access} {base base' : Recoverable.State} (h : i.apply base = some base') :
    (∀ b ∈ base'.allocated, b ∈ base.allocated ∨ i.renews b) ∧ base'.thread = base.thread := by
  cases i with
  | contents b => cases h; exact ⟨fun b hb => .inl hb,rfl⟩
  | header i =>
    cases i with
    | construct =>
      simp only [Access.apply,State.access] at h
      split at h
      next => cases h
      next =>
        cases h
        refine ⟨?_,rfl⟩
        intro b hb
        rcases Finset.mem_insert.mp hb with heq | hb
        · exact .inr (by simp [Access.renews,heq])
        · exact .inl hb
    | deallocate =>
      cases h
      exact ⟨fun b hb => .inl (Finset.mem_of_mem_erase hb),rfl⟩
    | _ => cases h; exact ⟨fun b hb => .inl hb,rfl⟩

theorem Inv.access (hi : Inv c s) (hp : Permitted s .access) (h : step c s .access = some s') :
    Inv c s' := by
  simp only [step] at h
  split at h
  next i is th hcall =>
    split at h
    next hrest =>
      obtain ⟨base,hbase,h⟩ := Option.bind_eq_some_iff.mp h
      cases h
      obtain ⟨halloc,hthread⟩ := apply_allocated hbase
      have hholds : ∀ e, s.bucket.Holds e →
          ((i.entry c).elim s.bucket s.bucket.begin).Holds e := by
        intro e he
        cases i.entry c with
        | none => exact he
        | some e' => exact he.begin hrest e'
      have hop : ∀ bucket dirty, State.inOp ⟨base,dirty,some (is,th),bucket⟩ = s.inOp := by
        simp [State.inOp,hthread,hcall]
      refine ⟨?_,by simp,?_,hthread ▸ hi.epoch,?_,?_⟩
      · show ((i.entry c).elim s.bucket s.bucket.begin).Inv
        cases i.entry c with
        | none => exact hi.bucket
        | some e => exact hi.bucket.begin e
      · intro is' th' heq hin
        cases heq
        rw [hop] at hin
        exact (hi.settled _ _ hcall hin).2
      · intro is' th' heq
        cases heq
        exact hi.next _ _ hcall
      · intro b hb p hd
        have hd : (s.dirty b p && !i.renews b || s.inOp && i.stores b p) = true := hd
        rw [Bool.or_eq_true,Bool.and_eq_true,Bool.and_eq_true] at hd
        rcases hd with ⟨hd,hsame⟩ | ⟨hin,hstores⟩
        · -- The part was dirty before; if the access settles it, the entry is now held.
          have hsame : i.renews b = false := by simpa using hsame
          have hold : b ∈ s.base.allocated := (halloc b hb).resolve_right (by simp [hsame])
          rcases hi.covered b hold p hd with ⟨e,hcovers,he⟩ | ⟨is',th',heq,j,hj,hsettles⟩
          · exact .inl ⟨e,hcovers,hholds e he⟩
          · cases hcall.symm.trans heq
            rcases mem_cons.mp hj with rfl | hj
            · left
              rw [Access.settles,hsame,Bool.false_and,Bool.or_false,Option.any_eq_true] at hsettles
              obtain ⟨e,hentry,hcovers⟩ := hsettles
              refine ⟨e,hcovers,?_⟩
              show ((j.entry c).elim s.bucket s.bucket.begin).Holds e
              rw [hentry]
              exact Bucket.holds_begin_self s.bucket e
            · exact .inr ⟨_,_,rfl,j,hj,hsettles⟩
        · -- The part is stored to: it is still to be registered, or an entry is there already.
          rcases (hi.settled _ _ hcall hin).1 b p hstores with hsettles | ⟨hretype,rfl⟩
          · exact .inr ⟨_,_,rfl,hsettles⟩
          · obtain ⟨e,hcovers,he⟩ := hp rfl _ _ _ hcall hretype
            exact .inl ⟨e,hcovers,hholds e he⟩
    next => cases h
  next => cases h

theorem Inv.step (hi : Inv c s) (hp : Permitted s m) (h : step c s m = some s') : Inv c s' := by
  cases m with
  | call => exact hi.call h
  | access => exact hi.access hp h
  | finish => exact hi.finish h
  | bucket => exact hi.bucket_step h

/-- Whenever no call is under way, and in particular at the end of an operation, what the
operations of epoch `c` have stored to since it was last written back is in the bucket, and
does not leave it without being written back. -/
theorem stores_registered {s₀ : State} {ms : List (Library.Move State Move)} (hinit : Initial s₀)
    (run : Run (step c) Permitted s₀ ms s) (hcall : s.call = none)
    (hb : b ∈ s.base.allocated) (hd : s.dirty b p = true) :
    ∃ e : Entry, e.covers b p ∧ s.bucket.Present e ∧
      ∀ moves bucket written, s.bucket.plays moves = some (bucket,written) →
        ¬bucket.Present e → e ∈ written := by
  have hi : Inv c s := run.invariant (Inv c) hinit.inv fun _ _ _ hi hp h => hi.step hp h
  have hrest := hi.resting hcall
  obtain ⟨e,hcovers,hholds⟩ := (hi.covered b hb p hd).resolve_right (by simp [hcall])
  refine ⟨e,hcovers,hholds.present hi.bucket hrest,?_⟩
  intro moves bucket written hplays hgone
  exact hholds.written_back hi.bucket hrest hplays hgone

def two (bucket : Bucket Entry) : State where
  base := {
    heap := fun a => ⟨none,3,.alloc,0,0,a⟩
    allocated := {1,3}
    thread := ⟨none,[],[],0,0,7⟩ }
  dirty := fun _ _ => false
  call := none
  bucket := bucket

def circBufferOne : Bucket Entry := .circBuffer ⟨1,0,0,fun _ => ⟨0,false⟩,none,fun _ => .start⟩

def hashSetOne : Bucket Entry := .hashSet ⟨1,Entry.blk,fun _ => none,none,fun _ => .start⟩

def inSlot (s : State) : Bool :=
  (s.call.bind fun r => retypesInPlace r.1).all fun b =>
    match s.bucket with
    | .hashSet t => t.push.isNone && t.payloads (t.idx ⟨b,false⟩) == some ⟨b,false⟩
    | .circBuffer _ => false

theorem permitted_of_in_slot {m : Move} (h : inSlot s = true) : Permitted s m := by
  intro _ is th b hcall hretype
  rw [inSlot,hcall,Option.bind_some,hretype,Option.all_some] at h
  split at h
  next heq =>
    obtain ⟨hpush,hslot⟩ := (Bool.and_eq_true _ _).mp h
    refine ⟨⟨b,false⟩,by simp [Entry.covers],?_⟩
    rw [heq]
    exact .inr ⟨by simpa using hslot,by simp [Option.isNone_iff_eq_none.mp hpush]⟩
  next => cases h

/-- A setter makes block 2, `pdelete` turns it into an anti-node, and it is in the bucket. -/
theorem stores_registered_retyped :
    ∃ ms s, Run (step 4) Permitted (two hashSetOne) ms s ∧ s.dirty 2 .header = true ∧
      ∃ e : Entry, e.covers 2 .header ∧ s.bucket.Present e := by
  obtain ⟨ms,s,run,hgood⟩ := Run.play (step 4) (fun s _ => inSlot s)
    (fun s => s.call.isNone && decide (2 ∈ s.base.allocated) && s.dirty 2 .header)
    (two hashSetOne)
    ([.call (.beginOp [] []),.finish,.call (.set 1 2)] ++ replicate 6 .access ++
      replicate 2 (.bucket .producer) ++
      [.finish,.call (.pdelete 2 5),.access,.access,.finish,.call (.endOp []),.finish]) (by decide)
  simp only [Bool.and_eq_true,Option.isNone_iff_eq_none,decide_eq_true_eq] at hgood
  obtain ⟨⟨hcall,halloc⟩,hdirty⟩ := hgood
  have run := run.weaken fun s m h => permitted_of_in_slot (m := m) h
  have hinit : Initial (two hashSetOne) := ⟨rfl,rfl,fun _ _ => rfl,by decide,rfl,fun _ => rfl⟩
  obtain ⟨e,hcovers,hpresent,-⟩ := stores_registered hinit run hcall halloc hdirty
  exact ⟨ms,s,run,hdirty,e,hcovers,hpresent⟩

def slotIs (e : Entry) : Bucket Entry → Bool
  | .circBuffer t => t.cap = 1 && t.payloads 0 = e
  | .hashSet _ => false

theorem present_of_slot_is {bucket : Bucket Entry} (h : slotIs e bucket = true)
    (hpresent : bucket.Present e') : e' = e := by
  cases bucket with
  | hashSet => cases h
  | circBuffer t =>
    obtain ⟨hcap,hentry⟩ : t.cap = 1 ∧ t.payloads 0 = e := by simpa [slotIs] using h
    obtain ⟨k,-,-,hk⟩ := hpresent
    rw [hcap,Nat.mod_one] at hk
    exact hk.symm.trans hentry

/-- The registration of a second block takes that of block 2 out of a buffer for one entry.
When `pdelete` then changes the type of block 2, it is not in the bucket any more. -/
theorem retyped_not_registered :
    ∃ ms s, Run (step 4) (fun _ _ => True) (two circBufferOne) ms s ∧ s.call = none ∧
      s.base.thread.epoch = none ∧ 2 ∈ s.base.allocated ∧ s.dirty 2 .header = true ∧
      ∀ e, s.bucket.Present e → e.blk ≠ 2 := by
  obtain ⟨ms,s,run,hgood⟩ := Run.play (step 4) (fun _ _ => true)
    (fun s => s.call.isNone && s.base.thread.epoch.isNone && decide (2 ∈ s.base.allocated) &&
      s.dirty 2 .header && slotIs ⟨4,false⟩ s.bucket)
    (two circBufferOne)
    ([.call (.beginOp [] []),.finish,.call (.set 1 2)] ++ replicate 6 .access ++
      replicate 3 (.bucket .producer) ++ [.finish,.call (.set 3 4)] ++
      replicate 6 .access ++ replicate 5 (.bucket .producer) ++
      [.finish,.call (.pdelete 2 5),.access,.access,.finish,.call (.endOp []),.finish]) (by decide)
  simp only [Bool.and_eq_true,Option.isNone_iff_eq_none,decide_eq_true_eq] at hgood
  obtain ⟨⟨⟨⟨hcall,hepoch⟩,halloc⟩,hdirty⟩,hbucket⟩ := hgood
  refine ⟨ms,s,run.weaken fun _ _ _ => trivial,hcall,hepoch,halloc,hdirty,?_⟩
  intro e hpresent
  rw [present_of_slot_is hbucket hpresent]
  decide

end Montage.Recoverable.Writeback
