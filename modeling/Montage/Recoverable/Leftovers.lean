import Montage.Recoverable.Ops

namespace Montage.Recoverable.Leftovers
open Library EpochSys ToBeFreed Function List

structure Entry where
  blk : Addr
  raw : Bool
  epoch : Nat
  deriving DecidableEq

/-- A bucket may write entries back when another one is pushed: `keep` is what it then holds
that has not been written back. -/
structure Buffer where
  keep : List Entry → Entry → List Entry
  sub : ∀ l x y, y ∈ keep l x → y = x ∨ y ∈ l
  self : ∀ l x, x ∈ keep l x

/-- `FixedCircBuffer`: the oldest entry makes room. -/
def circBuffer (cap : Nat) : Buffer where
  keep l x := (if l.length = cap then l.tail else l) ++ [x]
  sub l x y hy := by
    rcases mem_append.mp hy with hy | hy
    · split at hy
      · exact .inr (mem_of_mem_tail hy)
      · exact .inr hy
    · exact .inl (mem_singleton.mp hy)
  self l x := by simp

/-- `FixedHashSet`: another entry of the same slot makes room. -/
def hashSet (slot : Addr → Nat) : Buffer where
  keep l x := x :: l.filter fun y => slot y.blk ≠ slot x.blk ∨ y.blk = x.blk ∧ y.raw = x.raw
  sub l x y hy := by
    rcases mem_cons.mp hy with hy | hy
    · exact .inl hy
    · exact .inr (mem_filter.mp hy).1
  self l x := mem_cons_self

/-- One thread of the nonblocking system. `lastEpoch` is its slot of `last_epochs`, `frees`
are its to-be-freed buckets and `unwritten` what waits in its to-be-persisted ones. -/
structure State where
  heap : Heap
  thread : Thread
  lastEpoch : Nat
  frees : Nat → List Addr
  unwritten : Nat → List Entry

/-- The thread has done nothing, on an arbitrary heap. The slot of `last_epochs` is null, or
has the epoch of a descriptor that is used again after a restart. -/
def init (heap : Heap) (tid nextId : Nat) (reused : Option Nat) : State where
  heap := heap
  thread := ⟨none,[],[],tid,0,nextId⟩
  lastEpoch := match reused with
    | none => nullEpoch
    | some e => initEpoch + e
  frees _ := []
  unwritten _ := []

def push (buf : Buffer) (s : State) (l : Nat) (x : Entry) : State :=
  { s with
    unwritten := update s.unwritten (l % epochWindow)
      (buf.keep (s.unwritten (l % epochWindow)) x) }

def access (buf : Buffer) (c : Nat) (s : State) : Instr → State
  | .registerPersist b l => push buf s l ⟨b,false,c⟩
  | .registerPersistRaw b l => push buf s l ⟨b,true,c⟩
  | .registerFree b l =>
    { s with frees := update s.frees (l % epochWindow) (b :: s.frees (l % epochWindow)) }
  | i => { s with heap := i.write s.heap }

def perform (buf : Buffer) (c : Nat) (s : State) (is : List Instr) : State :=
  is.foldl (access buf c) s

/-- `persist_epoch_local`: everything in the bucket is written back. -/
def persistEpochLocal (s : State) (l : Nat) : State :=
  { s with unwritten := update s.unwritten (l % epochWindow) [] }

def localPersist (s : State) (c : Nat) : State :=
  if s.lastEpoch = c then s else persistEpochLocal s s.lastEpoch

/-- `help_free_local`: `delete_pblk` gets the label of the bucket. -/
def helpFreeLocal (buf : Buffer) (c : Nat) (s : State) (i : Nat) : State :=
  { perform buf c s ((s.frees (i % epochWindow)).flatMap fun b => deletePblk b i) with
    frees := update s.frees (i % epochWindow) [] }

def localFree (buf : Buffer) (s : State) (c : Nat) : State :=
  if s.lastEpoch = c then s else (window s.lastEpoch c).foldl (helpFreeLocal buf c) s

/-- `begin_transaction` and `begin_reclaim_transaction` on the buckets. The former calls
`reinit` in between. -/
def beginTransaction (buf : Buffer) (s : State) (c : Nat) : State :=
  localFree buf (localPersist s c) c

/-- `preclaim` within an operation of epoch `c`. -/
def reclaim (buf : Buffer) (s : State) (b a c : Nat) : Option State :=
  match reclaimPblk s.heap a b c with
  | .error _ => none
  | .ok is => some (perform buf c s is)

def dropPending (h : Heap) (th : Thread) (b : Addr) : Thread :=
  if (h b).retire = none then
    { th with pendingAllocs := (th.pendingAllocs.reverse.erase b).reverse }
  else th

/-- The calls of a thread, with the addresses that the allocator hands out. `preclaim` has
the epoch it finds when it is called outside operations, and `help` is what others do with
the buckets of the thread. -/
inductive Act where
  | pnew (a : Addr)
  | pretire (b a : Addr)
  | preclaim (b a c : Nat)
  | beginOp (c : Nat) (antis : List Addr)
  | endOp (antis : List Addr)
  | endReadonlyOp
  | abortOp
  | help (l : Nat)

def State.now (s : State) : Nat := s.thread.epoch.getD s.lastEpoch

def State.call (buf : Buffer) (s : State) (c : Nat) (r : Call) : Option State :=
  match r with
  | .error _ => none
  | .ok (is,th) => some { perform buf c s is with thread := th }

def step (buf : Buffer) (s : State) : Act → Option State
  | .pnew a => s.call buf s.now (pnew .nonblocking s.heap s.thread a)
  | .pretire b a => s.call buf s.now (pretire .nonblocking s.heap s.thread b a)
  | .preclaim b a c =>
    match s.thread.epoch with
    | some e => reclaim buf s b a e
    | none =>
      if initEpoch ≤ c ∧ s.lastEpoch ≤ c ∧ c ≤ uint64Max then
        let s := beginTransaction buf s c
        (reclaim buf { s with thread := dropPending s.heap s.thread b } b a c).map
          fun s => { s with lastEpoch := c }
      else none
  | .beginOp c antis =>
    if s.thread.epoch = none ∧ initEpoch ≤ c ∧ s.lastEpoch ≤ c ∧ c ≤ uint64Max then
      let s := beginTransaction buf s c
      s.call buf c (beginOp .nonblocking s.heap s.thread c antis)
    else none
  | .endOp antis =>
    match s.thread.epoch with
    | none => none
    | some c => (s.call buf c (endOp .nonblocking s.heap s.thread antis)).map
        fun s => { s with lastEpoch := c }
  | .endReadonlyOp =>
    match s.thread.epoch with
    | none => none
    | some c =>
      if s.thread.pendingAllocs = [] ∧ s.thread.pendingRetires = [] then
        some { s with thread := { s.thread with epoch := none }, lastEpoch := c }
      else none
  | .abortOp =>
    match s.thread.epoch with
    | none => none
    | some c => (s.call buf c (abortOp .nonblocking s.heap s.thread)).map
        fun s => { s with lastEpoch := c }
  | .help l => some (persistEpochLocal s l)

/-- When `begin_transaction` in epoch `c` reaches `reinit`, nothing is left that was
registered during an operation of a smaller epoch. -/
def Flushed (s : State) (c : Nat) : Prop :=
  ∀ j, ∀ x ∈ (localPersist s c).unwritten j, c ≤ x.epoch

def begins (s : State) : Act → Option Nat
  | .beginOp c _ => some c
  | .preclaim _ _ c => if s.thread.epoch = none then some c else none
  | _ => none

/-- An operation of epoch `c` begins without deallocations under a label whose bucket is not
that of `c`. -/
def tidy (s : State) (a : Act) : Prop :=
  ∀ c, begins s a = some c → s.lastEpoch ≠ c →
    ∀ i ∈ window s.lastEpoch c, s.frees (i % epochWindow) ≠ [] →
      i % epochWindow = c % epochWindow

def within (c : Nat) (s : State) (a : Act) : Prop :=
  (∀ l, a ≠ .help l) ∧ ∀ e, begins s a = some e → e = c

def Clean (s : State) : Prop :=
  ∀ j, ∀ x ∈ s.unwritten j, j = s.now % epochWindow ∧ x.epoch = s.now

def Stray (c : Nat) (s : State) : Prop :=
  s.now = c ∧ ∃ j, ∃ x ∈ s.unwritten j, j ≠ c % epochWindow ∧ x.epoch = c

def label : Instr → Option Nat
  | .registerPersist _ l | .registerPersistRaw _ l => some l
  | _ => none

def Under (c : Nat) (is : List Instr) : Prop := ∀ i ∈ is, ∀ l, label i = some l → l = c

variable {buf : Buffer} {s s' : State} {a b c e i j l : Nat} {is js : List Instr} {x : Entry}
  {h : Heap} {th th' : Thread} {act : Act}

theorem Under.append (h : Under c is) (h' : Under c js) : Under c (is ++ js) := by
  intro i hi
  rcases mem_append.mp hi with hi | hi
  · exact h i hi
  · exact h' i hi

theorem Under.nil (c : Nat) : Under c [] := by simp [Under]

theorem delete_pblk_under (b c : Nat) : Under c (deletePblk b c) := by
  unfold deletePblk
  split <;> simp [Under,label]

theorem register_alloc_under (hr : registerAlloc .nonblocking h th b c = .ok (is,th')) :
    Under c is := by
  obtain ⟨-,js,hjs,⟨hk,-⟩ | ⟨-,rfl⟩⟩ := register_alloc_ok hr
  · cases hk
  · obtain ⟨-,-,rfl⟩ := register_alloc_pblk_ok hjs
    split <;> split <;> simp [Under,label]

theorem pnew_under (last : Nat) (hr : pnew .nonblocking h th a = .ok (is,th')) :
    Under (th.epoch.getD last) is ∧ th'.epoch = th.epoch := by
  unfold pnew at hr
  split at hr
  next =>
    cases hr
    exact ⟨by simp [Under,label],rfl⟩
  next c hc =>
    obtain ⟨⟨js,th1⟩,hreg,hr⟩ := of_bind_ok hr
    cases hr
    refine ⟨?_,(register_alloc_ok hreg).1.1⟩
    rw [hc]
    have hnew : Under c [.construct a .init 0] := by simp [Under,label]
    exact hnew.append (register_alloc_under hreg)

theorem prepare_retire_under {r : Addr × Option Addr}
    (hr : prepareRetire .nonblocking h th b a c = .ok (is,r)) : Under c is := by
  obtain ⟨hk,-⟩ | ⟨-,-,rfl⟩ := prepare_retire_ok hr
  · cases hk
  · simp [Under,label,copyPblk]

theorem pretire_under (last : Nat) (hr : pretire .nonblocking h th b a = .ok (is,th')) :
    Under (th.epoch.getD last) is ∧ th'.epoch = th.epoch := by
  unfold pretire at hr
  split at hr
  next =>
    cases hr
    exact ⟨Under.nil _,rfl⟩
  next hc =>
    obtain ⟨⟨js,r⟩,hprep,hr⟩ := of_bind_ok hr
    cases hr
    rw [hc]
    exact ⟨prepare_retire_under hprep,rfl⟩

theorem begin_op_under {antis : List Addr}
    (hr : beginOp .nonblocking h th c antis = .ok (is,th')) :
    Under c is ∧ th'.epoch = some c :=
  begin_op_all (Under.nil c) Under.append (fun _ _ _ _ _ _ => prepare_retire_under)
    (fun _ _ _ _ _ => register_alloc_under) hr

theorem retire_pblk_under {anti : Option Addr} (hr : NbEpochSys.retirePblk h b c anti = .ok is) :
    Under c is := by
  obtain ⟨a,-,rfl⟩ := NbEpochSys.retire_pblk_ok hr
  simp [Under,label]

theorem end_op_under {antis : List Addr} (hc : th.epoch = some c)
    (hr : endOp .nonblocking h th antis = .ok (is,th')) : Under c is ∧ th'.epoch = none := by
  simp only [endOp,hc] at hr
  obtain ⟨js,hjs,hr⟩ := of_bind_ok hr
  cases hr
  exact ⟨retires_all (Under.nil c) Under.append (by simp) (fun _ _ _ _ _ => retire_pblk_under)
    hjs,rfl⟩

theorem abort_op_under (hc : th.epoch = some c)
    (hr : abortOp .nonblocking h th = .ok (is,th')) : Under c is ∧ th'.epoch = none := by
  refine abort_op_all (Under.nil c) Under.append ?_ ?_ hc hr
  · intro anti
    cases anti with
    | none => exact Under.nil c
    | some a => exact delete_pblk_under a c
  · intro h b is hr
    rw [reset_alloc_pblk_ok hr]
    simp [Under,label]

theorem reclaim_pblk_under (hr : reclaimPblk h a b c = .ok is) : Under c is := by
  rcases reclaim_pblk_ok hr with hf | rfl | rfl | ⟨anti,-,rfl⟩ | ⟨anti,-,rfl⟩
  · rcases free_pblk_ok hf with ⟨-,rfl⟩ | ⟨-,-,rfl⟩ | ⟨-,-,-,rfl⟩ | ⟨-,-,rfl⟩
    · exact delete_pblk_under b c
    · simp [Under,label]
    · simp [Under,label]
    · simp [Under,label,copyPblk]
  · exact delete_pblk_under b c
  · simp [Under,label]
  · intro i hi l hl
    rcases mem_cons.mp hi with rfl | hi
    · cases hl
    · exact delete_pblk_under b c i hi l hl
  · simp [Under,label]

/-! ## What accesses leave in the buckets -/

theorem perform_frame (buf : Buffer) (c : Nat) (s : State) (is : List Instr) :
    (perform buf c s is).thread = s.thread ∧ (perform buf c s is).lastEpoch = s.lastEpoch := by
  induction is generalizing s with
  | nil => exact ⟨rfl,rfl⟩
  | cons i _ ih =>
    obtain ⟨hthread,hlast⟩ := ih (access buf c s i)
    have hfirst : (access buf c s i).thread = s.thread ∧
        (access buf c s i).lastEpoch = s.lastEpoch := by
      cases i <;> exact ⟨rfl,rfl⟩
    exact ⟨hthread.trans hfirst.1,hlast.trans hfirst.2⟩

theorem access_unwritten (buf : Buffer) (c : Nat) (s : State) (i : Instr) :
    (access buf c s i).unwritten = s.unwritten ∨ ∃ l x, label i = some l ∧ x.epoch = c ∧
      (access buf c s i).unwritten = update s.unwritten (l % epochWindow)
        (buf.keep (s.unwritten (l % epochWindow)) x) := by
  cases i with
  | registerPersist b l | registerPersistRaw b l => exact .inr ⟨l,_,rfl,rfl,rfl⟩
  | _ => exact .inl rfl

theorem perform_mem (hu : Under l is) (hx : x ∈ (perform buf c s is).unwritten j) :
    x ∈ s.unwritten j ∨ j = l % epochWindow ∧ x.epoch = c := by
  induction is generalizing s with
  | nil => exact .inl hx
  | cons i _ ih =>
    rcases ih (fun i hi => hu i (mem_cons_of_mem _ hi)) hx with hx | hx
    · rcases access_unwritten buf c s i with heq | ⟨l',y,hl,hy,heq⟩
      · exact .inl (heq ▸ hx)
      · cases hu i mem_cons_self l' hl
        rw [heq,update_apply] at hx
        split at hx
        next hj =>
          rcases buf.sub _ _ _ hx with rfl | hx
          · exact .inr ⟨hj,hy⟩
          · exact .inl (hj ▸ hx)
        next => exact .inl hx
    · exact .inr hx

def Has (c j : Nat) (s : State) : Prop := ∃ x ∈ s.unwritten j, x.epoch = c

theorem access_has (hs : Has c j s) (i : Instr) : Has c j (access buf c s i) := by
  obtain ⟨x,hx,hc⟩ := hs
  rcases access_unwritten buf c s i with heq | ⟨l,y,-,hy,heq⟩
  · exact ⟨x,heq ▸ hx,hc⟩
  · by_cases hj : j = l % epochWindow
    · exact ⟨y,by rw [heq,hj,update_self]; exact buf.self _ y,hy⟩
    · exact ⟨x,by rw [heq,update_of_ne hj]; exact hx,hc⟩

theorem perform_has (hs : Has c j s) (is : List Instr) : Has c j (perform buf c s is) := by
  induction is generalizing s with
  | nil => exact hs
  | cons i _ ih => exact ih (access_has hs i)

theorem perform_append (buf : Buffer) (c : Nat) (s : State) (is js : List Instr) :
    perform buf c s (is ++ js) = perform buf c (perform buf c s is) js := foldl_append

theorem delete_has (hl : l ≠ nullEpoch) :
    Has c (l % epochWindow) (perform buf c s (deletePblk b l)) := by
  refine ⟨⟨b,true,c⟩,?_,rfl⟩
  simp only [deletePblk,hl,if_false,perform,cons_append,nil_append,foldl_cons,
    foldl_nil,access,push,update_self]
  exact buf.self _ _

theorem flat_map_under (bs : List Addr) (i : Nat) : Under i (bs.flatMap fun b => deletePblk b i) := by
  intro ins hins
  obtain ⟨b,-,hins⟩ := mem_flatMap.mp hins
  exact delete_pblk_under b i ins hins

theorem help_free_has (hs : Has c j s) (i : Nat) : Has c j (helpFreeLocal buf c s i) :=
  perform_has hs _

theorem fold_has (hs : Has c j s) (is : List Nat) : Has c j (is.foldl (helpFreeLocal buf c) s) := by
  induction is generalizing s with
  | nil => exact hs
  | cons i _ ih => exact ih (help_free_has hs i)

theorem help_free_stray (hf : s.frees (i % epochWindow) ≠ []) (hi : i ≠ nullEpoch) :
    Has c (i % epochWindow) (helpFreeLocal buf c s i) := by
  obtain ⟨b,bs,hb⟩ := exists_cons_of_ne_nil hf
  have hs : Has c (i % epochWindow)
      (perform buf c s ((s.frees (i % epochWindow)).flatMap fun b => deletePblk b i)) := by
    rw [hb,flatMap_cons,perform_append]
    exact perform_has (delete_has hi) _
  exact hs

theorem fold_stray {is : List Nat} (hi : i ∈ is) (hf : s.frees (i % epochWindow) ≠ [])
    (hpos : ∀ i ∈ is, i ≠ nullEpoch) :
    Has c (i % epochWindow) (is.foldl (helpFreeLocal buf c) s) := by
  induction is generalizing s with
  | nil => cases hi
  | cons i0 is ih =>
    by_cases hmod : i0 % epochWindow = i % epochWindow
    · have hfirst : Has c (i0 % epochWindow) (helpFreeLocal buf c s i0) :=
        help_free_stray (hmod ▸ hf) (hpos i0 mem_cons_self)
      rw [hmod] at hfirst
      exact fold_has hfirst is
    · have hi : i ∈ is := by
        rcases mem_cons.mp hi with rfl | hi
        · exact absurd rfl hmod
        · exact hi
      refine ih hi ?_ fun i hi => hpos i (mem_cons_of_mem _ hi)
      simpa [helpFreeLocal,update_of_ne (Ne.symm hmod)] using hf

theorem fold_mem {is : List Nat}
    (ht : ∀ i ∈ is, s.frees (i % epochWindow) ≠ [] → i % epochWindow = c % epochWindow)
    (hx : x ∈ (is.foldl (helpFreeLocal buf c) s).unwritten j) :
    x ∈ s.unwritten j ∨ j = c % epochWindow ∧ x.epoch = c := by
  induction is generalizing s with
  | nil => exact .inl hx
  | cons i _ ih =>
    have hrest : x ∈ (helpFreeLocal buf c s i).unwritten j ∨ j = c % epochWindow ∧ x.epoch = c := by
      refine ih ?_ hx
      intro i' hi' hf
      apply ht i' (mem_cons_of_mem _ hi')
      by_cases hmod : i' % epochWindow = i % epochWindow
      · simp [helpFreeLocal,hmod] at hf
      · simpa [helpFreeLocal,update_of_ne hmod] using hf
    rcases hrest with hx | hx
    · rcases perform_mem (flat_map_under _ i) hx with hx | ⟨hj,hc⟩
      · exact .inl hx
      · by_cases hf : s.frees (i % epochWindow) = []
        · simp only [helpFreeLocal,hf,flatMap_nil] at hx
          exact .inl hx
        · exact .inr ⟨hj.trans (ht i mem_cons_self hf),hc⟩
    · exact .inr hx

/-! ## Steps -/

theorem local_persist_clean (hs : Clean s) (hidle : s.thread.epoch = none)
    (hx : x ∈ (localPersist s c).unwritten j) : s.lastEpoch = c ∧ x ∈ s.unwritten j := by
  have hnow : s.now = s.lastEpoch := by simp [State.now,hidle]
  unfold localPersist at hx
  split at hx
  next heq => exact ⟨heq,hx⟩
  next =>
    simp only [persistEpochLocal,update_apply] at hx
    split at hx
    next => cases hx
    next hj => exact absurd (hnow ▸ (hs j x hx).1) hj

theorem local_persist_frame (s : State) (c : Nat) : (localPersist s c).thread = s.thread ∧
    (localPersist s c).lastEpoch = s.lastEpoch ∧ (localPersist s c).frees = s.frees := by
  unfold localPersist
  split <;> exact ⟨rfl,rfl,rfl⟩

theorem fold_frame (buf : Buffer) (c : Nat) (s : State) (is : List Nat) :
    (is.foldl (helpFreeLocal buf c) s).thread = s.thread ∧
      (is.foldl (helpFreeLocal buf c) s).lastEpoch = s.lastEpoch := by
  induction is generalizing s with
  | nil => exact ⟨rfl,rfl⟩
  | cons i _ ih =>
    obtain ⟨hthread,hlast⟩ := ih (helpFreeLocal buf c s i)
    obtain ⟨hthread',hlast'⟩ := perform_frame buf c s
      ((s.frees (i % epochWindow)).flatMap fun b => deletePblk b i)
    exact ⟨hthread.trans hthread',hlast.trans hlast'⟩

theorem begin_frame (buf : Buffer) (s : State) (c : Nat) :
    (beginTransaction buf s c).thread = s.thread ∧
      (beginTransaction buf s c).lastEpoch = s.lastEpoch := by
  obtain ⟨hthread,hlast,-⟩ := local_persist_frame s c
  unfold beginTransaction localFree
  split
  · exact ⟨hthread,hlast⟩
  · obtain ⟨hthread',hlast'⟩ := fold_frame buf c (localPersist s c)
      (window (localPersist s c).lastEpoch c)
    exact ⟨hthread'.trans hthread,hlast'.trans hlast⟩

inductive Kind (buf : Buffer) (s : State) (a : Act) (s' : State) : Prop
  | call (is : List Instr) (none : begins s a = none) (under : Under s.now is)
      (now : s'.now = s.now) (unwritten : s'.unwritten = (perform buf s.now s is).unwritten)
      (last : s'.lastEpoch = s.lastEpoch ∨ s'.lastEpoch = s.now)
  | begin (c : Nat) (is : List Instr) (some : begins s a = some c) (idle : s.thread.epoch = none)
      (init : initEpoch ≤ c) (le : s.lastEpoch ≤ c ∧ c ≤ uint64Max) (under : Under c is)
      (now : s'.now = c)
      (unwritten : s'.unwritten = (perform buf c (beginTransaction buf s c) is).unwritten)
      (last : s'.lastEpoch = s.lastEpoch ∨ s'.lastEpoch = c)
  | help (l : Nat) (act : a = .help l) (state : s' = persistEpochLocal s l)

theorem perform_congr {t : State} (buf : Buffer) (c : Nat) (is : List Instr)
    (h : t.unwritten = s.unwritten) :
    (perform buf c t is).unwritten = (perform buf c s is).unwritten := by
  induction is generalizing s t with
  | nil => exact h
  | cons i _ ih =>
    apply ih
    cases i <;> simp [access,push,h]

theorem call_some {r : Call} (h : s.call buf c r = some s') :
    ∃ is th, r = .ok (is,th) ∧ s' = { perform buf c s is with thread := th } := by
  unfold State.call at h
  split at h
  next => cases h
  next is th => exact ⟨is,th,rfl,(Option.some.inj h).symm⟩

theorem reclaim_some (h : reclaim buf s b a c = some s') :
    ∃ is, reclaimPblk s.heap a b c = .ok is ∧ s' = perform buf c s is := by
  unfold reclaim at h
  split at h
  next => cases h
  next is hr => exact ⟨is,hr,(Option.some.inj h).symm⟩

theorem now_of_epoch (h : s.thread.epoch = some c) : s.now = c := by simp [State.now,h]

theorem now_congr (hthread : s'.thread.epoch = s.thread.epoch)
    (hlast : s'.lastEpoch = s.lastEpoch) : s'.now = s.now := by
  simp only [State.now,hthread,hlast]

theorem Kind.of_call (hnone : begins s act = none) (hu : Under s.now is)
    (hsame : th.epoch = s.thread.epoch) :
    Kind buf s act { perform buf s.now s is with thread := th } := by
  have hlast := (perform_frame buf s.now s is).2
  exact .call is hnone hu (now_congr hsame hlast) rfl (.inl hlast)

theorem Kind.of_end (hnone : begins s act = none) (hc : s.thread.epoch = some c) (hu : Under c is)
    (hepoch : th.epoch = none) :
    Kind buf s act { perform buf c s is with thread := th, lastEpoch := c } := by
  obtain rfl := now_of_epoch hc
  refine .call is hnone hu ?_ rfl (.inr rfl)
  simp [State.now,hepoch]

theorem step_kind (h : step buf s act = some s') : Kind buf s act s' := by
  cases act with
  | pnew =>
    obtain ⟨is,th,hr,rfl⟩ := call_some h
    obtain ⟨hu,hsame⟩ := pnew_under s.lastEpoch hr
    exact .of_call rfl hu hsame
  | pretire =>
    obtain ⟨is,th,hr,rfl⟩ := call_some h
    obtain ⟨hu,hsame⟩ := pretire_under s.lastEpoch hr
    exact .of_call rfl hu hsame
  | preclaim b a c =>
    simp only [step] at h
    split at h
    next he =>
      obtain ⟨is,hr,rfl⟩ := reclaim_some h
      obtain rfl := now_of_epoch he
      have hthread := (perform_frame buf s.now s is).1
      have hkind : Kind buf s (.preclaim b a c) { perform buf s.now s is with thread := s.thread } :=
        .of_call (by simp [begins,he]) (reclaim_pblk_under hr) rfl
      rwa [← hthread] at hkind
    next hnone =>
      obtain ⟨hok,h⟩ := Option.ite_none_right_eq_some.mp h
      obtain ⟨s₁,hs1,rfl⟩ := Option.map_eq_some_iff.mp h
      obtain ⟨is,hr,rfl⟩ := reclaim_some hs1
      refine .begin c is (by simp [begins,hnone]) hnone hok.1 hok.2 (reclaim_pblk_under hr)
        ?_ (perform_congr buf c is rfl) (.inr rfl)
      simp only [State.now,(perform_frame buf c _ is).1,dropPending]
      split <;> simp [(begin_frame buf s c).1,hnone]
  | beginOp c =>
    obtain ⟨hok,h⟩ := Option.ite_none_right_eq_some.mp h
    obtain ⟨is,th,hr,rfl⟩ := call_some h
    obtain ⟨hu,hepoch⟩ := begin_op_under hr
    refine .begin c is rfl hok.1 hok.2.1 hok.2.2 hu (now_of_epoch hepoch) rfl (.inl ?_)
    exact (perform_frame buf c _ is).2.trans (begin_frame buf s c).2
  | endOp =>
    simp only [step] at h
    split at h
    next => cases h
    next hc =>
      obtain ⟨s₁,hs1,rfl⟩ := Option.map_eq_some_iff.mp h
      obtain ⟨is,th,hr,rfl⟩ := call_some hs1
      obtain ⟨hu,hepoch⟩ := end_op_under hc hr
      exact .of_end rfl hc hu hepoch
  | endReadonlyOp =>
    simp only [step] at h
    split at h
    next => cases h
    next c hc =>
      obtain ⟨-,h⟩ := Option.ite_none_right_eq_some.mp h
      cases h
      have hnil := Under.nil c
      exact .of_end rfl hc hnil rfl
  | abortOp =>
    simp only [step] at h
    split at h
    next => cases h
    next hc =>
      obtain ⟨s₁,hs1,rfl⟩ := Option.map_eq_some_iff.mp h
      obtain ⟨is,th,hr,rfl⟩ := call_some hs1
      obtain ⟨hu,hepoch⟩ := abort_op_under hc hr
      exact .of_end rfl hc hu hepoch
  | help l =>
    cases h
    exact .help l rfl rfl

theorem Clean.begin (hs : Clean s) (hidle : s.thread.epoch = none) (hb : begins s act = some c)
    (ht : tidy s act) (hx : x ∈ (beginTransaction buf s c).unwritten j) :
    j = c % epochWindow ∧ x.epoch = c := by
  have hnow : s.now = s.lastEpoch := by simp [State.now,hidle]
  obtain ⟨-,hlast,hfrees⟩ := local_persist_frame s c
  have hold : x ∈ (localPersist s c).unwritten j → j = c % epochWindow ∧ x.epoch = c := by
    intro hx
    obtain ⟨heq,hx⟩ := local_persist_clean hs hidle hx
    have := hs j x hx
    rwa [hnow,heq] at this
  unfold beginTransaction localFree at hx
  split at hx
  next => exact hold hx
  next hne =>
    rw [hlast] at hne
    have htidy := ht c hb hne
    rcases fold_mem (by rw [hlast,hfrees]; exact htidy) hx with hx | hx
    · exact hold hx
    · exact hx

theorem Clean.step (hs : Clean s) (ht : tidy s act) (h : step buf s act = some s') : Clean s' := by
  intro j x hx
  cases step_kind h with
  | call _ _ under now unwritten =>
    rw [unwritten] at hx
    rw [now]
    rcases perform_mem under hx with hx | hx
    · exact hs j x hx
    · exact hx
  | begin _ _ some idle _ _ under now unwritten =>
    rw [unwritten] at hx
    rw [now]
    rcases perform_mem under hx with hx | hx
    · exact hs.begin idle some ht hx
    · exact hx
  | help _ _ state =>
    subst state
    simp only [persistEpochLocal,update_apply] at hx
    split at hx
    · cases hx
    · exact hs j x hx

/-- Epochs are null or at least `INIT_EPOCH`. -/
def Dated (s : State) : Prop :=
  (s.lastEpoch = nullEpoch ∨ initEpoch ≤ s.lastEpoch) ∧ (s.now = nullEpoch ∨ initEpoch ≤ s.now)

theorem Dated.step (hd : Dated s) (h : step buf s act = some s') : Dated s' := by
  cases step_kind h with
  | call _ _ _ now _ last =>
    refine ⟨?_,now ▸ hd.2⟩
    rcases last with last | last
    · exact last ▸ hd.1
    · exact last ▸ hd.2
  | begin _ _ _ _ init _ _ now _ last =>
    refine ⟨?_,.inr (now ▸ init)⟩
    rcases last with last | last
    · exact last ▸ hd.1
    · exact .inr (last ▸ init)
  | help _ _ state => exact state ▸ hd

theorem window_pos (hd : s.lastEpoch = nullEpoch ∨ initEpoch ≤ s.lastEpoch)
    (hc : s.lastEpoch < c) (hm : c ≤ uint64Max) (hi : i ∈ window s.lastEpoch c) :
    i ≠ nullEpoch := by
  rcases hd with hd | hd
  · rw [hd] at hi
    simp [nullEpoch,window_null] at hi
  · simp only [initEpoch] at hd
    have := (mem_window (by omega) hc hm).mp hi
    simp only [nullEpoch]
    omega

theorem untidy_stray (hd : Dated s) (hb : begins s act = some c) (hu : ¬tidy s act)
    (h : step buf s act = some s') : Stray c s' := by
  unfold tidy at hu
  push Not at hu
  obtain ⟨c',hb',hne,i,hi,hf,hmod⟩ := hu
  obtain rfl : c' = c := Option.some.inj (hb'.symm.trans hb)
  obtain ⟨-,hlast,hfrees⟩ := local_persist_frame s c'
  cases step_kind h with
  | call _ none => cases none.symm.trans hb
  | begin e is some _ _ le _ now unwritten =>
    obtain rfl : e = c' := Option.some.inj (some.symm.trans hb)
    have hpos := fun i hi => window_pos (i := i) hd.1 (lt_of_le_of_ne le.1 hne) le.2 hi
    have hhas : Has e (i % epochWindow) (beginTransaction buf s e) := by
      unfold beginTransaction localFree
      rw [hlast,if_neg hne]
      exact fold_stray hi (by rwa [hfrees]) hpos
    obtain ⟨x,hx,hepoch⟩ :
        Has e (i % epochWindow) (perform buf e (beginTransaction buf s e) is) := perform_has hhas is
    exact ⟨now,_,x,unwritten ▸ hx,hmod,hepoch⟩
  | help _ act =>
    subst act
    cases hb

theorem begin_again (hlast : s.lastEpoch = c) : beginTransaction buf s c = s := by
  simp [beginTransaction,localFree,localPersist,hlast]

theorem within_last (hnow : s.now = c) (hidle : s.thread.epoch = none) : s.lastEpoch = c := by
  simpa [State.now,hidle] using hnow

theorem Stray.step (hs : Stray c s) (hw : within c s act) (h : step buf s act = some s') :
    Stray c s' := by
  obtain ⟨hnow,j,x,hx,hj,hc⟩ := hs
  have hhas : Has c j s := ⟨x,hx,hc⟩
  cases step_kind h with
  | call is _ _ now unwritten =>
    rw [hnow] at unwritten
    obtain ⟨y,hy,hyc⟩ : Has c j (perform buf c s is) := perform_has hhas is
    exact ⟨now.trans hnow,j,y,unwritten ▸ hy,hj,hyc⟩
  | begin e is some idle _ _ _ now unwritten =>
    obtain rfl := hw.2 e some
    rw [begin_again (within_last hnow idle)] at unwritten
    obtain ⟨y,hy,hyc⟩ : Has e j (perform buf e s is) := perform_has hhas is
    exact ⟨now,j,y,unwritten ▸ hy,hj,hyc⟩
  | help l act => exact absurd act (hw.1 l)

theorem within_tidy (hnow : s.now = c) (hw : within c s act) (h : step buf s act = some s') :
    tidy s act := by
  intro e he hne
  cases step_kind h with
  | call _ none => cases none.symm.trans he
  | begin _ _ _ idle =>
    exact absurd ((within_last hnow idle).trans (hw.2 e he).symm) hne
  | help _ act =>
    subst act
    cases he

theorem within_now (hnow : s.now = c) (hw : within c s act) (h : step buf s act = some s') :
    s'.now = c := by
  cases step_kind h with
  | call _ _ _ now => exact now.trans hnow
  | begin e _ some _ _ _ _ now => exact now.trans (hw.2 e some)
  | help l act => exact absurd act (hw.1 l)

theorem Clean.flushed (hs : Clean s) (hidle : s.thread.epoch = none) (c : Nat) : Flushed s c := by
  intro j x hx
  obtain ⟨hlast,hx⟩ := local_persist_clean hs hidle hx
  have hc := (hs j x hx).2
  simp only [State.now,hidle,Option.getD_none] at hc
  omega

theorem Stray.not_flushed (hs : Stray c s) (hidle : s.thread.epoch = none) (hc : c < e) :
    ¬Flushed s e := by
  obtain ⟨hnow,j,x,hx,hj,hxc⟩ := hs
  intro hf
  have hlast := within_last hnow hidle
  have hmem : x ∈ (localPersist s e).unwritten j := by
    unfold localPersist
    split
    · exact hx
    · simpa [persistEpochLocal,hlast,update_of_ne hj] using hx
  have := hf j x hmem
  omega

theorem init_clean (heap : Heap) (tid nextId : Nat) (reused : Option Nat) :
    Clean (init heap tid nextId reused) ∧ Dated (init heap tid nextId reused) := by
  refine ⟨by simp [Clean,init],?_⟩
  cases reused with
  | none => exact ⟨.inl rfl,.inl rfl⟩
  | some => exact ⟨.inr (Nat.le_add_right _ _),.inr (Nat.le_add_right _ _)⟩

/-- As long as operations begin without deallocations under labels whose bucket is not that
of their epoch, every `begin_transaction` finds the entries of earlier epochs written
back. After such a run, an operation of epoch `c` and what the thread does in this epoch,
the next `begin_transaction` finds them written back exactly when this operation has also
begun in that way. -/
theorem leftovers_iff {heap : Heap} {tid nextId : Nat} {reused : Option Nat} {s₁ s₂ : State}
    {ms ms' : List (Move State Act)} {c' : Nat}
    (run : Run (step buf) tidy (init heap tid nextId reused) ms s)
    (hb : begins s act = some c) (h : step buf s act = some s₁)
    (run' : Run (step buf) (within c) s₁ ms' s₂) (hidle : s₂.thread.epoch = none)
    (hc : c < c') :
    (∀ m ∈ ms, ∀ e antis, m.act = .beginOp e antis → Flushed m.pre e) ∧
      (Flushed s₂ c' ↔ tidy s act) := by
  have hinit := init_clean heap tid nextId reused
  have hkeep : ∀ s a s', Clean s ∧ Dated s → tidy s a → step buf s a = some s' →
      Clean s' ∧ Dated s' := fun _ _ _ hs ht h => ⟨hs.1.step ht h,hs.2.step h⟩
  obtain ⟨hclean,hdated⟩ := run.invariant _ hinit hkeep
  refine ⟨?_,?_,?_⟩
  · intro m hm e antis hact
    obtain ⟨hs,-,hstep⟩ := run.each _ hinit hkeep m hm
    refine hs.1.flushed ?_ e
    rw [hact] at hstep
    simp only [step] at hstep
    split at hstep
    next hok => exact hok.1
    next => cases hstep
  · intro hf
    by_contra hu
    have hstray := run'.invariant _ (untidy_stray hdated hb hu h) fun _ _ _ hs hw h => hs.step hw h
    exact hstray.not_flushed hidle hc hf
  · intro ht
    have hnow : s₁.now = c := by
      cases step_kind h with
      | call _ none => cases none.symm.trans hb
      | begin _ _ some _ _ _ _ now =>
        exact now.trans (Option.some.inj (some.symm.trans hb))
      | help _ act =>
        subst act
        cases hb
    obtain ⟨hclean',-⟩ := run'.invariant (fun s => Clean s ∧ s.now = c) ⟨hclean.step ht h,hnow⟩
      fun _ _ _ hs hw h => ⟨hs.1.step (within_tidy hs.2 hw h) h,within_now hs.2 hw h⟩
    exact hclean'.flushed hidle c'

/-- What an operation of epoch 4 has registered is written back when one of epoch 5 begins. -/
theorem leftovers_iff_fresh : ∃ ms s,
    Run (step (circBuffer 2)) (fun _ _ => True)
      (init (fun _ => ⟨none,nullEpoch,.init,0,0,0⟩) 0 7 none) ms s ∧
      s.unwritten 0 = [⟨1,false,4⟩] ∧ Flushed s 5 := by
  have hend : ((step (circBuffer 2) (init (fun _ => ⟨none,nullEpoch,.init,0,0,0⟩) 0 7 none)
      (.beginOp 4 [])).bind fun s₁ => (step (circBuffer 2) s₁ (.pnew 1)).bind fun s₂ =>
      (step (circBuffer 2) s₂ (.endOp [])).map fun s => (s.thread.epoch,s.unwritten 0)) =
      some (none,[⟨1,false,4⟩]) := by decide
  obtain ⟨s₁,h1,hend⟩ := Option.bind_eq_some_iff.mp hend
  obtain ⟨s₂,h2,hend⟩ := Option.bind_eq_some_iff.mp hend
  obtain ⟨s,h3,hfacts⟩ := Option.map_eq_some_iff.mp hend
  obtain ⟨hidle,hunwritten⟩ := Prod.mk.inj hfacts
  have run' : Run (step (circBuffer 2)) (within 4) s₁ _ s :=
    (Run.nil.snoc ⟨by simp,by simp [begins]⟩ h2).snoc ⟨by simp,by simp [begins]⟩ h3
  refine ⟨_,s,((Run.nil.snoc trivial h1).snoc trivial h2).snoc trivial h3,hunwritten,?_⟩
  refine (leftovers_iff Run.nil rfl h1 run' hidle (by decide)).2.mpr ?_
  intro c _ _ i _ hf
  exact absurd rfl hf

/-- The thread retires a block and reclaims it in epoch 5. It is deallocated when an operation
of epoch 7 begins, under label 5. Others write the buckets of the thread back whenever the
epoch advances. -/
def lateDeletion : List Act :=
  [.beginOp 4 [],.pnew 1,.endOp [],.help 3,.beginOp 5 [],.pretire 1 2,.endOp [0],.preclaim 1 0 5,
    .help 4,.help 5,.beginOp 7 [],.endOp [],.help 6]

/-- The next `begin_transaction` does not find its header written back, in either container. -/
theorem deletion_left_over : [circBuffer 64,hashSet (fun b => b / 64 % 64)].Forall fun buf =>
    ∃ ms s s', Run (step buf) (fun _ _ => True)
      (init (fun _ => ⟨none,nullEpoch,.init,0,0,0⟩) 0 7 none) ms s ∧
      step buf s (.beginOp 8 []) = some s' ∧
      (⟨1,true,7⟩ : Entry) ∈ (localPersist s 8).unwritten 1 ∧ ¬Flushed s 8 := by
  refine forall_iff_forall_mem.mpr fun buf hbuf => ?_
  have hend : ∃ s, play (step buf) (init (fun _ => ⟨none,nullEpoch,.init,0,0,0⟩) 0 7 none)
      lateDeletion = some s ∧ ((step buf s (.beginOp 8 [])).isSome,(localPersist s 8).unwritten 1) =
        (true,[⟨1,true,7⟩]) := by
    apply Option.map_eq_some_iff.mp
    rcases mem_cons.mp hbuf with rfl | hbuf
    · decide
    · cases mem_singleton.mp hbuf
      decide
  obtain ⟨s,hplay,hfacts⟩ := hend
  obtain ⟨hsome,hleft⟩ := Prod.mk.inj hfacts
  obtain ⟨s',hs'⟩ := Option.isSome_iff_exists.mp hsome
  obtain ⟨ms,run⟩ := Run.nil.reach hplay
  refine ⟨ms,s,s',run,hs',by simp [hleft],?_⟩
  intro hf
  exact absurd (hf 1 ⟨1,true,7⟩ (by simp [hleft])) (by decide)

end Montage.Recoverable.Leftovers
