import Montage.Library.Runs
import Montage.Recover.Image

namespace Montage.Durable.Cutoff
open Library EpochSys Recover Function List

/-- A word of persistent memory: the value that was last written back, and the values
stored since. A crash leaves any one of them. -/
structure Word where
  durable : Nat
  since : List Nat

def Word.current (w : Word) : Nat := w.since.head?.getD w.durable

def Word.values (w : Word) : List Nat := w.durable :: w.since

def Word.store (w : Word) (v : Nat) : Word := ⟨w.durable,v :: w.since⟩

def Word.writeBack (w : Word) : Word := ⟨w.current,[]⟩

/-- The calls that access block headers, with the addresses and ids that they are handed:
`register` is what `begin_op` does for a block made before it, `retire` and `reset` are
parts of `end_op` and `abort_op`, and `drain` deletes a block of a to-be-freed bucket. -/
inductive Call where
  | pnew (a : Addr) (freshId : Nat)
  | register (b : Addr) (freshId : Nat)
  | set (b a : Addr)
  | pdelete (b a : Addr)
  | retire (b a : Addr)
  | reclaim (b a : Addr)
  | reset (b : Addr)
  | drain (b : Addr) (label : Nat)

def Call.inside (h : Heap) (c : Nat) : Call → Except Fault (List Instr)
  | .pnew a freshId => do
    let is ← registerAllocPblk ((Instr.construct a .init 0).write h) a c freshId
    return .construct a .init 0 :: is
  | .register b freshId => registerAllocPblk h b c freshId
  | .set b a => do
    let (is,r) ← openwritePblk h a b c
    return is ++ registerUpdatePblk r c
  | .pdelete b a => freePblk h a b c
  | .retire b a => retirePblk h a b c
  | .reclaim b a => reclaimPblk h a b c
  | .reset b => resetAllocPblk h b c
  | .drain b label => .ok (deletePblk b label)

/-- Outside an operation there are only `pnew`, which leaves the registration to
`begin_op`, and `pdelete`. -/
def Call.outside : Call → Except Fault (List Instr)
  | .pnew a _ => .ok [.construct a .init 0]
  | .pdelete b _ => .ok (deletePblk b nullEpoch)
  | _ => .error .assertion

/-- The words that recovery looks for epochs in: that of the epoch container, the epochs of
the descriptors and those of the block headers. `known` are the blocks that were handed
out, and `registered` those that were registered for write-back. -/
structure State (n : Nat) where
  global : Word
  desc : Fin n → Word
  heap : Heap
  epoch : Addr → Word
  known : List Addr
  registered : List Addr
  op : Fin n → Option Nat
  pending : Fin n → List Instr

variable {n : Nat}

/-- A fresh heap after `init`: the constructor of the container stores `NULL_EPOCH` and
`reset` then `INIT_EPOCH`, and of both only the descriptors are written back. -/
def init (n : Nat) : State n where
  global := ⟨0,[initEpoch,nullEpoch]⟩
  desc _ := ⟨nullEpoch,[]⟩
  heap _ := ⟨none,nullEpoch,.init,0,0,0⟩
  epoch _ := ⟨0,[]⟩
  known := []
  registered := []
  op _ := none
  pending _ := []

def perform (s : State n) : Instr → State n
  | .construct a blktype id => { s with
      heap := (Instr.construct a blktype id).write s.heap
      epoch := update s.epoch a ((s.epoch a).store nullEpoch)
      known := a :: s.known }
  | .setEpoch b e => { s with
      heap := (Instr.setEpoch b e).write s.heap
      epoch := update s.epoch b ((s.epoch b).store e) }
  | .registerPersist b _ | .registerPersistRaw b _ => { s with registered := b :: s.registered }
  | i => { s with heap := i.write s.heap }

/-- `flush` is the write-back of a block that was registered, at whatever time the
to-be-persisted container makes it, and `advance` a successful `epoch_CAS`. -/
inductive Act (n : Nat) where
  | begin (t : Fin n)
  | beginReclaim (t : Fin n)
  | call (t : Fin n) (k : Call)
  | exec (t : Fin n)
  | finish (t : Fin n)
  | flush (b : Addr)
  | advance

def step (s : State n) : Act n → Option (State n)
  | .begin t =>
    if s.op t = none ∧ s.pending t = [] then some { s with
      op := update s.op t (some s.global.current)
      desc := update s.desc t ((s.desc t).store s.global.current) }
    else none
  | .beginReclaim t =>
    if s.op t = none ∧ s.pending t = [] then
      some { s with op := update s.op t (some s.global.current) }
    else none
  | .call t k =>
    if s.pending t = [] then
      match (match s.op t with
        | none => k.outside
        | some c => k.inside s.heap c) with
      | .error _ => none
      | .ok is => some { s with pending := update s.pending t is }
    else none
  | .exec t =>
    match s.pending t with
    | [] => none
    | i :: is => some { perform s i with pending := update s.pending t is }
  | .finish t =>
    if s.pending t = [] then some { s with op := update s.op t none } else none
  | .flush b =>
    if b ∈ s.registered then
      some { s with epoch := update s.epoch b (s.epoch b).writeBack }
    else none
  | .advance =>
    if s.global.current < uint64Max ∧ ∀ t, ∀ c ∈ s.op t, s.global.current ≤ c then
      some { s with global := s.global.store (s.global.current + 1) }
    else none

def image (s : State n) (g : Nat) (descs : Fin n → Nat) (headers : Addr → Block) : List Block :=
  ⟨0,.epoch,nullEpoch,0,0,0,g,false⟩ ::
    ((List.ofFn fun t => ⟨0,.desc,descs t,0,t,0,0,false⟩) ++ s.known.map headers)

/-- A crash may leave this image, with the container recognizable as such. -/
structure Leaves (s : State n) (g : Nat) (descs : Fin n → Nat) (headers : Addr → Block) :
    Prop where
  global : g ∈ s.global.values
  desc : ∀ t, descs t ∈ (s.desc t).values
  epoch : ∀ x ∈ s.known, (headers x).epoch ∈ (s.epoch x).values
  type : ∀ x ∈ s.known, (headers x).blktype ≠ .epoch

def Possible (e : Nat) : Prop := e = nullEpoch ∨ initEpoch ≤ e ∧ e ≤ uint64Max

structure Inv (s : State n) : Prop where
  start : initEpoch ∈ s.global.values
  current : initEpoch ≤ s.global.current ∧ s.global.current ≤ uint64Max
  global : ∀ e ∈ s.global.values, Possible e
  unflushed : ∀ t, nullEpoch ∈ (s.desc t).values
  desc : ∀ t, ∀ e ∈ (s.desc t).values, Possible e
  epoch : ∀ x, ∀ e ∈ (s.epoch x).values, Possible e
  op : ∀ t, ∀ c ∈ s.op t, initEpoch ≤ c ∧ c ≤ uint64Max
  pending : ∀ t, ∀ b e, .setEpoch b e ∈ s.pending t → Possible e

theorem init_inv (n : Nat) : Inv (init n) := by
  constructor <;> simp [init,Word.values,Word.current,Possible,nullEpoch,initEpoch,uint64Max]

@[simp] theorem mem_store {w : Word} : e ∈ (w.store v).values ↔ e = v ∨ e ∈ w.values := by
  simp [Word.values,Word.store,or_left_comm]

theorem mem_write_back {w : Word} (h : e ∈ w.writeBack.values) : e ∈ w.values := by
  have he : e = w.current := by simpa [Word.values,Word.writeBack] using h
  rw [he,Word.current,Word.values]
  cases w.since <;> simp

theorem delete_epochs (h : .setEpoch x e ∈ deletePblk b c) : e = nullEpoch := by
  unfold deletePblk at h
  split at h <;> simp at h <;> exact h.2

theorem register_alloc_epochs {hp : Heap} (h : registerAllocPblk hp b c freshId = .ok is)
    (hx : .setEpoch x e ∈ is) : e = c := by
  obtain ⟨-,-,rfl⟩ := register_alloc_pblk_ok h
  simp only [mem_append,mem_cons,not_mem_nil,or_false] at hx
  rcases hx with ((hx | hx) | hx) | hx
  · cases hx; rfl
  · split at hx <;> simp at hx
  · split at hx <;> simp at hx
  · cases hx

theorem free_epochs {hp : Heap} (h : freePblk hp a b c = .ok is) (hx : .setEpoch x e ∈ is) :
    e = nullEpoch ∨ e = c := by
  rcases free_pblk_ok h with ⟨-,rfl⟩ | ⟨-,-,rfl⟩ | ⟨-,-,-,rfl⟩ | ⟨-,-,rfl⟩
  · exact .inl (delete_epochs hx)
  · simp at hx
  · simp at hx
  · simp [copyPblk] at hx
    exact .inr hx.2

theorem inside_epochs {k : Call} (h : k.inside hp c = .ok is) (hx : .setEpoch x e ∈ is) :
    e = nullEpoch ∨ e = c := by
  cases k with
  | pnew =>
    simp only [Call.inside,bind,Except.bind] at h
    split at h
    next => cases h
    next his =>
      cases h
      rcases mem_cons.mp hx with hx | hx
      · cases hx
      · exact .inr (register_alloc_epochs his hx)
  | register => exact .inr (register_alloc_epochs h hx)
  | set =>
    simp only [Call.inside,bind,Except.bind] at h
    split at h
    next => cases h
    next hr =>
      cases h
      rcases mem_append.mp hx with hx | hx
      · rcases openwrite_pblk_ok hr with ⟨-,his,-⟩ | ⟨-,-,his⟩
        · simp [his] at hx
        · simp [his,copyPblk] at hx
          exact .inr hx.2
      · unfold registerUpdatePblk at hx
        split at hx <;> simp at hx
  | pdelete => exact free_epochs h hx
  | retire =>
    rcases retire_pblk_ok h with ⟨-,rfl⟩ | ⟨-,rfl⟩
    · simp at hx
    · simp [copyPblk] at hx
      exact .inr hx.2
  | reclaim =>
    rcases reclaim_pblk_ok h with h | rfl | rfl | ⟨anti,-,rfl⟩ | ⟨anti,-,rfl⟩
    · exact free_epochs h hx
    · exact .inl (delete_epochs hx)
    · simp at hx
    · exact .inl (delete_epochs (by simpa using hx))
    · simp at hx
  | reset =>
    rw [reset_alloc_pblk_ok h] at hx
    simp at hx
    exact .inl hx.2
  | drain =>
    cases h
    exact .inl (delete_epochs hx)

theorem outside_epochs {k : Call} (h : k.outside = .ok is) (hx : .setEpoch x e ∈ is) :
    e = nullEpoch := by
  cases k with
  | pnew => cases h; simp at hx
  | pdelete => cases h; exact delete_epochs hx
  | _ => cases h

variable {s s' : State n} {t : Fin n}

theorem Inv.begun (hi : Inv s) : Possible s.global.current := .inr hi.current

theorem possible_store {w : α → Word} [DecidableEq α] (hw : ∀ x, ∀ e ∈ (w x).values, Possible e)
    (a : α) (hv : Possible v) :
    ∀ x, ∀ e ∈ (update w a ((w a).store v) x).values, Possible e := by
  refine (forall_update_iff w fun _ w => ∀ e ∈ w.values, Possible e).mpr
    ⟨?_,fun x _ => hw x⟩
  intro e he
  rcases mem_store.mp he with rfl | he
  · exact hv
  · exact hw a e he

theorem perform_inv (hi : Inv s) (i : Instr) (he : ∀ b e, i = .setEpoch b e → Possible e) :
    Inv (perform s i) := by
  cases i with
  | construct a => exact { hi with epoch := possible_store hi.epoch a (.inl rfl) }
  | setEpoch b e => exact { hi with epoch := possible_store hi.epoch b (he b e rfl) }
  | _ => exact { hi with }

theorem Inv.proceed (hi : Inv s) {is : List Instr}
    (h : ∀ b e, .setEpoch b e ∈ is → Possible e) :
    Inv { s with pending := update s.pending t is } :=
  { hi with
    pending := (forall_update_iff s.pending fun _ (is : List Instr) =>
      ∀ b e, .setEpoch b e ∈ is → Possible e).mpr ⟨h,fun u _ => hi.pending u⟩ }

theorem Inv.enter (hi : Inv s) {o : Option Nat}
    (h : ∀ c ∈ o, initEpoch ≤ c ∧ c ≤ uint64Max) :
    Inv { s with op := update s.op t o } :=
  { hi with
    op := (forall_update_iff s.op fun _ o =>
      ∀ c ∈ o, initEpoch ≤ c ∧ c ≤ uint64Max).mpr ⟨h,fun u _ => hi.op u⟩ }

theorem step_inv {a : Act n} (hi : Inv s) (hs : step s a = some s') : Inv s' := by
  cases a with
  | begin t =>
    simp only [step] at hs
    split at hs
    next =>
      cases hs
      have hop := hi.enter (t := t) (o := some s.global.current) (by
        intro c hc
        cases hc
        exact hi.current)
      refine { hop with unflushed := ?_, desc := possible_store hi.desc t hi.begun }
      exact (forall_update_iff s.desc fun _ w => nullEpoch ∈ w.values).mpr
        ⟨mem_store.mpr (.inr (hi.unflushed t)),fun u _ => hi.unflushed u⟩
    next => cases hs
  | beginReclaim =>
    simp only [step] at hs
    split at hs
    next =>
      cases hs
      apply hi.enter
      intro c hc
      cases hc
      exact hi.current
    next => cases hs
  | call t =>
    simp only [step] at hs
    split at hs
    next =>
      split at hs
      next => cases hs
      next his =>
        cases hs
        apply hi.proceed
        intro b e hmem
        cases hop : s.op t with
        | none =>
          rw [hop] at his
          exact .inl (outside_epochs his hmem)
        | some =>
          rw [hop] at his
          rcases inside_epochs his hmem with rfl | rfl
          · exact .inl rfl
          · exact .inr (hi.op t e hop)
    next => cases hs
  | exec t =>
    simp only [step] at hs
    split at hs
    next => cases hs
    next i is hp =>
      cases hs
      have hperform := perform_inv hi i fun b e he => hi.pending t b e (by simp [hp,he])
      have hpending : (perform s i).pending = s.pending := by cases i <;> rfl
      rw [← hpending]
      exact hperform.proceed fun b e he => hi.pending t b e (by simp [hp,he])
  | finish =>
    simp only [step] at hs
    split at hs
    next =>
      cases hs
      exact hi.enter (by simp)
    next => cases hs
  | flush b =>
    simp only [step] at hs
    split at hs
    next =>
      cases hs
      exact { hi with
        epoch := (forall_update_iff s.epoch fun _ w => ∀ e ∈ w.values, Possible e).mpr
          ⟨fun e he => hi.epoch b e (mem_write_back he),fun x _ => hi.epoch x⟩ }
    next => cases hs
  | advance =>
    simp only [step] at hs
    split at hs
    next hadv =>
      cases hs
      have hnext : initEpoch ≤ s.global.current + 1 ∧ s.global.current + 1 ≤ uint64Max :=
        ⟨Nat.le_succ_of_le hi.current.1,hadv.1⟩
      refine { hi with start := ?_, current := hnext, global := ?_ }
      · exact mem_store.mpr (.inr hi.start)
      · intro e he
        rcases mem_store.mp he with rfl | he
        · exact .inr hnext
        · exact hi.global e he
    next => cases hs

theorem run_inv (run : Run step (fun _ _ => True) (init n) ms s) : Inv s :=
  run.invariant Inv (init_inv n) fun _ _ _ hi _ hs => step_inv hi hs

theorem max_possible (h : ∀ b ∈ blocks, Possible (Block.reported b)) :
    Possible (maxEpoch blocks) := by
  induction blocks with
  | nil => exact .inl rfl
  | cons b blocks ih =>
    rw [max_epoch_cons]
    rcases le_total b.reported (maxEpoch blocks) with hle | hle
    · rw [Nat.max_eq_right hle]
      exact ih fun c hc => h c (by simp [hc])
    · rw [Nat.max_eq_left hle]
      exact h b (by simp)

theorem Leaves.reported (P : Nat → Prop) (hl : Leaves s g descs headers) (hg : P g)
    (hdescs : ∀ t, P (descs t)) (hheaders : ∀ x ∈ s.known, P (headers x).epoch) :
    ∀ b ∈ image s g descs headers, P b.reported := by
  intro b hb
  rcases mem_cons.mp hb with rfl | hb
  · simpa [Block.reported,nullEpoch] using hg
  · rcases mem_append.mp hb with hb | hb
    · obtain ⟨t,rfl⟩ := mem_ofFn.mp hb
      exact hdescs t
    · obtain ⟨x,hx,rfl⟩ := mem_map.mp hb
      rw [Block.reported,if_neg (hl.type x hx)]
      exact hheaders x hx

theorem Leaves.max_possible (hl : Leaves s g descs headers) (hi : Inv s) :
    Possible (maxEpoch (image s g descs headers)) :=
  Cutoff.max_possible (hl.reported Possible (hi.global g hl.global) (fun t => hi.desc t _ (hl.desc t))
    fun x hx => hi.epoch x _ (hl.epoch x hx))

theorem header_le (g : Nat) (descs : Fin n → Nat) (headers : Addr → Block) (hx : x ∈ s.known) :
    (headers x).epoch ≤ maxEpoch (image s g descs headers) := by
  apply epoch_le_max
  exact mem_cons_of_mem _ (mem_append_right _ (mem_map.mpr ⟨x,hx,rfl⟩))

/-- If no block is sure to have a late epoch, a crash may leave the first epoch in the
container and early ones everywhere else. -/
theorem early_image (hi : Inv s) (hearly : ∀ x ∈ s.known, ∃ e ∈ (s.epoch x).values, e ≤ m)
    (hm : initEpoch ≤ m) :
    ∃ g descs headers, Leaves s g descs headers ∧
      initEpoch ≤ maxEpoch (image s g descs headers) ∧ maxEpoch (image s g descs headers) ≤ m := by
  have hchoice : ∀ x, ∃ e, x ∈ s.known → e ∈ (s.epoch x).values ∧ e ≤ m := by
    intro x
    by_cases hx : x ∈ s.known
    · obtain ⟨e,he,hle⟩ := hearly x hx
      exact ⟨e,fun _ => ⟨he,hle⟩⟩
    · exact ⟨0,fun h => absurd h hx⟩
  choose epochs hepochs using hchoice
  have hl : Leaves s initEpoch (fun _ => nullEpoch) fun x => ⟨x,.init,epochs x,0,0,0,0,false⟩ :=
    ⟨hi.start,hi.unflushed,fun x hx => (hepochs x hx).1,fun x _ => by simp⟩
  refine ⟨_,_,_,hl,?_,?_⟩
  · exact le_trans (by simp [Block.reported]) (reported_le_max (mem_cons_self ..))
  · exact max_epoch_le (hl.reported (· ≤ m) hm (fun _ => Nat.zero_le m) fun x hx => (hepochs x hx).2)

/-- After a crash the cut-off of recovery is at least `c` for certain, exactly when some
block is sure to carry an epoch of at least `c + 2`. The container never is. -/
theorem cutoff_durable_iff (run : Run step (fun _ _ => True) (init n) ms s) (c : Nat) :
    (∀ g descs headers, Leaves s g descs headers →
      c ≤ sub64 (maxEpoch (image s g descs headers)) 2) ↔
    c ≤ 1 ∨ ∃ x ∈ s.known, ∀ e ∈ (s.epoch x).values, c + 2 ≤ e := by
  have hi := run_inv run
  constructor
  · intro h
    by_contra hnot
    rw [not_or,not_exists] at hnot
    obtain ⟨hc,hnone⟩ := hnot
    have hearly : ∀ x ∈ s.known, ∃ e ∈ (s.epoch x).values, e ≤ c + 1 := by
      intro x hx
      by_contra hlate
      refine hnone x ⟨hx,fun e he => ?_⟩
      by_contra hlt
      exact hlate ⟨e,he,by omega⟩
    obtain ⟨g,descs,headers,hl,hlow,hhigh⟩ := early_image hi hearly (by simp only [initEpoch]; omega)
    have hcap := h g descs headers hl
    have hpos := hl.max_possible hi
    simp only [Possible,sub64,nullEpoch,initEpoch,uint64Max] at *
    omega
  · intro h g descs headers hl
    have hpos := hl.max_possible hi
    rcases h with hc | ⟨x,hx,hlate⟩
    · simp only [Possible,sub64,nullEpoch,initEpoch,uint64Max] at *
      omega
    · have hle := header_le g descs headers hx
      have hge := hlate _ (hl.epoch x hx)
      simp only [Possible,sub64,nullEpoch,initEpoch,uint64Max] at *
      omega

/-- A block of epoch 5 was written back before the crash. -/
theorem cutoff_durable_written :
    ∃ ms s, Run step (fun _ _ => True) (init 1) ms s ∧ s.global.current = 5 ∧
      ∀ g descs headers, Leaves s g descs headers →
        3 ≤ sub64 (maxEpoch (image s g descs headers)) 2 := by
  obtain ⟨ms,s,run,hgood⟩ := Run.play step (fun _ _ => true)
    (fun s => decide (s.global.current = 5 ∧ ∃ x ∈ s.known, ∀ e ∈ (s.epoch x).values, 5 ≤ e))
    (init 1) [.advance,.advance,.begin 0,.call 0 (.pnew 7 1),.exec 0,.exec 0,.exec 0,.exec 0,
      .exec 0,.finish 0,.flush 7] (by decide)
  have hgood := of_decide_eq_true hgood
  have run : Run step (fun _ _ => True) (init 1) ms s := run.weaken fun _ _ _ => trivial
  exact ⟨ms,s,run,hgood.1,(cutoff_durable_iff run 3).mpr (.inr hgood.2)⟩

/-- Two idle epochs: the global epoch is 5, but the container is never written back and the
crash leaves 3 in it. -/
theorem epoch_number_lost :
    ∃ ms s, Run step (fun _ _ => True) (init 1) ms s ∧ s.global.current = 3 + 2 ∧
      ∃ g descs headers, Leaves s g descs headers ∧
        sub64 (maxEpoch (image s g descs headers)) 2 = 1 := by
  obtain ⟨ms,s,run,hgood⟩ := Run.play step (fun _ _ => true)
    (fun s => decide (s.global.current = 5 ∧ s.known = [] ∧ 3 ∈ s.global.values ∧
      ∀ t, 0 ∈ (s.desc t).values)) (init 1) [.advance,.advance] (by decide)
  obtain ⟨hg,hknown,hthree,hdesc⟩ := of_decide_eq_true hgood
  refine ⟨ms,s,run.weaken fun _ _ _ => trivial,hg,3,fun _ => 0,fun _ => ⟨0,.init,0,0,0,0,0,false⟩,?_,?_⟩
  · exact ⟨hthree,hdesc,by simp [hknown],by simp⟩
  · rw [image,hknown]
    decide

end Montage.Durable.Cutoff
