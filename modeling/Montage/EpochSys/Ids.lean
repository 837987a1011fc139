import Montage.Recover.Blocking
import Montage.Library.Runs

namespace Montage.EpochSys.Ids
open Library Function List

/-- The rounds of the loop in `UIDGenerator::init` that shifts `buf` to the right until it
is zero. -/
def halvings : (rounds buf : Nat) → Nat
  | 0, _ => 0
  | rounds + 1, buf => if buf = 0 then 0 else halvings rounds (buf / 2) + 1

def shift (taskNum : Nat) : Nat := 64 - halvings 64 (taskNum - 1)

def currIds (taskNum i : Nat) : Nat := i * 2 ^ shift taskNum % 2 ^ 64

/-- A block, and the `pnew` from which it descends. -/
structure Version where
  blk : PBlk
  origin : Nat

def isPayload (b : PBlk) : Bool :=
  (b.blktype = .alloc || b.blktype = .update) && b.epoch ≠ nullEpoch

/-- The heap and the transient data of an execution. `past` holds what the blocks have been
since it started, `found` what the heap was then, and `drawn` how many ids a thread has
drawn; `pending` are the blocks in the threads' `pending_allocs`. -/
structure State where
  taskNum : Nat
  curr : Nat → Nat
  drawn : Nat → Nat
  mem : Addr → Version
  past : Addr → List Version
  found : Addr → Version
  pending : Finset Addr
  made : Nat

def State.heap (s : State) : Heap := fun x => (s.mem x).blk

def constructs (x : Addr) : Instr → Bool
  | .construct a _ _ => a = x
  | _ => false

def State.perform (s : State) (is : List Instr) (origin : Nat) : State := { s with
  mem := fun x => ⟨writes s.heap is x,if is.any (constructs x) then origin else (s.mem x).origin⟩
  past := fun x => s.mem x :: s.past x
  pending := s.pending.filter fun x => !is.any (constructs x) }

/-- What a crash leaves of a block: something that it has been in this execution. -/
def State.image (s : State) (choice : Addr → Nat) (x : Addr) : Version :=
  ((s.mem x :: s.past x)[choice x]?).getD (s.mem x)

/-- An execution on a heap of which `recover` gives up the blocks that are not `kept`. -/
def start (n : Nat) (image : Addr → Version) (kept : Addr → Bool) (made : Nat) : State where
  taskNum := n
  curr := currIds n
  drawn := fun _ => 0
  mem := fun x => if kept x then image x else ⟨{ (image x).blk with epoch := nullEpoch },(image x).origin⟩
  past := fun x => [image x]
  found := image
  pending := ∅
  made := made

def boot (n : Nat) : State :=
  start n (fun _ => ⟨⟨none,nullEpoch,.init,0,0,0⟩,0⟩) (fun _ => true) 0

/-- The calls of an execution, with the addresses that the allocator hands out, and the crash
or exit that ends it. `ended` is the end of the operation for which `b` was allocated, and
`delete` that of a block whose time in a to-be-freed container is over. -/
inductive Act where
  | pnew (a : Addr)
  | register (tid : Nat) (b : Addr) (c : Nat)
  | reset (b : Addr) (c : Nat)
  | ended (b : Addr)
  | set (b a : Addr) (c : Nat)
  | pdelete (b a : Addr) (c : Nat)
  | retire (b a : Addr) (c : Nat)
  | delete (b : Addr) (c : Nat)
  | restart (n : Nat) (choice : Addr → Nat) (kept : Addr → Bool)

variable (s : State)

def State.draw (tid : Nat) : State := { s with
  curr := update s.curr tid ((s.curr tid + 1) % 2 ^ 64)
  drawn := update s.drawn tid (s.drawn tid + 1) }

def step : Act → Option State
  | .pnew a =>
    let s' := s.perform [.construct a .init 0] s.made
    some { s' with pending := insert a s'.pending, made := s.made + 1 }
  | .register tid b c =>
    if b ∈ s.pending ∧ tid < s.taskNum ∧ s.drawn tid + 1 < 2 ^ 48 then
      match registerAllocPblk s.heap b c (s.curr tid) with
      | .error _ => none
      | .ok is =>
        let s' := s.perform is 0
        some (if (s.heap b).id = 0 then s'.draw tid else s')
    else none
  | .reset b c =>
    if b ∈ s.pending then
      match resetAllocPblk s.heap b c with
      | .error _ => none
      | .ok is => some (s.perform is 0)
    else none
  | .ended b => some { s with pending := s.pending.erase b }
  | .set b a c =>
    if isPayload (s.heap b) ∧ a ≠ b then
      match openwritePblk s.heap a b c with
      | .error _ => none
      | .ok (is,_) => some (s.perform is (s.mem b).origin)
    else none
  | .pdelete b a c =>
    if a ≠ b then
      match freePblk s.heap a b c with
      | .error _ => none
      | .ok is => some (s.perform is (s.mem b).origin)
    else none
  | .retire b a c =>
    if a ≠ b then
      match retirePblk s.heap a b c with
      | .error _ => none
      | .ok is => some (s.perform is (s.mem b).origin)
    else none
  | .delete b c => some (s.perform (deletePblk b c) 0)
  | .restart n choice kept =>
    if 0 < n ∧ n < 2 ^ 16 then some (start n (s.image choice) kept s.made) else none

def Identified : Prop :=
  ∀ x y, isPayload (s.mem x).blk → isPayload (s.mem y).blk →
    (s.mem x).blk.id = (s.mem y).blk.id → (s.mem x).origin = (s.mem y).origin

def Permitted : Act → Prop
  | .register tid b _ => (s.heap b).id = 0 →
    ∀ x, isPayload (s.found x).blk → (s.found x).blk.id ≠ s.curr tid
  | _ => True

def Issued (i : Nat) : Prop :=
  ∃ t < s.taskNum, ∃ n < s.drawn t, i = t * 2 ^ shift s.taskNum + n

/-- The versions whose ids are taken: payloads that are in the heap or may be so again after
a crash, and allocations that wait with an id. -/
inductive Tagged (s : State) : Version → Prop
  | present (hx : isPayload (s.mem x).blk) : Tagged s (s.mem x)
  | past (hv : v ∈ s.past x) (hp : isPayload v.blk) : Tagged s v
  | pending (hx : x ∈ s.pending) (hid : (s.mem x).blk.id ≠ 0) : Tagged s (s.mem x)

structure Inv : Prop where
  tasks : 0 < s.taskNum ∧ s.taskNum < 2 ^ 16
  drawn : ∀ t, s.drawn t < 2 ^ 48
  curr : ∀ t < s.taskNum, s.curr t = t * 2 ^ shift s.taskNum + s.drawn t
  source : ∀ v, Tagged s v →
    Issued s v.blk.id ∨ ∃ x, isPayload (s.found x).blk ∧ (s.found x).blk.id = v.blk.id
  unique : ∀ v w, Tagged s v → Tagged s w → v.blk.id = w.blk.id → v.origin = w.origin

variable {s s' : State} {h : Heap} {is : List Instr} {a b x : Addr} {c o : Nat}

theorem halvings_le (hb : buf < 2 ^ k) : halvings rounds buf ≤ k := by
  induction rounds generalizing buf k with
  | zero => simp [halvings]
  | succ rounds ih =>
    simp only [halvings]
    split
    next => omega
    next =>
      cases k with
      | zero => omega
      | succ k =>
        have : halvings rounds (buf / 2) ≤ k := ih (by omega)
        omega

theorem lt_two_pow_halvings (hb : buf < 2 ^ rounds) : buf < 2 ^ halvings rounds buf := by
  induction rounds generalizing buf with
  | zero => simpa [halvings] using hb
  | succ rounds ih =>
    simp only [halvings]
    split
    next hzero => simp [hzero]
    next =>
      have : buf / 2 < 2 ^ halvings rounds (buf / 2) := ih (by omega)
      rw [Nat.pow_succ]
      omega

/-- Each of fewer than 2^16 threads has at least 2^48 ids of its own. -/
theorem shift_spec (hn : 0 < n ∧ n < 2 ^ 16) :
    2 ^ 48 ≤ 2 ^ shift n ∧ ∀ t < n, (t + 1) * 2 ^ shift n ≤ 2 ^ 64 := by
  have hk : halvings 64 (n - 1) ≤ 16 := halvings_le (by omega)
  have hlt : n - 1 < 2 ^ halvings 64 (n - 1) := lt_two_pow_halvings (by omega)
  refine ⟨Nat.pow_le_pow_right (by omega) (by unfold shift; omega),?_⟩
  intro t ht
  calc (t + 1) * 2 ^ shift n
      ≤ 2 ^ halvings 64 (n - 1) * 2 ^ shift n := Nat.mul_le_mul_right _ (by omega)
    _ = 2 ^ (halvings 64 (n - 1) + shift n) := (Nat.pow_add ..).symm
    _ = 2 ^ 64 := by rw [shift,Nat.add_sub_cancel' (by omega)]

theorem curr_ids_eq (hn : 0 < n ∧ n < 2 ^ 16) (ht : t < n) :
    currIds n t = t * 2 ^ shift n := by
  have hle := (shift_spec hn).2 t ht
  have hpos : 0 < 2 ^ shift n := Nat.two_pow_pos _
  rw [Nat.add_mul] at hle
  exact Nat.mod_eq_of_lt (by omega)

theorem issued_ne_curr (hi : Inv s) (ht : t < s.taskNum) (h : Issued s i) : i ≠ s.curr t := by
  obtain ⟨t',ht',n,hn,rfl⟩ := h
  rw [hi.curr t ht]
  obtain ⟨hwide,-⟩ := shift_spec hi.tasks
  have hd := hi.drawn t
  have hd' := hi.drawn t'
  intro heq
  -- The quotient by the width of a range is the thread.
  have hquot : ∀ t n, n < 2 ^ shift s.taskNum →
      (t * 2 ^ shift s.taskNum + n) / 2 ^ shift s.taskNum = t := by
    intro t n hn
    rw [Nat.mul_comm,Nat.mul_add_div (Nat.two_pow_pos _),Nat.div_eq_of_lt hn,Nat.add_zero]
  have hthreads : t' = t := by
    rw [← hquot t' n (by omega),heq,hquot t _ (by omega)]
  subst hthreads
  omega

/-- The ids that are taken in `s'` were taken by versions of the same payloads in `s`. -/
def Derives (s s' : State) : Prop :=
  ∀ v, Tagged s' v → ∃ w, Tagged s w ∧ w.blk.id = v.blk.id ∧ w.origin = v.origin

theorem Inv.derived (hi : Inv s) (hder : Derives s s') (htasks : s'.taskNum = s.taskNum)
    (hcurr : s'.curr = s.curr) (hdrawn : s'.drawn = s.drawn) (hfound : s'.found = s.found) :
    Inv s' where
  tasks := htasks ▸ hi.tasks
  drawn := hdrawn ▸ hi.drawn
  curr := by
    rw [htasks,hcurr,hdrawn]
    exact hi.curr
  source := by
    intro v hv
    obtain ⟨w,hw,hid,-⟩ := hder v hv
    rw [Issued,htasks,hdrawn,hfound,← hid]
    exact hi.source w hw
  unique := by
    intro v1 v2 hv1 hv2 hid
    obtain ⟨w1,hw1,hid1,ho1⟩ := hder v1 hv1
    obtain ⟨w2,hw2,hid2,ho2⟩ := hder v2 hv2
    rw [← ho1,← ho2]
    exact hi.unique w1 w2 hw1 hw2 (hid1.trans (hid.trans hid2.symm))

def Keeps (h : Heap) (is : List Instr) : Prop :=
  ∀ x, is.any (constructs x) = false →
    (writes h is x).id = (h x).id ∧ (isPayload (writes h is x) → isPayload (h x))

theorem perform_derives (hkeeps : Keeps s.heap is)
    (hnew : ∀ x, is.any (constructs x) = true → isPayload (writes s.heap is x) →
      ∃ w, Tagged s w ∧ w.blk.id = (writes s.heap is x).id ∧ w.origin = o) :
    Derives s (s.perform is o) := by
  intro v hv
  cases hv with
  | @present x hx =>
    by_cases hc : is.any (constructs x) = true
    · obtain ⟨w,hw,hid,ho⟩ := hnew x hc hx
      exact ⟨w,hw,hid,ho.trans (if_pos hc).symm⟩
    · obtain ⟨hid,hpay⟩ := hkeeps x (by simpa using hc)
      exact ⟨s.mem x,.present (hpay hx),hid.symm,(if_neg hc).symm⟩
  | past hv hp =>
    rcases mem_cons.mp hv with rfl | hv
    · exact ⟨_,.present hp,rfl,rfl⟩
    · exact ⟨_,.past hv hp,rfl,rfl⟩
  | @pending x hx hid =>
    obtain ⟨hx,hc⟩ := Finset.mem_filter.mp hx
    have hc : is.any (constructs x) = false := by simpa using hc
    have hsame := (hkeeps x hc).1
    refine ⟨s.mem x,.pending hx ?_,hsame.symm,(if_neg (by simp [hc])).symm⟩
    exact fun hzero => hid (hsame.trans hzero)

theorem Inv.perform (hi : Inv s) (hkeeps : Keeps s.heap is)
    (hnew : ∀ x, is.any (constructs x) = true → isPayload (writes s.heap is x) →
      ∃ w, Tagged s w ∧ w.blk.id = (writes s.heap is x).id ∧ w.origin = o) :
    Inv (s.perform is o) :=
  hi.derived (perform_derives hkeeps hnew) rfl rfl rfl rfl

theorem delete_pblk_keeps (h : Heap) (b : Addr) (c : Nat) : Keeps h (deletePblk b c) := by
  intro x _
  by_cases hx : x = b
  · subst hx
    unfold deletePblk
    split <;> simp [writes,Instr.write,isPayload]
  · have hsame : writes h (deletePblk b c) x = h x := by
      refine writes_other _ fun i hi => ?_
      unfold deletePblk at hi
      split at hi <;> simp at hi <;> rcases hi with rfl | rfl | rfl <;> simp [dest,Ne.symm hx]
    simp [hsame]

theorem openwrite_pblk_keeps (ho : openwritePblk h a b c = .ok (is,r)) : Keeps h is := by
  intro x hx
  rcases openwrite_pblk_ok ho with ⟨-,rfl,-⟩ | ⟨-,-,rfl⟩
  · simp [writes]
  · have hne : x ≠ a := by
      rintro rfl
      simp [constructs,copyPblk] at hx
    simp [writes,Instr.write,copyPblk,hne]

theorem free_pblk_keeps (hf : freePblk h a b c = .ok is) : Keeps h is := by
  intro x hx
  rcases free_pblk_ok hf with ⟨-,rfl⟩ | ⟨-,-,rfl⟩ | ⟨-,-,-,rfl⟩ | ⟨-,-,rfl⟩
  · exact delete_pblk_keeps h b c x hx
  · by_cases hb : x = b <;> simp [writes,Instr.write,isPayload,hb]
  · simp [writes,Instr.write]
  · have hne : x ≠ a := by
      rintro rfl
      simp [constructs,copyPblk] at hx
    simp [writes,Instr.write,copyPblk,hne]

theorem retire_pblk_keeps (hr : retirePblk h a b c = .ok is) : Keeps h is := by
  intro x hx
  rcases retire_pblk_ok hr with ⟨-,rfl⟩ | ⟨-,rfl⟩
  · by_cases hb : x = b <;> simp [writes,Instr.write,isPayload,hb]
  · have hne : x ≠ a := by
      rintro rfl
      simp [constructs,copyPblk] at hx
    by_cases hb : x = b
    · subst hb
      simp [writes,Instr.write,copyPblk,isPayload,hne]
    · simp [writes,Instr.write,copyPblk,hb,hne]

theorem reset_alloc_pblk_keeps (hr : resetAllocPblk h b c = .ok is) : Keeps h is := by
  intro x _
  rw [reset_alloc_pblk_ok hr]
  by_cases hb : x = b <;> simp [writes,Instr.write,isPayload,hb]

section
variable (hi : Inv s)
include hi

theorem Inv.pnew (h : step s (.pnew a) = some s') : Inv s' := by
  cases h
  have hkeeps : Keeps s.heap [.construct a .init 0] := by
    intro x hx
    have hne : x ≠ a := by
      rintro rfl
      simp [constructs] at hx
    simp [writes,Instr.write,hne]
  have hblank : writes s.heap [.construct a .init 0] a = ⟨none,nullEpoch,.init,0,0,0⟩ := by
    simp [writes,Instr.write]
  refine hi.derived ?_ rfl rfl rfl rfl
  have hder := perform_derives (s := s) (o := s.made) hkeeps fun x hx hp => by
    obtain rfl : a = x := by simpa [constructs] using hx
    rw [hblank] at hp
    cases hp
  intro v hv
  cases hv with
  | present hx => exact hder _ (.present hx)
  | past hv hp => exact hder _ (.past hv hp)
  | @pending x hx hid =>
    rcases Finset.mem_insert.mp hx with rfl | hx
    · -- The new block has no id yet.
      exact absurd (congrArg PBlk.id hblank) hid
    · exact hder _ (.pending hx hid)

theorem Inv.drawn_new (htid : tid < s.taskNum)
    (hfound : ∀ x, isPayload (s.found x).blk → (s.found x).blk.id ≠ s.curr tid)
    (hv : Tagged s v) : v.blk.id ≠ s.curr tid := by
  rcases hi.source v hv with hissued | ⟨x,hx,hid⟩
  · exact issued_ne_curr hi htid hissued
  · exact hid ▸ hfound x hx

omit hi in
theorem tagged_draw (h : Tagged (s.draw tid) v) : Tagged s v := by
  cases h with
  | present hx => exact .present hx
  | past hv hp => exact .past hv hp
  | pending hx hid => exact .pending hx hid

theorem Inv.draw (htid : tid < s.taskNum) (hmany : s.drawn tid + 1 < 2 ^ 48)
    (hfound : ∀ x, isPayload (s.found x).blk → (s.found x).blk.id ≠ s.curr tid)
    (htasks : s'.taskNum = s.taskNum) (hsame : s'.found = s.found) (hcurr : s'.curr = s.curr)
    (hdrawn : s'.drawn = s.drawn) (hder : ∀ v, Tagged s' v → v = w ∨ Tagged s v)
    (hw : w.blk.id = s.curr tid) : Inv (s'.draw tid) where
  tasks := htasks ▸ hi.tasks
  drawn := by
    rw [State.draw,hdrawn]
    exact (forall_update_iff s.drawn fun _ n => n < 2 ^ 48).mpr
      ⟨hmany,fun t _ => hi.drawn t⟩
  curr := by
    intro t ht
    rw [State.draw,hcurr,hdrawn,htasks] at *
    by_cases heq : t = tid
    · subst heq
      obtain ⟨hwide,hfit⟩ := shift_spec hi.tasks
      have hfit := hfit t htid
      rw [Nat.add_mul] at hfit
      simp only [update_self,hi.curr t htid]
      rw [Nat.mod_eq_of_lt (by omega),Nat.add_assoc]
    · simp only [update_of_ne heq]
      exact hi.curr t ht
  source := by
    intro v hv
    have hmono : ∀ t, s.drawn t ≤ (s'.draw tid).drawn t := by
      rw [State.draw,hdrawn]
      exact (forall_update_iff s.drawn fun t n => s.drawn t ≤ n).mpr
        ⟨Nat.le_succ _,fun t _ => le_rfl⟩
    rcases hder v (tagged_draw hv) with rfl | hv
    · left
      refine ⟨tid,htasks ▸ htid,s.drawn tid,?_,?_⟩
      · simp [State.draw,hdrawn]
      · exact hw.trans (htasks ▸ hi.curr tid htid)
    · rcases hi.source v hv with ⟨t,ht,n,hn,hid⟩ | hfound
      · exact .inl ⟨t,htasks ▸ ht,n,lt_of_lt_of_le hn (hmono t),htasks ▸ hid⟩
      · exact .inr (hsame ▸ hfound)
  unique := by
    intro v1 v2 hv1 hv2 hid
    rcases hder v1 (tagged_draw hv1) with rfl | hv1 <;> rcases hder v2 (tagged_draw hv2) with rfl | hv2
    · rfl
    · exact absurd (hid.symm.trans hw) (hi.drawn_new htid hfound hv2)
    · exact absurd (hid.trans hw) (hi.drawn_new htid hfound hv1)
    · exact hi.unique v1 v2 hv1 hv2 hid

theorem Inv.register (hp : Permitted s (.register tid b c))
    (h : step s (.register tid b c) = some s') : Inv s' := by
  simp only [step] at h
  split at h
  next hpre =>
    obtain ⟨hpending,htid,hmany⟩ := hpre
    split at h
    next => cases h
    next is hreg =>
      obtain ⟨-,-,his⟩ := register_alloc_pblk_ok hreg
      have hnone : ∀ x, is.any (constructs x) = false := by
        intro x
        rw [his]
        split <;> split <;> simp [constructs]
      have hother : ∀ x, x ≠ b → writes s.heap is x = s.heap x := by
        intro x hx
        refine writes_other is ?_
        rw [his]
        split <;> split <;> simp [dest,Ne.symm hx]
      have hid : (writes s.heap is b).id =
          if (s.heap b).id = 0 then s.curr tid else (s.heap b).id := by
        rw [his]
        split <;> split <;> simp_all [writes,Instr.write]
      have horigin : ∀ x, ((s.perform is 0).mem x).origin = (s.mem x).origin := fun x =>
        if_neg (by simp [hnone x])
      -- Everything but the block itself is as before.
      have hder : ∀ v, Tagged (s.perform is 0) v →
          v = (s.perform is 0).mem b ∨ Tagged s v := by
        intro v hv
        have hmem : ∀ x, x ≠ b → (s.perform is 0).mem x = s.mem x := by
          intro x hx
          have hblk := hother x hx
          have ho := horigin x
          cases hm : s.mem x
          simp only [State.perform,State.heap,hm] at hblk ho ⊢
          rw [Version.mk.injEq]
          exact ⟨hblk,ho⟩
        cases hv with
        | @present x hx =>
          by_cases heq : x = b
          · exact .inl (by rw [heq])
          · exact .inr (by rw [hmem x heq] at hx ⊢; exact .present hx)
        | past hv hp =>
          rcases mem_cons.mp hv with rfl | hv
          · exact .inr (.present hp)
          · exact .inr (.past hv hp)
        | @pending x hx hid =>
          by_cases heq : x = b
          · exact .inl (by rw [heq])
          · right
            rw [hmem x heq] at hid ⊢
            exact .pending (Finset.mem_filter.mp hx).1 hid
      split at h
      next hzero =>
        cases h
        rw [if_pos hzero] at hid
        exact hi.draw htid hmany (hp hzero) rfl rfl rfl rfl hder hid
      next hkept =>
        cases h
        rw [if_neg hkept] at hid
        refine hi.derived ?_ rfl rfl rfl rfl
        intro v hv
        rcases hder v hv with rfl | hv
        · exact ⟨s.mem b,.pending hpending hkept,hid.symm,(horigin b).symm⟩
        · exact ⟨v,hv,rfl,rfl⟩
  next => cases h

theorem Inv.set (h : step s (.set b a c) = some s') : Inv s' := by
  simp only [step] at h
  split at h
  next hpre =>
    split at h
    next => cases h
    next ho =>
      cases h
      refine hi.perform (openwrite_pblk_keeps ho) ?_
      intro x hx _
      refine ⟨s.mem b,.present hpre.1,?_,rfl⟩
      rcases openwrite_pblk_ok ho with ⟨-,rfl,-⟩ | ⟨-,-,rfl⟩
      · cases hx
      · obtain rfl : a = x := by simpa [constructs,copyPblk] using hx
        simp [writes,Instr.write,copyPblk,State.heap]
  next => cases h

theorem Inv.pdelete (h : step s (.pdelete b a c) = some s') : Inv s' := by
  simp only [step] at h
  split at h
  next =>
    split at h
    next => cases h
    next hf =>
      cases h
      refine hi.perform (free_pblk_keeps hf) ?_
      intro x hx hp
      rcases free_pblk_ok hf with ⟨-,rfl⟩ | ⟨-,-,rfl⟩ | ⟨-,-,-,rfl⟩ | ⟨-,-,rfl⟩
      · unfold deletePblk at hx
        split at hx <;> cases hx
      · cases hx
      · cases hx
      · obtain rfl : a = x := by simpa [constructs,copyPblk] using hx
        simp [writes,Instr.write,isPayload] at hp
  next => cases h

theorem Inv.retire (h : step s (.retire b a c) = some s') : Inv s' := by
  simp only [step] at h
  split at h
  next =>
    split at h
    next => cases h
    next hr =>
      cases h
      refine hi.perform (retire_pblk_keeps hr) ?_
      intro x hx hp
      rcases retire_pblk_ok hr with ⟨-,rfl⟩ | ⟨-,rfl⟩
      · cases hx
      · obtain rfl : a = x := by simpa [constructs,copyPblk] using hx
        simp [writes,Instr.write,isPayload] at hp
  next => cases h

theorem Inv.reset (h : step s (.reset b c) = some s') : Inv s' := by
  simp only [step] at h
  split at h
  next =>
    split at h
    next => cases h
    next hr =>
      cases h
      refine hi.perform (reset_alloc_pblk_keeps hr) ?_
      intro x hx
      rw [reset_alloc_pblk_ok hr] at hx
      cases hx
  next => cases h

end

theorem start_inv (hn : 0 < n ∧ n < 2 ^ 16) (kept : Addr → Bool) (made : Nat)
    (hunique : ∀ x y, isPayload (image x).blk → isPayload (image y).blk →
      (image x).blk.id = (image y).blk.id → (image x).origin = (image y).origin) :
    Inv (start n image kept made) := by
  have himage : ∀ v, Tagged (start n image kept made) v →
      ∃ x, v = image x ∧ isPayload (image x).blk := by
    intro v hv
    cases hv with
    | @present x hx =>
      refine ⟨x,?_⟩
      simp only [start] at hx ⊢
      split at hx
      next hkept => exact ⟨if_pos hkept,hx⟩
      next => simp [isPayload] at hx
    | past hv hp =>
      obtain rfl := mem_singleton.mp hv
      exact ⟨_,rfl,hp⟩
    | pending hx => cases hx
  refine ⟨hn,fun t => by simp [start],fun t ht => curr_ids_eq hn ht,?_,?_⟩
  · intro v hv
    obtain ⟨x,rfl,hp⟩ := himage v hv
    exact .inr ⟨x,hp,rfl⟩
  · intro v w hv hw hid
    obtain ⟨x,rfl,hx⟩ := himage v hv
    obtain ⟨y,rfl,hy⟩ := himage w hw
    exact hunique x y hx hy hid

theorem image_tagged (choice : Addr → Nat) (h : isPayload (s.image choice x).blk) :
    Tagged s (s.image choice x) := by
  unfold State.image at h ⊢
  cases hv : (s.mem x :: s.past x)[choice x]? with
  | none =>
    rw [hv] at h
    exact .present h
  | some =>
    rw [hv] at h
    rcases mem_cons.mp (mem_of_getElem? hv) with rfl | hmem
    · exact .present h
    · exact .past hmem h

theorem Inv.step (hi : Inv s) (hp : Permitted s act) (h : step s act = some s') : Inv s' := by
  cases act with
  | pnew => exact hi.pnew h
  | register => exact hi.register hp h
  | reset => exact hi.reset h
  | ended =>
    cases h
    refine hi.derived ?_ rfl rfl rfl rfl
    intro v hv
    cases hv with
    | present hx => exact ⟨_,.present hx,rfl,rfl⟩
    | past hv hp => exact ⟨_,.past hv hp,rfl,rfl⟩
    | pending hx hid => exact ⟨_,.pending (Finset.mem_of_mem_erase hx) hid,rfl,rfl⟩
  | set => exact hi.set h
  | pdelete => exact hi.pdelete h
  | retire => exact hi.retire h
  | delete b c =>
    cases h
    refine hi.perform (delete_pblk_keeps s.heap b c) ?_
    intro x hx
    unfold deletePblk at hx
    split at hx <;> cases hx
  | restart n choice kept =>
    simp only [Ids.step] at h
    split at h
    next hn =>
      cases h
      exact start_inv hn kept s.made fun x y hx hy hid =>
        hi.unique _ _ (image_tagged choice hx) (image_tagged choice hy) hid
    next => cases h

/-- As long as no thread draws an id that a payload from an earlier execution carries, ids
identify payloads. -/
theorem ids_identify {ms : List (Move State Act)} (hn : 0 < n ∧ n < 2 ^ 16)
    (run : Run step Permitted (boot n) ms s) : Identified s := by
  have hi : Inv s := run.invariant Inv
    (start_inv hn _ _ fun _ _ _ _ _ => rfl) fun _ _ _ hi hp h => hi.step hp h
  intro x y hx hy hid
  exact hi.unique _ _ (.present hx) (.present hy) hid

/-- Of two payloads, with the ids 0 and 1, the second survives a crash. The first id that the
next execution draws is 0 again. -/
theorem ids_identify_after_crash :
    ∃ ms s, Run step Permitted (boot 1) ms s ∧ isPayload (s.mem 1).blk ∧ isPayload (s.mem 2).blk ∧
      (s.mem 1).blk.id = 1 ∧ (s.mem 2).blk.id = 0 ∧ s.found 1 = s.mem 1 ∧ Identified s := by
  have h1 := (Run.nil : Run step Permitted (boot 1) [] (boot 1)).snoc (a := Act.pnew 0) trivial rfl
  have h2 := h1.snoc (a := Act.register 0 0 3) (fun _ x hx => by cases hx) rfl
  have h3 := h2.snoc (a := Act.pnew 1) trivial rfl
  have h4 := h3.snoc (a := Act.register 0 1 3) (fun _ x hx => by cases hx) rfl
  have h5 := h4.snoc (a := Act.restart 2 (fun x => if x = 1 then 0 else 5) (fun _ => true))
    trivial rfl
  have h₆ := h5.snoc (a := Act.pnew 2) trivial rfl
  have h₇ := h₆.snoc (a := Act.register 0 2 5) (by
    intro _ x hx
    by_cases hone : x = 1
    · subst hone
      decide
    · change isPayload (State.image _ (fun x => if x = 1 then 0 else 5) x).blk = true at hx
      rw [State.image,if_neg hone] at hx
      cases hx) rfl
  exact ⟨_,_,h₇,rfl,rfl,rfl,rfl,rfl,ids_identify (by decide) h₇⟩

/-- A payload that survives a crash and one of the next execution carry the same id. -/
theorem id_drawn_again :
    ∃ ms s, Run step (fun _ _ => True) (boot 1) ms s ∧ isPayload (s.mem 0).blk ∧
      isPayload (s.mem 1).blk ∧ (s.mem 0).blk.id = (s.mem 1).blk.id ∧
      (s.mem 0).origin ≠ (s.mem 1).origin ∧
      ∃ out, Recover.Blocking.recover false id
        [[⟨9,.epoch,0,0,0,0,5,false⟩,⟨0,.alloc,3,0,0,0,0,false⟩]]
        [[⟨9,.epoch,0,0,0,0,5,false⟩,⟨0,.alloc,3,0,0,0,0,false⟩]] = .ok out ∧
      out.inUse.find? Recover.Block.id 0 = some ⟨0,.alloc,3,0,0,0,0,false⟩ := by
  obtain ⟨ms,s,run,hgood⟩ := Run.play step (fun _ _ => true)
    (fun s => isPayload (s.mem 0).blk && isPayload (s.mem 1).blk &&
      (s.mem 0).blk.id = (s.mem 1).blk.id && (s.mem 0).origin ≠ (s.mem 1).origin)
    (boot 1)
    [.pnew 0,.register 0 0 3,.restart 1 (fun _ => 0) (fun _ => true),.pnew 1,.register 0 1 5]
    (by decide)
  simp only [Bool.and_eq_true,decide_eq_true_eq] at hgood
  obtain ⟨⟨⟨hx,hy⟩,hid⟩,hne⟩ := hgood
  exact ⟨ms,s,run.weaken fun _ _ _ => trivial,hx,hy,hid,hne,_,rfl,rfl⟩

end Montage.EpochSys.Ids
