import Montage.Recoverable.Ops

namespace Montage.Recoverable
open Library EpochSys ToBeFreed List

def State.perform (s : State) (is : List Instr) : Option State := is.foldlM State.access s

/-- The calls of an operation that is going to be aborted, with the addresses that the
allocator hands out. -/
inductive Act where
  | pnew (a : Addr)
  | pretire (b a : Addr)
  | beginOp (c : Nat) (antis : List Addr)
  | abortOp

def call (k : Kind) (s : State) : Act → Call
  | .pnew a => pnew k s.heap s.thread a
  | .pretire b a => pretire k s.heap s.thread b a
  | .beginOp c antis => beginOp k s.heap s.thread c antis
  | .abortOp => abortOp k s.heap s.thread

def step (k : Kind) (s : State) (a : Act) : Option State :=
  match call k s a with
  | .error _ => none
  | .ok (is,th) => (s.perform is).map fun s => { s with thread := th }

def Act.prepares : Act → Bool
  | .pnew _ | .pretire _ _ => true
  | _ => false

def Act.created : Act → Option Addr
  | .pnew a => some a
  | _ => none

/-- The thread is between operations. Its pending allocations, of earlier attempts, are as
`abort_op` is to leave them. -/
structure Idle (s : State) : Prop where
  epoch : s.thread.epoch = none
  retires : s.thread.pendingRetires = []
  distinct : s.thread.pendingAllocs.Nodup
  allocs : ∀ b ∈ s.thread.pendingAllocs, b ∈ s.allocated ∧
    (s.heap b).epoch = nullEpoch ∧ (s.heap b).blktype = .init

structure Traceless (s s' : State) (created : List Addr) : Prop where
  reset : ∀ a ∈ created, (s'.heap a).epoch = nullEpoch ∧ (s'.heap a).blktype = .init
  antiNodes : ∀ a ∈ s'.allocated, a ∈ s.allocated ∨ a ∈ created
  others : ∀ b ∈ s.allocated, b ∈ s'.allocated ∧ (s'.heap b).epoch = (s.heap b).epoch ∧
    (s'.heap b).blktype = (s.heap b).blktype ∧ (s'.heap b).retire = (s.heap b).retire
  retires : s'.thread.pendingRetires = []

def Thread.antis (th : Thread) : List Addr := th.pendingRetires.filterMap Prod.snd

/-- The header of a pending allocation outside an operation, or in one of epoch `c`. -/
def Waits (c : Option Nat) (b : PBlk) : Prop :=
  match c with
  | none => b.epoch = nullEpoch ∧ b.blktype = .init
  | some c => b.epoch = c ∧ b.blktype = .alloc

/-- How far the calls have changed the state `s0`: the blocks `before` were made before the
operation, `inside` in it, and there are the anti-nodes. -/
structure Track (k : Kind) (s0 : State) (c : Option Nat) (before inside : List Addr) (s : State) :
    Prop where
  epoch : s.thread.epoch = c
  allocs : s.thread.pendingAllocs = s0.thread.pendingAllocs ++ before
  old : ∀ b ∈ s0.thread.pendingAllocs, b ∈ s0.allocated
  distinct : (before ++ inside ++ s.thread.antis).Nodup
  new : ∀ x ∈ before ++ inside ++ s.thread.antis, x ∉ s0.allocated
  allocated : ∀ x, x ∈ s.allocated ↔ x ∈ s0.allocated ∨ x ∈ before ++ inside ++ s.thread.antis
  others : ∀ b ∈ s0.allocated, b ∉ s0.thread.pendingAllocs → s.heap b = s0.heap b
  retire : ∀ b ∈ s0.allocated, (s.heap b).retire = (s0.heap b).retire
  pending : ∀ b ∈ s0.thread.pendingAllocs, Waits c (s.heap b)
  created : ∀ b ∈ before ++ inside, Waits c (s.heap b)
  blocking : k = .blocking → s.thread.antis = []

variable {s s' s0 : State} {is js : List Instr} {k : Kind} {x : Addr}

theorem perform_append (s : State) (is js : List Instr) :
    s.perform (is ++ js) = (s.perform is).bind fun s => s.perform js := foldlM_append

def quiet : Instr → Bool
  | .construct _ _ _ | .deallocate _ => false
  | _ => true

theorem perform_quiet (s : State) (h : ∀ i ∈ is, quiet i = true) :
    s.perform is = some { s with heap := writes s.heap is } := by
  induction is generalizing s with
  | nil => rfl
  | cons i _ ih =>
    have hi : s.access i = some { s with heap := i.write s.heap } := by
      have hq := h i (by simp)
      cases i <;> first
        | rfl
        | cases hq
    rw [State.perform,foldlM_cons,hi]
    exact ih _ fun j hj => h j (by simp [hj])

theorem perform_make {i : Nat} (hq : ∀ i ∈ is, quiet i = true)
    (hd : ∀ i ∈ is, ∀ x, dest i = some x → x = a)
    (h : s.perform (.construct a blktype i :: is) = some s') :
    a ∉ s.allocated ∧ s'.allocated = insert a s.allocated ∧ s'.thread = s.thread ∧
      (∀ x, x ≠ a → s'.heap x = s.heap x) ∧
      s'.heap = writes s.heap (.construct a blktype i :: is) := by
  rw [State.perform,foldlM_cons] at h
  simp only [State.access] at h
  split at h
  next => cases h
  next ha =>
    have hp := perform_quiet { s with
      heap := (Instr.construct a blktype i).write s.heap
      allocated := insert a s.allocated } hq
    have hs' : s' = _ := Option.some.inj (h.symm.trans hp)
    subst hs'
    refine ⟨ha,rfl,rfl,?_,rfl⟩
    intro x hx
    have hrest : writes ((Instr.construct a blktype i).write s.heap) is x =
        (Instr.construct a blktype i).write s.heap x :=
      writes_other is fun i hi hdest => hx (hd i hi x hdest)
    exact hrest.trans (write_other fun hdest => hx (Option.some.inj hdest).symm)

/-- The blocks `made` are new in `s'`, and the others are as before. -/
structure Grows (s : State) (made : List Addr) (s' : State) : Prop where
  distinct : made.Nodup
  fresh : ∀ a ∈ made, a ∉ s.allocated
  allocated : ∀ x, x ∈ s'.allocated ↔ x ∈ s.allocated ∨ x ∈ made
  heap : ∀ x ∈ s.allocated, s'.heap x = s.heap x
  thread : s'.thread = s.thread

theorem Grows.refl (s : State) : Grows s [] s := ⟨.nil,by simp,by simp,fun _ _ => rfl,rfl⟩

theorem Grows.trans {s₁ s₂ s3 : State} (h1 : Grows s₁ as s₂) (h2 : Grows s₂ bs s3) :
    Grows s₁ (as ++ bs) s3 where
  distinct := by
    refine nodup_append.mpr ⟨h1.distinct,h2.distinct,?_⟩
    intro a ha b hb heq
    exact h2.fresh b hb ((h1.allocated b).mpr (.inr (heq ▸ ha)))
  fresh := by
    intro a ha
    rcases mem_append.mp ha with ha | ha
    · exact h1.fresh a ha
    · exact fun hs => h2.fresh a ha ((h1.allocated a).mpr (.inl hs))
  allocated := by
    intro x
    rw [h2.allocated,h1.allocated,mem_append,or_assoc]
  heap := fun x hx => (h2.heap x ((h1.allocated x).mpr (.inl hx))).trans (h1.heap x hx)
  thread := h2.thread.trans h1.thread

theorem grows_make {i : Nat} (hq : ∀ i ∈ is, quiet i = true)
    (hd : ∀ i ∈ is, ∀ x, dest i = some x → x = a)
    (h : s.perform (.construct a blktype i :: is) = some s') : Grows s [a] s' := by
  obtain ⟨ha,halloc,hthread,hheap,-⟩ := perform_make hq hd h
  refine ⟨by simp,by simpa using ha,?_,?_,hthread⟩
  · intro x
    rw [halloc,Finset.mem_insert,mem_singleton,or_comm]
  · exact fun x hx => hheap x fun heq => ha (heq ▸ hx)

/-- The accesses store to the blocks `bs` only, and `Q` relates their headers before and
after. -/
structure Touches (h : Heap) (bs : List Addr) (Q : PBlk → PBlk → Prop) (is : List Instr) :
    Prop where
  quiet : ∀ i ∈ is, quiet i = true
  dest : ∀ i ∈ is, ∀ x, dest i = some x → x ∈ bs
  post : ∀ b ∈ bs, Q (h b) (writes h is b)

/-- What the rounds of a loop do to their blocks, the loop does to all of them, if they are
distinct. -/
theorem for_each_touches {f : Heap → Thread → Addr → Call} {P : PBlk → Prop}
    {Q : PBlk → PBlk → Prop}
    (hf : ∀ h th b is th', f h th b = .ok (is,th') → P (h b) →
      Touches h [b] Q is ∧ SameOp th th')
    (hdistinct : bs.Nodup) (hP : ∀ b ∈ bs, P (h b)) (hr : forEach f h th bs = .ok (is,th')) :
    Touches h bs Q is ∧ SameOp th th' := by
  induction bs generalizing h th is with
  | nil =>
    cases hr
    exact ⟨⟨by simp,by simp,by simp⟩,.refl _⟩
  | cons b bs ih =>
    rw [nodup_cons] at hdistinct
    obtain ⟨js,th1,js',hfirst,hrest,rfl⟩ := for_each_cons hr
    obtain ⟨hb,hsame⟩ := hf h th b js th1 hfirst (hP b (by simp))
    have hframe : ∀ x ∈ bs, writes h js x = h x := by
      intro x hx
      refine writes_other js fun i hi hd => hdistinct.1 ?_
      rw [← mem_singleton.mp (hb.dest i hi x hd)]
      exact hx
    obtain ⟨hbs,hsame'⟩ := ih hdistinct.2 (fun x hx => hframe x hx ▸ hP x (by simp [hx])) hrest
    refine ⟨⟨?_,?_,?_⟩,hsame.trans hsame'⟩
    · intro i hi
      exact (mem_append.mp hi).elim (hb.quiet i) (hbs.quiet i)
    · intro i hi x hx
      rcases mem_append.mp hi with hi | hi
      · simp [mem_singleton.mp (hb.dest i hi x hx)]
      · simp [hbs.dest i hi x hx]
    · intro x hx
      rw [writes_append]
      rcases mem_cons.mp hx with rfl | hx
      · have hlast : writes (writes h js) js' x = writes h js x :=
          writes_other js' fun i hi hdest => hdistinct.1 (hbs.dest i hi x hdest)
        rw [hlast]
        exact hb.post x (by simp)
      · exact hframe x hx ▸ hbs.post x hx

/-- A new block is registered for the operation of epoch `c`. -/
def Registers (c : Nat) (b b' : PBlk) : Prop :=
  Waits (some c) b' ∧ b'.retire = b.retire

def Resets (b b' : PBlk) : Prop := Waits none b' ∧ b'.retire = b.retire

theorem register_alloc_pblk_touches (hr : registerAllocPblk h b c freshId = .ok is)
    (hinit : (h b).blktype = .init) : Touches h [b] (Registers c) is := by
  obtain ⟨-,-,rfl⟩ := register_alloc_pblk_ok hr
  by_cases hid : (h b).id = 0 <;> simp only [hinit,hid,if_true,if_false] <;> constructor <;>
    simp [Recoverable.quiet,Montage.dest,writes,Instr.write,Registers,Waits]

theorem register_alloc_touches (h : registerAlloc k hp th b c = .ok (is,th'))
    (hinit : (hp b).blktype = .init) : Touches hp [b] (Registers c) is ∧ SameOp th th' := by
  obtain ⟨hsame,js,hjs,⟨-,rfl⟩ | ⟨-,rfl⟩⟩ := register_alloc_ok h
  · exact ⟨register_alloc_pblk_touches hjs hinit,hsame⟩
  · -- noting the transaction in the header does not interfere
    have hjs : registerAllocPblk ((Instr.setTidSn b th.tid th.sn).write hp) b c th.nextId =
        .ok js := by simpa [registerAllocPblk,Instr.write] using hjs
    have htouch := register_alloc_pblk_touches hjs (by simpa [Instr.write] using hinit)
    refine ⟨⟨?_,?_,?_⟩,hsame⟩
    · simpa [Recoverable.quiet] using htouch.quiet
    · simpa [Montage.dest] using htouch.dest
    · simpa [Registers,Instr.write,writes] using htouch.post

theorem register_allocs_touches (h : registerAllocs k c hp th bs = .ok (is,th'))
    (hdistinct : bs.Nodup) (hinit : ∀ b ∈ bs, (hp b).blktype = .init) :
    Touches hp bs (Registers c) is ∧ SameOp th th' := by
  refine for_each_touches (P := fun b => b.blktype = .init) ?_ hdistinct hinit h
  intro h th b is th' hr hinit
  exact register_alloc_touches (of_check_ok hr).2 hinit

theorem reset_allocs_touches (h : resetAllocs c hp th bs = .ok (is,th'))
    (hdistinct : bs.Nodup) : Touches hp bs Resets is ∧ SameOp th th' := by
  refine for_each_touches (P := fun _ => True) ?_ hdistinct (fun _ _ => trivial) h
  intro h th b is th' hr _
  obtain ⟨js,hjs,hr⟩ := of_bind_ok hr
  cases hr
  rw [reset_alloc_pblk_ok hjs]
  refine ⟨⟨?_,?_,?_⟩,rfl,rfl,rfl⟩ <;>
    simp [Recoverable.quiet,Montage.dest,writes,Instr.write,Resets,Waits]

theorem prepare_retire_grows (h : prepareRetire k hp th b a c = .ok (is,r))
    (hs : s.perform is = some s') : Grows s r.2.toList s' := by
  obtain ⟨-,rfl,rfl⟩ | ⟨-,rfl,rfl⟩ := prepare_retire_ok h
  · cases hs
    exact .refl s
  · exact grows_make (by simp [quiet]) (by simp [dest]) hs

theorem perform_append_some (h : s.perform (is ++ js) = some s') :
    ∃ s₁, s.perform is = some s₁ ∧ s₁.perform js = some s' := by
  rw [perform_append] at h
  exact Option.bind_eq_some_iff.mp h

theorem prepare_retires_grows (h : prepareRetires k hp th c rs antis = .ok (is,rs'))
    (hs : s.perform is = some s') : Grows s (rs'.filterMap Prod.snd) s' := by
  induction rs generalizing hp antis is rs' s with
  | nil =>
    cases h
    cases hs
    exact .refl _
  | cons _ _ ih =>
    obtain ⟨a,antis',js,r',js',rs'',hfirst,hrest,rfl,rfl⟩ := prepare_retires_cons h
    obtain ⟨s₁,hs1,hs2⟩ := perform_append_some hs
    have hgrows := (prepare_retire_grows hfirst hs1).trans (ih hrest hs2)
    have hmade : (r' :: rs'').filterMap Prod.snd = r'.2.toList ++ rs''.filterMap Prod.snd := by
      cases hr : r'.2 <;> simp [hr]
    rw [hmade]
    exact hgrows

variable {before inside before' inside' : List Addr} {o : Option Nat} {c : Nat} {s₁ : State}

theorem Track.grow (ht : Track k s0 o before inside s) (hg : Grows s made s₁) {th : Thread}
    (hepoch : th.epoch = o) (hallocs : th.pendingAllocs = s0.thread.pendingAllocs ++ before')
    (hperm : (before' ++ inside' ++ th.antis).Perm ((before ++ inside ++ s.thread.antis) ++ made))
    (hcreated : ∀ b ∈ before' ++ inside', b ∈ before ++ inside ∨ Waits o (s₁.heap b))
    (hblocking : k = .blocking → th.antis = []) :
    Track k s0 o before' inside' { s₁ with thread := th } := by
  have hold : ∀ x ∈ s0.allocated, s₁.heap x = s.heap x := fun x hx =>
    hg.heap x ((ht.allocated x).mpr (.inl hx))
  have hmade : ∀ x ∈ made, x ∉ s0.allocated ∧ x ∉ before ++ inside ++ s.thread.antis := by
    intro x hx
    have hfresh := hg.fresh x hx
    rw [ht.allocated] at hfresh
    exact not_or.mp hfresh
  refine ⟨hepoch,hallocs,ht.old,?_,?_,?_,?_,?_,?_,?_,hblocking⟩
  · refine hperm.nodup_iff.mpr (nodup_append.mpr ⟨ht.distinct,hg.distinct,?_⟩)
    intro x hx y hy heq
    exact (hmade y hy).2 (heq ▸ hx)
  · intro x hx
    rcases mem_append.mp (hperm.subset hx) with hx | hx
    · exact ht.new x hx
    · exact (hmade x hx).1
  · intro x
    rw [hg.allocated,ht.allocated,hperm.mem_iff,mem_append (t := made),or_assoc]
  · intro b hb hnot
    exact (hold b hb).trans (ht.others b hb hnot)
  · intro b hb
    exact (congrArg PBlk.retire (hold b hb)).trans (ht.retire b hb)
  · intro b hb
    exact hold b (ht.old b hb) ▸ ht.pending b hb
  · intro b hb
    rcases hcreated b hb with hb | hb
    · have hmem : b ∈ s.allocated :=
        (ht.allocated b).mpr (.inr (mem_append_left _ hb))
      exact hg.heap b hmem ▸ ht.created b hb
    · exact hb

theorem step_some {act : Act} (hs : step k s act = some s') :
    ∃ is th s₁, call k s act = .ok (is,th) ∧ s.perform is = some s₁ ∧
      s' = { s₁ with thread := th } := by
  unfold step at hs
  split at hs
  next => cases hs
  next is th hcall =>
    obtain ⟨s₁,hs1,rfl⟩ := Option.map_eq_some_iff.mp hs
    exact ⟨is,th,s₁,hcall,hs1,rfl⟩

theorem perform_heap (h : s.perform is = some s') : s'.heap = writes s.heap is := by
  induction is generalizing s with
  | nil => cases h; rfl
  | cons i _ ih =>
    rw [State.perform,foldlM_cons] at h
    obtain ⟨s₁,hs1,hrest⟩ := Option.bind_eq_some_iff.mp h
    have hheap : s₁.heap = i.write s.heap := by
      cases i with
      | construct =>
        simp only [State.access] at hs1
        split at hs1
        next => cases hs1
        next => cases hs1; rfl
      | _ => cases hs1; rfl
    rw [ih hrest,hheap]
    rfl

/-- The pending allocations are told apart, and what is done to them does not touch the other
blocks. -/
theorem Track.allocs_nodup (ht : Track k s0 o before inside s)
    (hdistinct : s0.thread.pendingAllocs.Nodup) : s.thread.pendingAllocs.Nodup := by
  rw [ht.allocs]
  refine nodup_append.mpr ⟨hdistinct,?_,?_⟩
  · exact (nodup_append.mp (nodup_append.mp ht.distinct).1).1
  · intro a ha b hb heq
    exact ht.new b (by simp [hb]) (heq ▸ ht.old a ha)

theorem Track.touch (ht : Track k s0 o before inside s) {Q : PBlk → PBlk → Prop}
    (htouch : Touches s.heap s.thread.pendingAllocs Q is) {th : Thread} (hepoch : th.epoch = o')
    (hallocs : th.pendingAllocs = s.thread.pendingAllocs) (hantis : th.antis = s.thread.antis)
    (hQ : ∀ b b', Q b b' → Waits o' b' ∧ b'.retire = b.retire) (hinside : inside = []) :
    Track k s0 o' before inside { s with heap := writes s.heap is, thread := th } := by
  have hframe : ∀ x, x ∉ s.thread.pendingAllocs → writes s.heap is x = s.heap x := by
    intro x hx
    exact writes_other is fun i hi hdest => hx (htouch.dest i hi x hdest)
  have hwaits : ∀ b ∈ s.thread.pendingAllocs, Waits o' (writes s.heap is b) := fun b hb =>
    (hQ _ _ (htouch.post b hb)).1
  refine ⟨hepoch,hallocs.trans ht.allocs,ht.old,?_,?_,?_,?_,?_,?_,?_,?_⟩
  · exact hantis ▸ ht.distinct
  · exact hantis ▸ ht.new
  · exact hantis ▸ ht.allocated
  · intro b hb hnot
    refine (hframe b ?_).trans (ht.others b hb hnot)
    rw [ht.allocs,mem_append,not_or]
    exact ⟨hnot,fun hbefore => ht.new b (by simp [hbefore]) hb⟩
  · intro b hb
    refine Eq.trans ?_ (ht.retire b hb)
    by_cases hmem : b ∈ s.thread.pendingAllocs
    · exact (hQ _ _ (htouch.post b hmem)).2
    · exact congrArg PBlk.retire (hframe b hmem)
  · intro b hb
    exact hwaits b (by simp [ht.allocs,hb])
  · intro b hb
    subst hinside
    exact hwaits b (by rw [ht.allocs]; exact mem_append_right _ (by simpa using hb))
  · exact fun hk => hantis.trans (ht.blocking hk)

theorem prepare_retires_blocking (h : prepareRetires .blocking hp th c rs antis = .ok (is,rs')) :
    rs'.filterMap Prod.snd = [] := by
  induction rs generalizing hp antis is rs' with
  | nil => cases h; rfl
  | cons _ _ ih =>
    obtain ⟨a,antis',js,r',js',rs'',hfirst,hrest,-,rfl⟩ := prepare_retires_cons h
    cases hfirst
    simpa using ih hrest

/-- Withdrawing the retirements deallocates their anti-nodes, and nothing else happens. -/
theorem withdraw_perform {rs : List (Addr × Option Addr)}
    (hs : s.perform (rs.flatMap fun r => withdrawRetire .nonblocking r.2 c) = some s') :
    (∀ x, x ∉ rs.filterMap Prod.snd → s'.heap x = s.heap x) ∧
      ∀ x, x ∈ s'.allocated ↔ x ∈ s.allocated ∧ x ∉ rs.filterMap Prod.snd := by
  induction rs generalizing s with
  | nil =>
    cases hs
    simp
  | cons r _ ih =>
    rw [flatMap_cons] at hs
    obtain ⟨s₁,hs1,hrest⟩ := perform_append_some hs
    obtain ⟨hheap,halloc⟩ := ih hrest
    cases hr : r.2 with
    | none =>
      rw [hr] at hs1
      cases hs1
      rw [filterMap_cons_none hr]
      exact ⟨hheap,halloc⟩
    | some a =>
      have hs1 : s₁ = { s with
          heap := (Instr.setEpoch a nullEpoch).write s.heap
          allocated := s.allocated.erase a } := by
        rw [hr] at hs1
        simp only [withdrawRetire,NbEpochSys.withdrawRetirePblk,deletePblk] at hs1
        split at hs1 <;> exact (Option.some.inj hs1).symm
      rw [filterMap_cons_some hr]
      subst hs1
      constructor
      · intro x hx
        rw [mem_cons,not_or] at hx
        rw [hheap x hx.2]
        have hother : (Instr.setEpoch a nullEpoch).write s.heap x = s.heap x :=
          write_other (by simpa [dest] using Ne.symm hx.1)
        exact hother
      · intro x
        simp only [halloc,Finset.mem_erase,mem_cons,not_or]
        exact ⟨fun h => ⟨h.1.2,h.1.1,h.2⟩,fun h => ⟨⟨h.2.1,h.1⟩,h.2.2⟩⟩

theorem Idle.track (h : Idle s) : Track k s none [] [] s where
  epoch := h.epoch
  allocs := by simp
  old := fun b hb => (h.allocs b hb).1
  distinct := by simp [Thread.antis,h.retires]
  new := by simp [Thread.antis,h.retires]
  allocated := by simp [Thread.antis,h.retires]
  others := fun _ _ _ => rfl
  retire := fun _ _ => rfl
  pending := fun b hb => (h.allocs b hb).2
  created := by simp
  blocking := by simp [Thread.antis,h.retires]

section
variable (ht : Track k s0 none before [] s)
include ht

theorem Track.pnew_outside
    (hs : step k s (.pnew a) = some s') : Track k s0 none (before ++ [a]) [] s' := by
  simp only [step,call,pnew,ht.epoch] at hs
  obtain ⟨s₁,hs1,rfl⟩ := Option.map_eq_some_iff.mp hs
  obtain ⟨-,-,-,-,hheap⟩ := perform_make (by simp) (by simp) hs1
  refine ht.grow (grows_make (by simp) (by simp) hs1) rfl ?_ ?_ ?_ ht.blocking
  · simp [ht.allocs]
  · simp only [Thread.antis,append_nil,append_assoc]
    exact Perm.append_left _ perm_append_comm
  · intro b hb
    rw [append_nil,mem_append,mem_singleton] at hb
    rcases hb with hb | rfl
    · exact .inl (by simpa using hb)
    · exact .inr (by simp [hheap,writes,Instr.write,Waits])

theorem Track.pretire_outside
    (hs : step k s (.pretire b a) = some s') : Track k s0 none before [] s' := by
  simp only [step,call,pretire,ht.epoch] at hs
  cases hs
  have hantis : (s.thread.pendingRetires ++ [(b,none)]).filterMap Prod.snd = s.thread.antis := by
    simp [Thread.antis]
  refine ht.grow (.refl s) rfl ht.allocs ?_ (fun b hb => .inl hb) ?_
  · simp only [Thread.antis,append_nil] at hantis ⊢
    rw [hantis]
  · exact fun hk => hantis.trans (ht.blocking hk)

/-- `begin_op` first makes the anti-nodes of the pending retirements, and then registers the
pending allocations. -/
theorem Track.begin_op (hdistinct : s0.thread.pendingAllocs.Nodup) (hnone : s.thread.antis = [])
    (hs : step k s (.beginOp c antis) = some s') :
    c ≠ nullEpoch ∧ Track k s0 (some c) before [] s' := by
  obtain ⟨is,th,s₂,hcall,hs2,rfl⟩ := step_some hs
  obtain ⟨hc,th1,js,rs,js',-,hr,hq,rfl⟩ := begin_op_ok hcall
  obtain ⟨s₁,hs1,hrest⟩ := perform_append_some hs2
  have hmade : Track k s0 none before []
      { s₁ with thread := { s.thread with pendingRetires := rs } } := by
    refine ht.grow (prepare_retires_grows hr hs1) ht.epoch ht.allocs ?_ (fun b hb => .inl hb) ?_
    · rw [hnone]
      simp [Thread.antis]
    · intro hk
      subst hk
      exact prepare_retires_blocking hr
  rw [← perform_heap hs1] at hq
  have hinit : ∀ b ∈ s.thread.pendingAllocs, (s₁.heap b).blktype = .init := by
    intro b hb
    rw [ht.allocs,mem_append] at hb
    rcases hb with hb | hb
    · exact (hmade.pending b hb).2
    · exact (hmade.created b (by simpa using hb)).2
  obtain ⟨htouch,hepoch,hallocs,hretires⟩ :=
    register_allocs_touches hq (ht.allocs_nodup hdistinct) hinit
  rw [perform_quiet s₁ htouch.quiet] at hrest
  cases hrest
  exact ⟨hc,hmade.touch htouch hepoch hallocs (congrArg (List.filterMap Prod.snd) hretires)
    (fun _ _ h => h) rfl⟩

theorem Track.prepare_outside (hnone : s.thread.antis = [])
    (hprep : ∀ a ∈ acts, a.prepares) (hs : play (step k) s acts = some s') :
    Track k s0 none (before ++ acts.filterMap Act.created) [] s' ∧ s'.thread.antis = [] := by
  induction acts generalizing s before with
  | nil =>
    cases hs
    exact ⟨by simpa using ht,hnone⟩
  | cons a acts ih =>
    obtain ⟨s₁,hs1,hrest⟩ := Option.bind_eq_some_iff.mp hs
    have hprep' : ∀ a ∈ acts, a.prepares := fun a ha => hprep a (by simp [ha])
    cases a with
    | pnew =>
      have hsame : s₁.thread.antis = s.thread.antis := by
        simp only [step,call,pnew,ht.epoch] at hs1
        obtain ⟨s₂,-,rfl⟩ := Option.map_eq_some_iff.mp hs1
        rfl
      simpa [Act.created] using ih (ht.pnew_outside hs1) (hsame.trans hnone) hprep' hrest
    | pretire =>
      have hsame : s₁.thread.antis = s.thread.antis := by
        simp only [step,call,pretire,ht.epoch] at hs1
        cases hs1
        simp [Thread.antis]
      exact ih (ht.pretire_outside hs1) (hsame.trans hnone) hprep' hrest
    | beginOp c antis => exact absurd (hprep (.beginOp c antis) (by simp)) (by simp [Act.prepares])
    | abortOp => exact absurd (hprep .abortOp (by simp)) (by simp [Act.prepares])

end

section
variable (ht : Track k s0 (some c) before inside s)
include ht

theorem Track.pnew_inside
    (hs : step k s (.pnew a) = some s') : Track k s0 (some c) before (inside ++ [a]) s' := by
  obtain ⟨is,th,s₁,hcall,hs1,rfl⟩ := step_some hs
  simp only [call,pnew,ht.epoch] at hcall
  obtain ⟨⟨js,th1⟩,hr,hcall⟩ := of_bind_ok hcall
  cases hcall
  obtain ⟨htouch,hepoch,hallocs,hretires⟩ := register_alloc_touches hr (by simp [Instr.write])
  have hdest : ∀ i ∈ js, ∀ x, dest i = some x → x = a := fun i hi x hx =>
    mem_singleton.mp (htouch.dest i hi x hx)
  obtain ⟨-,-,-,-,hheap⟩ := perform_make htouch.quiet hdest hs1
  have hantis : th1.antis = s.thread.antis := congrArg (List.filterMap Prod.snd) hretires
  refine ht.grow (grows_make htouch.quiet hdest hs1) (hepoch.trans ht.epoch)
    (hallocs.trans ht.allocs) ?_ ?_ (fun hk => hantis.trans (ht.blocking hk))
  · rw [hantis]
    simp only [append_assoc]
    exact Perm.append_left _ (Perm.append_left _ perm_append_comm)
  · intro b hb
    rw [← append_assoc,mem_append,mem_singleton] at hb
    rcases hb with hb | rfl
    · exact .inl hb
    · right
      rw [hheap]
      exact (htouch.post b (by simp)).1

theorem Track.pretire_inside
    (hs : step k s (.pretire b a) = some s') : Track k s0 (some c) before inside s' := by
  obtain ⟨is,th,s₁,hcall,hs1,rfl⟩ := step_some hs
  simp only [call,pretire,ht.epoch] at hcall
  obtain ⟨⟨js,r⟩,hr,hcall⟩ := of_bind_ok hcall
  cases hcall
  have hantis : (s.thread.pendingRetires ++ [r]).filterMap Prod.snd =
      s.thread.antis ++ r.2.toList := by
    cases hr : r.2 <;> simp [Thread.antis,hr]
  refine ht.grow (prepare_retire_grows hr hs1) rfl ht.allocs ?_ (fun b hb => .inl hb) ?_
  · rw [Thread.antis,hantis,← append_assoc]
  · intro hk
    subst hk
    cases hr
    exact hantis.trans (by simp [ht.blocking])

theorem Track.abort_op
    (hdistinct : s0.thread.pendingAllocs.Nodup) (hs : step k s .abortOp = some s') :
    (∀ x, x ∈ s'.allocated ↔ x ∈ s.allocated ∧ x ∉ s.thread.antis) ∧
      (∀ b ∈ s.thread.pendingAllocs, Resets (s.heap b) (s'.heap b)) ∧
      (∀ x, x ∉ s.thread.antis → x ∉ s.thread.pendingAllocs → s'.heap x = s.heap x) ∧
      s'.thread.pendingRetires = [] := by
  obtain ⟨is,th,s₂,hcall,hs2,rfl⟩ := step_some hs
  obtain ⟨js,th1,rfl,hq,rfl⟩ := abort_op_ok ht.epoch hcall
  obtain ⟨s₁,hs1,hrest⟩ := perform_append_some hs2
  rw [← perform_heap hs1] at hq
  obtain ⟨htouch,-,-,hretires⟩ := reset_allocs_touches hq (ht.allocs_nodup hdistinct)
  rw [perform_quiet s₁ htouch.quiet] at hrest
  cases hrest
  obtain ⟨hheap,halloc⟩ : (∀ x, x ∉ s.thread.antis → s₁.heap x = s.heap x) ∧
      ∀ x, x ∈ s₁.allocated ↔ x ∈ s.allocated ∧ x ∉ s.thread.antis := by
    cases k with
    | nonblocking => exact withdraw_perform hs1
    | blocking =>
      rw [ht.blocking rfl]
      have hnil : (s.thread.pendingRetires.flatMap fun r => withdrawRetire .blocking r.2 c) =
          [] := flatMap_eq_nil_iff.mpr fun _ _ => rfl
      rw [hnil] at hs1
      cases hs1
      simp
  refine ⟨halloc,?_,?_,hretires⟩
  · intro b hb
    have hnot : b ∉ s.thread.antis := by
      intro hanti
      rw [ht.allocs,mem_append] at hb
      rcases hb with hb | hb
      · exact ht.new b (by simp [hanti]) (ht.old b hb)
      · exact (nodup_append.mp ht.distinct).2.2 b (by simp [hb]) b hanti rfl
    exact hheap b hnot ▸ htouch.post b hb
  · intro x hx hnot
    exact (writes_other js fun i hi hdest => hnot (htouch.dest i hi x hdest)).trans (hheap x hx)

theorem Track.prepare_inside
    (hprep : ∀ a ∈ acts, a.prepares) (hs : play (step k) s acts = some s') :
    Track k s0 (some c) before (inside ++ acts.filterMap Act.created) s' := by
  induction acts generalizing s inside with
  | nil =>
    cases hs
    simpa using ht
  | cons a acts ih =>
    obtain ⟨s₁,hs1,hrest⟩ := Option.bind_eq_some_iff.mp hs
    have hprep' : ∀ a ∈ acts, a.prepares := fun a ha => hprep a (by simp [ha])
    cases a with
    | pnew => simpa [Act.created] using ih (ht.pnew_inside hs1) hprep' hrest
    | pretire => exact ih (ht.pretire_inside hs1) hprep' hrest
    | beginOp c antis => exact absurd (hprep (.beginOp c antis) (by simp)) (by simp [Act.prepares])
    | abortOp => exact absurd (hprep .abortOp (by simp)) (by simp [Act.prepares])

theorem Track.traceless_iff (hidle : Idle s0)
    (hc : c ≠ nullEpoch) (hs : step k s .abortOp = some s') :
    Traceless s0 s' (before ++ inside) ↔ inside = [] := by
  obtain ⟨halloc,hreset,hframe,hretires⟩ := ht.abort_op hidle.distinct hs
  constructor
  · intro h
    refine eq_nil_iff_forall_not_mem.mpr fun a ha => hc ?_
    have hmem : a ∈ before ++ inside := mem_append_right _ ha
    have hanti : a ∉ s.thread.antis := fun hanti =>
      (nodup_append.mp ht.distinct).2.2 a hmem a hanti rfl
    have hpending : a ∉ s.thread.pendingAllocs := by
      rw [ht.allocs,mem_append,not_or]
      refine ⟨fun hold => ht.new a (mem_append_left _ hmem) (ht.old a hold),fun hbefore => ?_⟩
      have hdistinct := (nodup_append.mp ht.distinct).1
      exact (nodup_append.mp hdistinct).2.2 a hbefore a ha rfl
    -- `reset_alloc_pblk` has not been called for it, so it still has the operation's epoch.
    have hepoch : (s'.heap a).epoch = c := by
      rw [hframe a hanti hpending]
      exact (ht.created a hmem).1
    exact hepoch.symm.trans (h.reset a hmem).1
  · intro hinside
    subst hinside
    refine ⟨?_,?_,?_,hretires⟩
    · intro a ha
      have hpending : a ∈ s.thread.pendingAllocs := by
        rw [ht.allocs]
        exact mem_append_right _ (by simpa using ha)
      exact (hreset a hpending).1
    · intro a ha
      obtain ⟨ha,hanti⟩ := (halloc a).mp ha
      rcases (ht.allocated a).mp ha with hold | hnew
      · exact .inl hold
      · exact .inr ((mem_append.mp hnew).resolve_right hanti)
    · intro b hb
      have hanti : b ∉ s.thread.antis := fun hanti => ht.new b (by simp [hanti]) hb
      refine ⟨(halloc b).mpr ⟨(ht.allocated b).mpr (.inl hb),hanti⟩,?_⟩
      by_cases hpending : b ∈ s0.thread.pendingAllocs
      · have hres := hreset b (by simp [ht.allocs,hpending])
        have hold := (hidle.allocs b hpending).2
        exact ⟨hres.1.1.trans hold.1.symm,hres.1.2.trans hold.2.symm,
          hres.2.trans (ht.retire b hb)⟩
      · have hnot : b ∉ s.thread.pendingAllocs := by
          rw [ht.allocs,mem_append,not_or]
          exact ⟨hpending,fun hbefore => ht.new b (by simp [hbefore]) hb⟩
        rw [hframe b hanti hnot,ht.others b hb hpending]
        exact ⟨rfl,rfl,rfl⟩

end

/-- An operation that is aborted leaves no trace exactly if it has made no block after it
began: those made before are pending allocations, which `abort_op` resets, while `pnew` in
an operation registers its block without noting it there. -/
theorem abort_traceless_iff (before inside : List Act) (hidle : Idle s)
    (hbefore : ∀ a ∈ before, a.prepares) (hinside : ∀ a ∈ inside, a.prepares)
    (h : play (step k) s (before ++ .beginOp c antis :: (inside ++ [.abortOp])) = some s') :
    Traceless s s' ((before ++ inside).filterMap Act.created) ↔ ∀ a, .pnew a ∉ inside := by
  rw [play_append] at h
  obtain ⟨s₁,hs1,h⟩ := Option.bind_eq_some_iff.mp h
  obtain ⟨s₂,hs2,h⟩ := Option.bind_eq_some_iff.mp h
  rw [play_append] at h
  obtain ⟨s3,hs3,h⟩ := Option.bind_eq_some_iff.mp h
  obtain ⟨s4,hs4,h⟩ := Option.bind_eq_some_iff.mp h
  cases h
  have hnone : s.thread.antis = [] := by simp [Thread.antis,hidle.retires]
  obtain ⟨hprepared,hnone⟩ := hidle.track.prepare_outside hnone hbefore hs1
  obtain ⟨hc,hbegun⟩ := hprepared.begin_op hidle.distinct hnone hs2
  have hran := hbegun.prepare_inside hinside hs3
  simp only [nil_append] at hran
  rw [filterMap_append,hran.traceless_iff hidle hc hs4,filterMap_eq_nil_iff]
  constructor
  · intro hnew a ha
    cases hnew _ ha
  · intro hnew a ha
    cases a with
    | pnew b => exact absurd ha (hnew b)
    | _ => rfl

def fresh : State where
  heap := fun a => ⟨none,3,.alloc,0,0,a⟩
  allocated := {1,2}
  thread := ⟨none,[],[],0,0,7⟩

theorem fresh_idle : Idle fresh := ⟨rfl,rfl,.nil,by simp [fresh]⟩

theorem abort_traceless_nonblocking :
    ∃ s', play (step .nonblocking) fresh ([.pnew 3,.pretire 1 0] ++
      .beginOp 4 [4] :: ([.pretire 2 5] ++ [.abortOp])) = some s' ∧
      Traceless fresh s' [3] := by
  obtain ⟨s',h⟩ := Option.isSome_iff_exists.mp (by decide :
    (play (step .nonblocking) fresh ([.pnew 3,.pretire 1 0] ++
      .beginOp 4 [4] :: ([.pretire 2 5] ++ [.abortOp]))).isSome)
  exact ⟨s',h,(abort_traceless_iff [.pnew 3,.pretire 1 0] [.pretire 2 5] fresh_idle (by decide)
    (by decide) h).mpr (by simp)⟩

/-- A block made inside keeps the epoch of the operation, in both systems. -/
theorem abort_keeps_new_block :
    ∃ s₁ s₂, play (step .blocking) fresh [.beginOp 4 [],.pnew 3,.abortOp] = some s₁ ∧
      play (step .nonblocking) fresh [.beginOp 4 [],.pnew 3,.abortOp] = some s₂ ∧
      ¬Traceless fresh s₁ [3] ∧ ¬Traceless fresh s₂ [3] := by
  refine ⟨_,_,rfl,rfl,fun h => ?_,fun h => ?_⟩
  · exact absurd (h.reset 3 (by simp)).1 (by decide)
  · exact absurd (h.reset 3 (by simp)).1 (by decide)

end Montage.Recoverable
