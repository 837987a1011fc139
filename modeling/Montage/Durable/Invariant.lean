import Montage.Durable.Model

namespace Montage.Durable
open Library EpochSys Function List

variable {n : Nat}

def Mark (i d : Nat) (b : PBlk) : Prop := b.blktype = .delete ∧ b.epoch = d ∧ b.id = i

def target : Instr → Option Addr
  | .registerPersist b _ | .registerFree b _ | .deallocate b => some b
  | .registerPersistRaw _ _ => none
  | i => dest i

def release : Instr → Option Addr
  | .registerFree b _ | .deallocate b => some b
  | _ => none

def Place.owner : Place n → Option (Fin n)
  | .made t | .held t | .waiting t _ => some t
  | .free | .live _ => none

structure Fits (life : Nat → Life n) (t : Fin n) (op : Option Nat) (h : Heap) (i : Instr)
    (rest : List Instr) (x : Addr) : Prop where
  epoch : (i.write h x).epoch ≠ nullEpoch → op = some (i.write h x).epoch
  type : (i.write h x).blktype ∈ [PBlkType.init,.alloc,.update,.delete]
  mark : (i.write h x).blktype = .delete → (i.write h x).epoch ≠ nullEpoch →
    life (i.write h x).id = .deleted (i.write h x).epoch x ∨ life (i.write h x).id = .gone
  fresh : (i.write h x).blktype = .init → (i.write h x).epoch ≠ nullEpoch →
    .registerPersist x (i.write h x).epoch ∈ rest
  version : ∀ j, Version j (i.write h x) → j = 0 ∨ life j = .busy t
  stays : (h x).blktype = .delete → (h x).epoch ≠ nullEpoch →
    Mark (h x).id (h x).epoch (i.write h x) ∨ i = .setEpoch x nullEpoch

/-- When a thread may make an access. A block is registered for write-back after the last
store to it and deallocated after its epoch has been reset. -/
def Ok (life : Nat → Life n) (t : Fin n) (op : Option Nat) (h : Heap) (rest : List Instr) :
    Instr → Prop
  | .registerPersist x c => op = some c ∧ (h x).blktype ≠ .init ∧ writes h rest x = h x
  | .registerPersistRaw _ _ | .registerFree _ _ => True
  | .deallocate x => (h x).epoch = nullEpoch
  | i => ∀ x ∈ dest i, Fits life t op h i rest x

/-- The accesses that are left of a call may be made one after the other, and leave a
version of the payload behind. -/
def Safe (life : Nat → Life n) (t : Fin n) (op : Option Nat) (result : Option (Nat × Addr)) :
    Heap → List Instr → Prop
  | h, [] => ∀ i r, result = some (i,r) → Version i (h r)
  | h, i :: is => Ok life t op h is i ∧ Safe life t op result (i.write h) is

variable (s : State n)

structure Worker (t : Fin n) : Prop where
  held : ∀ i ∈ s.pending t, ∀ b ∈ target i, s.place b = .held t
  released : (s.pending t).Pairwise fun i j => ∀ b ∈ release i, b ∉ target j
  result : ∀ i r, s.result t = some (i,r) →
    s.life i = .busy t ∧ s.place r = .held t ∧ ∀ j ∈ s.pending t, r ∉ release j
  safe : Safe s.life t (s.op t) (s.result t) s.vol (s.pending t)
  made : ∀ a ∈ s.allocs t, s.place a = .made t ∧
    (s.vol a).blktype = .init ∧ (s.vol a).epoch = nullEpoch ∧ (s.vol a).id = 0
  distinct : (s.allocs t).Nodup
  waiting : ∀ j, ∀ w ∈ (s.tbf t).buckets j, s.place w.blk = .waiting t j
  once : ∀ j, (((s.tbf t).buckets j).map ToBeFreed.Waiting.blk).Nodup
  epoch : ∀ c, s.op t = some c → 0 < c ∧ c ≤ s.globalEpoch ∧ s.globalEpoch ≤ c + 1

/-- Block `x` is going to be registered for write-back in epoch `e`. -/
def Pledged (x : Addr) (e : Nat) : Prop :=
  ∃ t, s.op t = some e ∧ .registerPersist x e ∈ s.pending t

/-- Block `x` is registered for write-back in epoch `e`, which is not yet durable. -/
def Booked (x : Addr) (e : Nat) : Prop :=
  s.globalEpoch ≤ e + 1 ∧ ∃ t, ⟨x,e⟩ ∈ s.persist t (e % epochWindow)

structure Header (x : Addr) (b : PBlk) : Prop where
  epoch : b.epoch ≤ s.globalEpoch
  type : b.blktype ∈ [PBlkType.init,.alloc,.update,.delete]
  mark : b.blktype = .delete → b.epoch ≠ nullEpoch →
    s.life b.id = .deleted b.epoch x ∨ s.life b.id = .gone

/-- Both copies of a block. One that has an epoch and no type yet is written back before
its epoch is durable. -/
structure Copies (x : Addr) : Prop where
  known : x ∉ s.known → s.place x = .free ∧ (s.per x).epoch = nullEpoch
  free : s.place x = .free → (s.vol x).epoch = nullEpoch
  vol : Header s x (s.vol x)
  per : Header s x (s.per x)
  fresh : (s.vol x).blktype = .init → (s.vol x).epoch ≠ nullEpoch →
    Pledged s x (s.vol x).epoch
  stain : (s.per x).blktype = .init → (s.per x).epoch ≠ nullEpoch →
    Pledged s x (s.per x).epoch ∨ Booked s x (s.per x).epoch

/-- A deletion is under way, or its anti-node stands, or nothing is left of the payload. -/
inductive Deletion (i d : Nat) (a : Addr) : Prop
  | making (t : Fin n) (op : s.op t = some d) (mem : .registerPersist a d ∈ s.pending t)
      (final : Mark i d (writes s.vol (s.pending t) a))
  | standing (vol : Mark i d (s.vol a)) (per : Mark i d (s.per a) ∨ Booked s a d)
  | erased (none : ∀ x, ¬ Version i (s.vol x) ∧ ¬ Version i (s.per x))

structure Payload (i : Nat) : Prop where
  live : ∀ b, s.life i = .live b → s.place b = .live i ∧ Version i (s.vol b)
  deleted : ∀ d a, s.life i = .deleted d a → d ≠ nullEpoch ∧ Deletion s i d a

structure Inv : Prop where
  started : 0 < s.globalEpoch
  bounded : s.globalEpoch ≤ uint64Max
  zero : s.life 0 = .unused
  worker : ∀ t, Worker s t
  copies : ∀ x, Copies s x
  payload : ∀ i, Payload s i

structure Next (s s' : State n) : Prop where
  inv : Inv s'
  deleted : ∀ j d a, s.life j = .deleted d a → s'.life j = .deleted d a

theorem Next.trans {s1 s2 s3 : State n} (h1 : Next s1 s2) (h2 : Next s2 s3) : Next s1 s3 :=
  ⟨h2.inv,fun j d a hj => h2.deleted j d a (h1.deleted j d a hj)⟩

theorem init_inv (n : Nat) : Inv (init n) := by
  refine ⟨(by decide : 0 < initEpoch),(by decide : initEpoch ≤ uint64Max),rfl,?_,?_,?_⟩
  · intro t
    constructor <;> simp [init,Safe,ToBeFreed.start,State.op]
  · intro x
    constructor
    · exact fun _ => ⟨rfl,rfl⟩
    · exact fun _ => rfl
    · constructor <;> simp [init,nullEpoch]
    · constructor <;> simp [init,nullEpoch]
    · exact fun _ h => absurd rfl h
    · exact fun _ h => absurd rfl h
  · intro i
    constructor <;> simp [init]

variable {s s' : State n} {t : Fin n} {i : Instr} {is : List Instr} {x : Addr} {h h' : Heap}

theorem target_of_dest (hx : x ∈ dest i) : x ∈ target i := by
  cases i <;> first
    | exact hx
    | cases hx

theorem target_of_release (hx : x ∈ release i) : x ∈ target i := by
  cases i <;> first
    | exact hx
    | cases hx

theorem release_of_dest (hx : dest i = some x) : release i = none := by
  cases i <;> first
    | rfl
    | cases hx

def Lasting (t : Fin n) (life life' : Nat → Life n) : Prop :=
  ∀ i, life' i = life i ∨ life i = .unused ∨ (∃ b, life i = .live b) ∨ life i = .busy t

variable {life life' : Nat → Life n} {u : Fin n} {op : Option Nat} {rest : List Instr}

theorem Lasting.busy (hl : Lasting t life life') (hne : u ≠ t) (hi : life j = .busy u) :
    life' j = .busy u := by
  rcases hl j with h | h | ⟨b,h⟩ | h
  · rw [h,hi]
  · rw [hi] at h; cases h
  · rw [hi] at h; cases h
  · rw [hi] at h; cases h; exact absurd rfl hne

theorem Lasting.deleted (hl : Lasting t life life') (hi : life j = .deleted d a) :
    life' j = .deleted d a := by
  rcases hl j with h | h | ⟨b,h⟩ | h
  · rw [h,hi]
  all_goals rw [hi] at h; cases h

theorem Lasting.gone (hl : Lasting t life life') (hi : life j = .gone) : life' j = .gone := by
  rcases hl j with h | h | ⟨b,h⟩ | h
  · rw [h,hi]
  all_goals rw [hi] at h; cases h

theorem Fits.frame (hf : Fits life u op h i rest x) (hx : h' x = h x)
    (hl : Lasting t life life') (hne : u ≠ t) : Fits life' u op h' i rest x := by
  have hw : i.write h' x = i.write h x := write_at hx
  constructor
  · rw [hw]; exact hf.epoch
  · rw [hw]; exact hf.type
  · rw [hw]
    intro hd he
    exact (hf.mark hd he).imp hl.deleted hl.gone
  · rw [hw]; exact hf.fresh
  · rw [hw]
    intro j hj
    exact (hf.version j hj).imp_right (hl.busy hne)
  · rw [hw,hx]; exact hf.stays

theorem Ok.frame (hok : Ok life u op h rest i) (hh : ∀ b ∈ target i, h' b = h b)
    (hl : Lasting t life life') (hne : u ≠ t) : Ok life' u op h' rest i := by
  cases i with
  | registerPersist x =>
    have hx : h' x = h x := hh x rfl
    simp only [Ok,hx,writes_at rest hx]
    exact hok
  | registerPersistRaw | registerFree => trivial
  | deallocate x => exact (congrArg PBlk.epoch (hh x rfl)).trans hok
  | _ => exact fun x hx => (hok x hx).frame (hh x (target_of_dest hx)) hl hne

theorem Safe.frame {result : Option (Nat × Addr)} (hs : Safe life u op result h is)
    (hh : ∀ i ∈ is, ∀ b ∈ target i, h' b = h b)
    (hr : ∀ i r, result = some (i,r) → h' r = h r)
    (hl : Lasting t life life') (hne : u ≠ t) : Safe life' u op result h' is := by
  induction is generalizing h h' with
  | nil =>
    intro i r hir
    rw [hr i r hir]
    exact hs i r hir
  | cons i _ ih =>
    refine ⟨hs.1.frame (hh i (by simp)) hl hne,ih hs.2 ?_ ?_⟩
    · exact fun j hj b hb => write_at (hh j (by simp [hj]) b hb)
    · exact fun j r hjr => write_at (hr j r hjr)

/-- A step of thread `t`. It leaves alone what the other threads own, and takes a live
block only together with its payload. -/
structure Local (s : State n) (t : Fin n) (s' : State n) : Prop where
  epoch : s'.globalEpoch = s.globalEpoch
  tbf : ∀ u, u ≠ t → s'.tbf u = s.tbf u
  pending : ∀ u, u ≠ t → s'.pending u = s.pending u
  result : ∀ u, u ≠ t → s'.result u = s.result u
  allocs : ∀ u, u ≠ t → s'.allocs u = s.allocs u
  booked : ∀ u j e, e ∈ s.persist u j → e ∈ s'.persist u j
  place : ∀ x u, u ≠ t → (s.place x).owner = some u → s'.place x = s.place x
  live : ∀ x j, s.place x = .live j → s'.life j = s.life j → s'.place x = .live j
  vol : ∀ x, s.place x ≠ .held t → s.place x ≠ .free → s'.vol x = s.vol x
  life : Lasting t s.life s'.life

section
variable (hl : Local s t s')
include hl

theorem Local.same_op (hne : u ≠ t) : s'.op u = s.op u := by
  rw [State.op,State.op,hl.tbf u hne]

theorem Local.owned (hne : u ≠ t) (hx : (s.place x).owner = some u) : s'.vol x = s.vol x := by
  apply hl.vol x
  · intro h
    rw [h] at hx
    exact hne (Option.some.inj hx).symm
  · intro h
    rw [h] at hx
    cases hx

theorem Local.worker (hne : u ≠ t) (hw : Worker s u) : Worker s' u := by
  have hheld : ∀ x, s.place x = .held u → s'.place x = .held u ∧ s'.vol x = s.vol x := by
    intro x hx
    have ho : (s.place x).owner = some u := by rw [hx]; rfl
    exact ⟨(hl.place x u hne ho).trans hx,hl.owned hne ho⟩
  constructor
  · rw [hl.pending u hne]
    exact fun i hi b hb => (hheld b (hw.held i hi b hb)).1
  · rw [hl.pending u hne]
    exact hw.released
  · rw [hl.result u hne,hl.pending u hne]
    intro i r hir
    obtain ⟨hbusy,hr,hrel⟩ := hw.result i r hir
    exact ⟨hl.life.busy hne hbusy,(hheld r hr).1,hrel⟩
  · rw [hl.same_op hne,hl.result u hne,hl.pending u hne]
    apply hw.safe.frame _ _ hl.life hne
    · exact fun i hi b hb => (hheld b (hw.held i hi b hb)).2
    · exact fun i r hir => (hheld r (hw.result i r hir).2.1).2
  · rw [hl.allocs u hne]
    intro a ha
    obtain ⟨hp,hv⟩ := hw.made a ha
    have ho : (s.place a).owner = some u := by rw [hp]; rfl
    rw [hl.owned hne ho,hl.place a u hne ho]
    exact ⟨hp,hv⟩
  · rw [hl.allocs u hne]
    exact hw.distinct
  · rw [hl.tbf u hne]
    intro j w hwj
    have hp := hw.waiting j w hwj
    rw [hl.place w.blk u hne (by rw [hp]; rfl)]
    exact hp
  · rw [hl.tbf u hne]
    exact hw.once
  · rw [hl.same_op hne,hl.epoch]
    exact hw.epoch

theorem Local.header (hb : Header s x b) : Header s' x b := by
  refine ⟨?_,hb.type,?_⟩
  · rw [hl.epoch]
    exact hb.epoch
  · exact fun hd he => (hb.mark hd he).imp hl.life.deleted hl.life.gone

theorem Local.book (hb : Booked s x e) : Booked s' x e := by
  obtain ⟨hg,u,hu⟩ := hb
  exact ⟨by rw [hl.epoch]; exact hg,u,hl.booked u _ _ hu⟩

theorem Local.pledged (hp : Pledged s x e)
    (ht : s.op t = some e → .registerPersist x e ∈ s.pending t → Pledged s' x e) :
    Pledged s' x e := by
  obtain ⟨u,hop,hmem⟩ := hp
  by_cases hne : u = t
  · rw [hne] at hop hmem
    exact ht hop hmem
  · refine ⟨u,?_,?_⟩
    · rw [hl.same_op hne]
      exact hop
    · rw [hl.pending u hne]
      exact hmem

theorem Local.making (hw : Worker s u) (hne : u ≠ t) (hop : s.op u = some d)
    (hmem : .registerPersist a d ∈ s.pending u) (hm : Mark j d (writes s.vol (s.pending u) a)) :
    Deletion s' j d a := by
  have ha : s.place a = .held u := hw.held _ hmem a rfl
  have hv : s'.vol a = s.vol a := hl.owned hne (by rw [ha]; rfl)
  apply Deletion.making u
  · rw [hl.same_op hne]
    exact hop
  · rw [hl.pending u hne]
    exact hmem
  · rw [hl.pending u hne,writes_at _ hv]
    exact hm

end

/-- Steps of a thread that has no access left to make: the headers stay as they are, apart
from those of a block that the thread takes from the allocator. -/
structure Quiet (s : State n) (t : Fin n) (s' : State n) : Prop extends Local s t s' where
  idle : s.pending t = []
  per : s'.per = s.per
  known : s.known ⊆ s'.known
  fresh : ∀ x, s'.vol x = s.vol x ∨
    s.place x = .free ∧ (s'.vol x).epoch = nullEpoch ∧ (s'.vol x).blktype = .init
  taken : ∀ x, s'.place x ≠ s.place x → x ∈ s'.known ∧ s'.place x ≠ .free

section
variable (hq : Quiet s t s')
include hq

theorem Quiet.pledged (hp : Pledged s x e) : Pledged s' x e := by
  apply hq.toLocal.pledged hp
  intro _ hmem
  rw [hq.idle] at hmem
  cases hmem

theorem Quiet.header (hc : Copies s x) : Header s' x (s'.vol x) := by
  rcases hq.fresh x with hv | ⟨-,he,hi⟩
  · rw [hv]
    exact hq.toLocal.header hc.vol
  · refine ⟨?_,by simp [hi],fun _ h => absurd he h⟩
    rw [he]
    exact Nat.zero_le _

theorem Quiet.copies (hc : Copies s x) : Copies s' x := by
  constructor
  · intro hx
    obtain ⟨hfree,hper⟩ := hc.known fun hk => hx (hq.known hk)
    refine ⟨?_,by rw [hq.per]; exact hper⟩
    by_contra hne
    exact hx (hq.taken x fun h => hne (h.trans hfree)).1
  · intro hfree
    have hsame : s'.place x = s.place x := by
      by_contra hne
      exact (hq.taken x hne).2 hfree
    rcases hq.fresh x with hv | ⟨-,he,-⟩
    · rw [hv]
      exact hc.free (hsame.symm.trans hfree)
    · exact he
  · exact hq.header hc
  · rw [hq.per]
    exact hq.toLocal.header hc.per
  · rcases hq.fresh x with hv | ⟨-,he,-⟩
    · rw [hv]
      exact fun hi he => hq.pledged (hc.fresh hi he)
    · exact fun _ h => absurd he h
  · rw [hq.per]
    exact fun hi he => (hc.stain hi he).imp hq.pledged hq.toLocal.book

theorem Quiet.version (hv : Version j (s'.vol x)) : Version j (s.vol x) := by
  rcases hq.fresh x with hx | ⟨-,he,-⟩
  · rw [← hx]
    exact hv
  · exact absurd he hv.2.1

theorem Quiet.deletion (h : Inv s) (hd : d ≠ nullEpoch)
    (hdel : Deletion s j d a) : Deletion s' j d a := by
  cases hdel with
  | making u hop hmem hfinal =>
    refine hq.toLocal.making (h.worker u) ?_ hop hmem hfinal
    intro hu
    rw [hu,hq.idle] at hmem
    cases hmem
  | standing hvol hper =>
    have hv : s'.vol a = s.vol a := by
      rcases hq.fresh a with hv | ⟨hfree,-,-⟩
      · exact hv
      · exact absurd (hvol.2.1.symm.trans ((h.copies a).free hfree)) hd
    apply Deletion.standing
    · rw [hv]
      exact hvol
    · rw [hq.per]
      exact hper.imp_right hq.toLocal.book
  | erased hnone =>
    apply Deletion.erased
    intro x
    rw [hq.per]
    exact ⟨fun hx => (hnone x).1 (hq.version hx),(hnone x).2⟩

theorem Quiet.payload (h : Inv s) (hj : s'.life j = s.life j) : Payload s' j := by
  constructor
  · intro b hb
    obtain ⟨hp,hv⟩ := (h.payload j).live b (hj.symm.trans hb)
    refine ⟨hq.live b j hp hj,?_⟩
    rw [hq.vol b (by simp [hp]) (by simp [hp])]
    exact hv
  · intro d a hd
    obtain ⟨hne,hdel⟩ := (h.payload j).deleted d a (hj.symm.trans hd)
    exact ⟨hne,hq.deletion h hne hdel⟩

end

theorem Inv.quiet (h : Inv s) (hq : Quiet s t s') (hw : Worker s' t)
    (hpayload : ∀ j, s'.life j ≠ s.life j → j ≠ 0 ∧ Payload s' j) : Next s s' := by
  refine ⟨?_,fun j d a hj => hq.life.deleted hj⟩
  constructor
  · rw [hq.epoch]
    exact h.started
  · rw [hq.epoch]
    exact h.bounded
  · by_contra hne
    exact (hpayload 0 fun h0 => hne (h0.trans h.zero)).1 rfl
  · intro u
    by_cases hu : u = t
    · rw [hu]
      exact hw
    · exact hq.toLocal.worker hu (h.worker u)
  · exact fun x => hq.copies (h.copies x)
  · intro j
    by_cases hj : s'.life j = s.life j
    · exact hq.payload h hj
    · exact (hpayload j hj).2

structure Access (s : State n) (t : Fin n) (i : Instr) (is : List Instr) (s' : State n) :
    Prop extends Local s t s' where
  head : s.pending t = i :: is
  tail : s'.pending t = is
  same : s'.life = s.life ∧ s'.known = s.known ∧ s'.op t = s.op t ∧ s'.result t = s.result t ∧
    s'.allocs t = s.allocs t
  write : s'.vol = i.write s.vol
  keep : ∀ x, x ∉ release i → s'.place x = s.place x
  freed : ∀ x, s'.place x = .free → s.place x = .free ∨ i = .deallocate x
  per : ∀ x, s'.per x = s.per x ∨ dest i = none ∧ s'.per x = s.vol x
  registers : ∀ x c, i = .registerPersist x c →
    s'.per x = s.vol x ∨ ⟨x,c⟩ ∈ s'.persist t (c % epochWindow)
  buckets : ∀ j, ∀ w ∈ (s'.tbf t).buckets j,
    w ∈ (s.tbf t).buckets j ∨ w.blk ∈ release i ∧ s'.place w.blk = .waiting t j
  once : ∀ j, (((s'.tbf t).buckets j).map ToBeFreed.Waiting.blk).Nodup

section
variable (ha : Access s t i is s')
include ha

theorem Access.pledged (hp : Pledged s x e) :
    Pledged s' x e ∨ i = .registerPersist x e ∧ s.op t = some e := by
  by_cases hi : i = .registerPersist x e ∧ s.op t = some e
  · exact .inr hi
  · left
    apply ha.toLocal.pledged hp
    intro hop hmem
    rw [ha.head] at hmem
    rcases mem_cons.mp hmem with heq | hmem
    · exact absurd ⟨heq.symm,hop⟩ hi
    · refine ⟨t,ha.same.2.2.1.trans hop,?_⟩
      rw [ha.tail]
      exact hmem

section
variable (hw : Worker s t)
include hw

theorem Access.ok : Ok s.life t (s.op t) s.vol is i := by
  have hsafe := hw.safe
  rw [ha.head] at hsafe
  exact hsafe.1

theorem Access.fits (hx : dest i = some x) : Fits s.life t (s.op t) s.vol i is x := by
  have hok := ha.ok hw
  cases i <;> first
    | exact hok x hx
    | cases hx

theorem Access.held (hx : x ∈ target i) : s.place x = .held t :=
  hw.held i (by simp [ha.head]) x hx

theorem Access.keeps (hx : s.place x ≠ .held t) : s'.place x = s.place x :=
  ha.keep x fun hr => hx (ha.held hw (target_of_release hr))

theorem Access.worker : Worker s' t := by
  have hrel := hw.released
  rw [ha.head] at hrel
  obtain ⟨hfirst,hrest⟩ := pairwise_cons.mp hrel
  obtain ⟨hlife,-,hop,hres,hallocs⟩ := ha.same
  constructor
  · rw [ha.tail]
    intro j hj b hb
    rw [ha.keep b fun hr => hfirst j hj b hr hb]
    exact hw.held j (by simp [ha.head,hj]) b hb
  · rw [ha.tail]
    exact hrest
  · rw [ha.tail,hres,hlife]
    intro k r hkr
    obtain ⟨hbusy,hr,hnot⟩ := hw.result k r hkr
    rw [ha.keep r (hnot i (by simp [ha.head]))]
    exact ⟨hbusy,hr,fun j hj => hnot j (by simp [ha.head,hj])⟩
  · have hsafe := hw.safe
    rw [ha.head] at hsafe
    rw [ha.tail,hlife,hop,hres,ha.write]
    exact hsafe.2
  · rw [hallocs]
    intro a hmem
    obtain ⟨hp,hv⟩ := hw.made a hmem
    have hne : s.place a ≠ .held t := by simp [hp]
    rw [ha.keeps hw hne,ha.vol a hne (by simp [hp])]
    exact ⟨hp,hv⟩
  · rw [hallocs]
    exact hw.distinct
  · intro j w hwj
    rcases ha.buckets j w hwj with hold | ⟨-,hnew⟩
    · have hp := hw.waiting j w hold
      rw [ha.keeps hw (by simp [hp])]
      exact hp
    · exact hnew
  · exact ha.once
  · rw [hop,ha.epoch]
    exact hw.epoch

theorem Access.fresh (hc : Copies s x)
    (hi : (s.vol x).blktype = .init) (he : (s.vol x).epoch ≠ nullEpoch) :
    Pledged s' x (s.vol x).epoch := by
  rcases ha.pledged (hc.fresh hi he) with hp | ⟨heq,-⟩
  · exact hp
  · have hok := ha.ok hw
    rw [heq] at hok
    exact absurd hi hok.2.1

theorem Access.copies_stored (hc : Copies s x) (hx : dest i = some x) : Copies s' x := by
  have hf := ha.fits hw hx
  have hheld := ha.held hw (target_of_dest hx)
  have hplace : s'.place x = .held t := by
    rw [ha.keep x (by simp [release_of_dest hx]),hheld]
  have hper : s'.per x = s.per x := by
    rcases ha.per x with h | ⟨h,-⟩
    · exact h
    · rw [h] at hx
      cases hx
  have hv : s'.vol x = i.write s.vol x := congrFun ha.write x
  constructor
  · rw [ha.same.2.1]
    intro hk
    have hfree := (hc.known hk).1
    rw [hheld] at hfree
    cases hfree
  · intro hfree
    rw [hplace] at hfree
    cases hfree
  · rw [hv]
    refine ⟨?_,hf.type,?_⟩
    · by_cases he : (i.write s.vol x).epoch = nullEpoch
      · rw [he]
        exact Nat.zero_le _
      · rw [ha.epoch]
        exact (hw.epoch _ (hf.epoch he)).2.1
    · rw [ha.same.1]
      exact hf.mark
  · rw [hper]
    exact ha.toLocal.header hc.per
  · rw [hv]
    intro hi he
    refine ⟨t,ha.same.2.2.1.trans (hf.epoch he),?_⟩
    rw [ha.tail]
    exact hf.fresh hi he
  · rw [hper]
    intro hi he
    rcases hc.stain hi he with hp | hb
    · rcases ha.pledged hp with hp | ⟨heq,-⟩
      · exact .inl hp
      · rw [heq] at hx
        cases hx
    · exact .inr (ha.toLocal.book hb)

/-- A block that lacks its type in its persistent copy is still going to be written back,
or is written back now. -/
theorem Access.stain (hc : Copies s x)
    (hi : (s'.per x).blktype = .init) (he : (s'.per x).epoch ≠ nullEpoch) :
    Pledged s' x (s'.per x).epoch ∨ Booked s' x (s'.per x).epoch := by
  rcases ha.per x with h | ⟨-,h⟩
  · rw [h] at hi he ⊢
    rcases hc.stain hi he with hp | hb
    · rcases ha.pledged hp with hp | ⟨heq,hop⟩
      · exact .inl hp
      · rcases ha.registers x _ heq with hnow | hmem
        · have hok := ha.ok hw
          rw [heq] at hok
          exact absurd (by rw [← hnow,h]; exact hi) hok.2.1
        · refine .inr ⟨?_,t,hmem⟩
          rw [ha.epoch]
          exact (hw.epoch _ hop).2.2
    · exact .inr (ha.toLocal.book hb)
  · rw [h] at hi he ⊢
    exact .inl (ha.fresh hw hc hi he)

theorem Access.copies_kept (hc : Copies s x) (hx : dest i ≠ some x) : Copies s' x := by
  have hv : s'.vol x = s.vol x := (congrFun ha.write x).trans (write_other hx)
  constructor
  · rw [ha.same.2.1]
    intro hk
    obtain ⟨hfree,hnull⟩ := hc.known hk
    refine ⟨(ha.keeps hw (by simp [hfree])).trans hfree,?_⟩
    rcases ha.per x with h | ⟨-,h⟩
    · rw [h]
      exact hnull
    · rw [h]
      exact hc.free hfree
  · rw [hv]
    intro hfree
    rcases ha.freed x hfree with h | h
    · exact hc.free h
    · have hok := ha.ok hw
      rw [h] at hok
      exact hok
  · rw [hv]
    exact ha.toLocal.header hc.vol
  · rcases ha.per x with h | ⟨-,h⟩
    · rw [h]
      exact ha.toLocal.header hc.per
    · rw [h]
      exact ha.toLocal.header hc.vol
  · rw [hv]
    exact ha.fresh hw hc
  · exact ha.stain hw hc

theorem Access.version (hv : Version j (s'.vol x)) :
    Version j (s.vol x) ∨ j = 0 ∨ s.life j = .busy t := by
  rw [ha.write] at hv
  by_cases hx : dest i = some x
  · exact .inr ((ha.fits hw hx).version j hv)
  · rw [write_other hx] at hv
    exact .inl hv

end

theorem Access.erased (h : Inv s) (hj : s.life j = .deleted d a)
    (hnone : ∀ x, ¬ Version j (s.vol x) ∧ ¬ Version j (s.per x)) :
    ∀ x, ¬ Version j (s'.vol x) ∧ ¬ Version j (s'.per x) := by
  intro x
  refine ⟨?_,?_⟩
  · intro hv
    rcases ha.version (h.worker t) hv with hv | h0 | hb
    · exact (hnone x).1 hv
    · rw [h0,h.zero] at hj
      cases hj
    · rw [hb] at hj
      cases hj
  · intro hv
    rcases ha.per x with hper | ⟨-,hper⟩
    · rw [hper] at hv
      exact (hnone x).2 hv
    · rw [hper] at hv
      exact (hnone x).1 hv

omit ha in
theorem Inv.erased (h : Inv s) (hj : s.erased j) :
    ∀ x, ¬ Version j (s.vol x) ∧ ¬ Version j (s.per x) := by
  intro x
  by_cases hx : x ∈ s.known
  · exact hj x hx
  · obtain ⟨hfree,hper⟩ := (h.copies x).known hx
    exact ⟨fun hv => hv.2.1 ((h.copies x).free hfree),fun hv => hv.2.1 hper⟩

/-- The only store to a standing anti-node resets its epoch, and then nothing may be left of
the payload. -/
theorem Access.standing (h : Inv s) (hj : s.life j = .deleted d a) (hd : d ≠ nullEpoch)
    (hguard : ∀ x, i = .setEpoch x nullEpoch → (s.life (s.vol x).id).anti = some x →
      s.erased (s.vol x).id)
    (hvol : Mark j d (s.vol a)) (hper : Mark j d (s.per a) ∨ Booked s a d) :
    Deletion s' j d a := by
  have hstand : Mark j d (s'.vol a) → Deletion s' j d a := by
    intro hv
    apply Deletion.standing hv
    rcases ha.per a with heq | ⟨-,heq⟩
    · rw [heq]
      exact hper.imp_right ha.toLocal.book
    · rw [heq]
      exact .inl hvol
  obtain ⟨htype,hepoch,hid⟩ := id hvol
  by_cases hx : dest i = some a
  · have hf := ha.fits (h.worker t) hx
    rcases hf.stays htype (hepoch ▸ hd) with hm | heq
    · apply hstand
      rw [ha.write]
      rw [hid,hepoch] at hm
      exact hm
    · have herased := hguard a heq (by rw [hid,hj]; rfl)
      rw [hid] at herased
      exact .erased (ha.erased h hj (h.erased herased))
  · apply hstand
    rw [ha.write,write_other hx]
    exact hvol

theorem Access.deletion (h : Inv s) (hj : s.life j = .deleted d a) (hd : d ≠ nullEpoch)
    (hguard : ∀ x, i = .setEpoch x nullEpoch → (s.life (s.vol x).id).anti = some x →
      s.erased (s.vol x).id)
    (hdel : Deletion s j d a) : Deletion s' j d a := by
  cases hdel with
  | making u hop hmem hfinal =>
    by_cases hu : u = t
    · subst u
      rw [ha.head] at hmem hfinal
      by_cases heq : i = .registerPersist a d
      · have hok := ha.ok (h.worker t)
        rw [heq] at hok hfinal
        have hv : Mark j d (s.vol a) := by
          rw [← hok.2.2]
          exact hfinal
        have hv' : s'.vol a = s.vol a := by
          rw [ha.write,heq]
          rfl
        apply Deletion.standing (hv' ▸ hv)
        rcases ha.registers a d heq with hnow | hbook
        · exact .inl (hnow ▸ hv)
        · refine .inr ⟨?_,t,hbook⟩
          rw [ha.epoch]
          exact ((h.worker t).epoch d hop).2.2
      · apply Deletion.making t (ha.same.2.2.1.trans hop)
        · rw [ha.tail]
          exact (mem_cons.mp hmem).resolve_left (Ne.symm heq)
        · rw [ha.tail,ha.write]
          exact hfinal
    · exact ha.toLocal.making (h.worker u) hu hop hmem hfinal
  | standing hvol hper => exact ha.standing h hj hd hguard hvol hper
  | erased hnone => exact .erased (ha.erased h hj hnone)

end

theorem Inv.access (h : Inv s) (ha : Access s t i is s')
    (hguard : ∀ x, i = .setEpoch x nullEpoch → (s.life (s.vol x).id).anti = some x →
      s.erased (s.vol x).id) : Next s s' := by
  have hlife := ha.same.1
  refine ⟨?_,fun j d a hj => by rw [hlife]; exact hj⟩
  constructor
  · rw [ha.epoch]
    exact h.started
  · rw [ha.epoch]
    exact h.bounded
  · rw [hlife]
    exact h.zero
  · intro u
    by_cases hu : u = t
    · rw [hu]
      exact ha.worker (h.worker t)
    · exact ha.toLocal.worker hu (h.worker u)
  · intro x
    by_cases hx : dest i = some x
    · exact ha.copies_stored (h.worker t) (h.copies x) hx
    · exact ha.copies_kept (h.worker t) (h.copies x) hx
  · intro j
    constructor
    · rw [hlife]
      intro b hb
      obtain ⟨hp,hv⟩ := (h.payload j).live b hb
      rw [ha.keeps (h.worker t) (by simp [hp]),ha.vol b (by simp [hp]) (by simp [hp])]
      exact ⟨hp,hv⟩
    · rw [hlife]
      intro d a hj
      obtain ⟨hd,hdel⟩ := (h.payload j).deleted d a hj
      exact ⟨hd,ha.deletion h hj hd hguard hdel⟩

theorem Worker.transient (hw : Worker s u) (per : Heap) (persist : Fin n → Nat → List Entry) :
    Worker { s with per := per, persist := persist } u :=
  ⟨hw.held,hw.released,hw.result,hw.safe,hw.made,hw.distinct,hw.waiting,hw.once,hw.epoch⟩

theorem Inv.flush (h : Inv s) (x : Addr) (persist : Fin n → Nat → List Entry)
    (hbook : ∀ u j e, e ∈ s.persist u j → e ∈ persist u j ∨ e.blk = x) :
    Next s { s with per := update s.per x (s.vol x), persist := persist } := by
  refine ⟨?_,fun _ _ _ hj => hj⟩
  have hkeep : ∀ y e, Booked s y e → y = x ∨
      Booked { s with per := update s.per x (s.vol x), persist := persist } y e := by
    intro y e hb
    obtain ⟨hg,u,hu⟩ := hb
    rcases hbook u _ _ hu with hu | hx
    · exact .inr ⟨hg,u,hu⟩
    · exact .inl hx
  constructor
  · exact h.started
  · exact h.bounded
  · exact h.zero
  · exact fun u => (h.worker u).transient _ _
  · intro y
    have hc := h.copies y
    by_cases hy : y = x
    · subst y
      refine ⟨?_,hc.free,⟨hc.vol.epoch,hc.vol.type,hc.vol.mark⟩,?_,hc.fresh,?_⟩
      · intro hk
        have hfree := (hc.known hk).1
        simpa using ⟨hfree,hc.free hfree⟩
      · simp only [update_self]
        exact ⟨hc.vol.epoch,hc.vol.type,hc.vol.mark⟩
      · simp only [update_self]
        exact fun hi he => .inl (hc.fresh hi he)
    · refine ⟨?_,hc.free,⟨hc.vol.epoch,hc.vol.type,hc.vol.mark⟩,?_,hc.fresh,?_⟩
      · simpa [hy] using hc.known
      · simp only [update_of_ne hy]
        exact ⟨hc.per.epoch,hc.per.type,hc.per.mark⟩
      · simp only [update_of_ne hy]
        exact fun hi he => (hc.stain hi he).imp_right fun hb => (hkeep y _ hb).resolve_left hy
  · intro j
    refine ⟨(h.payload j).live,?_⟩
    intro d a hj
    obtain ⟨hd,hdel⟩ := (h.payload j).deleted d a hj
    refine ⟨hd,?_⟩
    cases hdel with
    | making u hop hmem hfinal => exact .making u hop hmem hfinal
    | standing hvol hper =>
      refine .standing hvol ?_
      by_cases ha : a = x
      · left
        simpa [ha] using ha ▸ hvol
      · simp only [update_of_ne ha]
        exact hper.imp_right fun hb => (hkeep a d hb).resolve_left ha
    | erased hnone =>
      apply Deletion.erased
      intro y
      refine ⟨(hnone y).1,?_⟩
      by_cases hy : y = x
      · simpa [hy] using (hnone x).1
      · simpa [hy] using (hnone y).2

/-- What is booked under the epoch before the current one has been written back before the
epoch advances. -/
theorem Inv.advance (h : Inv s) (hadv : s.mayAdvance) :
    Next s { s with globalEpoch := s.globalEpoch + 1 } := by
  refine ⟨?_,fun _ _ _ hj => hj⟩
  obtain ⟨hmax,hops,hflushed⟩ := hadv
  have hkeep : ∀ y e, Booked s y e →
      Booked { s with globalEpoch := s.globalEpoch + 1 } y e := by
    intro y e hb
    obtain ⟨hg,u,hu⟩ := hb
    refine ⟨?_,u,hu⟩
    by_contra hlate
    have he : s.globalEpoch - 1 = e := by
      simp only at hlate
      omega
    have := hflushed u ⟨y,e⟩ (by rw [he]; exact hu)
    exact this he.symm
  have hheader : ∀ x b, Header s x b →
      Header { s with globalEpoch := s.globalEpoch + 1 } x b :=
    fun x b hb => ⟨Nat.le_succ_of_le hb.epoch,hb.type,hb.mark⟩
  constructor
  · exact Nat.succ_pos _
  · exact hmax
  · exact h.zero
  · intro u
    have hw := h.worker u
    refine ⟨hw.held,hw.released,hw.result,hw.safe,hw.made,hw.distinct,hw.waiting,hw.once,?_⟩
    intro c hc
    have hlate := hops u c hc
    have hep := hw.epoch c hc
    simp only
    omega
  · intro x
    have hc := h.copies x
    exact ⟨hc.known,hc.free,hheader x _ hc.vol,hheader x _ hc.per,hc.fresh,
      fun hi he => (hc.stain hi he).imp_right (hkeep x _)⟩
  · intro j
    refine ⟨(h.payload j).live,?_⟩
    intro d a hj
    obtain ⟨hd,hdel⟩ := (h.payload j).deleted d a hj
    refine ⟨hd,?_⟩
    cases hdel with
    | making u hop hmem hfinal => exact .making u hop hmem hfinal
    | standing hvol hper => exact .standing hvol (hper.imp_right (hkeep a d))
    | erased hnone => exact .erased hnone

end Montage.Durable
